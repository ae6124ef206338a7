import Mathlib.Tactic.Ring
import FreeBsd.Lib.Fragments
import Mathlib.Data.Nat.Basic

/-! `librpc/rpc/xdr_rec.c`: the record marking stream, with its out-going and its in-coming bits
apart. Pointers into a buffer are offsets from its base, which is aligned. -/
namespace FreeBsd.Rpc

abbrev Byte := BitVec 8

section Sizes

def BYTES_PER_XDR_UNIT : Nat := 4

def RNDUP (x : Nat) : Nat := (x + BYTES_PER_XDR_UNIT - 1) / BYTES_PER_XDR_UNIT * BYTES_PER_XDR_UNIT

def fix_buf_size (s : Nat) : Nat := RNDUP (if s < 100 then 4000 else s)

def LAST_FRAG : Nat := 2 ^ 31

def htonl (x : Nat) : List Byte :=
  [BitVec.ofNat 8 (x / 2 ^ 24), BitVec.ofNat 8 (x / 2 ^ 16), BitVec.ofNat 8 (x / 2 ^ 8),
    BitVec.ofNat 8 x]

def ntohl (bytes : List Byte) : Nat := bytes.foldl (fun x b => x * 256 + b.toNat) 0

def header (len : Nat) (eor : Bool) : List Byte := htonl (len + if eor then LAST_FRAG else 0)

end Sizes

section Outgoing

/-- The out-going bits, with what has been given to `writeit`, which takes it all. -/
structure Outgoing where
  sendsize : Nat
  /-- From `out_base` to `out_finger`. -/
  buffer : List Byte
  frag_header : Nat
  frag_sent : Bool
  written : List Byte
  deriving DecidableEq, Repr

namespace Outgoing

variable (s : Outgoing)

def patch (bytes : List Byte) : List Byte :=
  s.buffer.take s.frag_header ++ bytes ++ s.buffer.drop (s.frag_header + 4)

def fragLen : Nat := s.buffer.length - s.frag_header - 4

def flush_out (eor : Bool) : Outgoing :=
  let buffer := s.patch (header s.fragLen eor)
  { s with written := s.written ++ buffer, frag_header := 0, buffer := buffer.take 4 }

def put (bytes : List Byte) : Outgoing := { s with buffer := s.buffer ++ bytes }

def xdrrec_putlong (x : BitVec 32) : Outgoing :=
  if s.buffer.length + 4 > s.sendsize then ({ s with frag_sent := true }.flush_out false).put
    (htonl x.toNat)
  else s.put (htonl x.toNat)

/-- The loop of `xdrrec_putbytes`, which has at most one pass more than there are bytes. -/
def putbytesLoop : Nat → Outgoing → List Byte → Outgoing
  | 0, s, _ => s
  | fuel + 1, s, addr =>
    if addr = [] then s
    else
      let current := min addr.length (s.sendsize - s.buffer.length)
      let s := s.put (addr.take current)
      let s :=
        if s.buffer.length = s.sendsize then { s with frag_sent := true }.flush_out false else s
      putbytesLoop fuel s (addr.drop current)

def xdrrec_putbytes (addr : List Byte) : Outgoing := putbytesLoop (addr.length + 1) s addr

/-- `xdrrec_inline` for encoding, and what the caller puts into the place it gets. -/
def xdrrec_inline (bytes : List Byte) : Outgoing × Bool :=
  if s.buffer.length + bytes.length ≤ s.sendsize then (s.put bytes, true) else (s, false)

def xdrrec_endofrecord (sendnow : Bool) : Outgoing :=
  if sendnow ∨ s.frag_sent ∨ s.buffer.length + 4 ≥ s.sendsize then
    { s with frag_sent := false }.flush_out true
  else
    let buffer := s.patch (header s.fragLen true)
    { s with buffer := buffer ++ [0, 0, 0, 0], frag_header := buffer.length }

end Outgoing

def xdrrec_create_out (sendsize : Nat) :
    Outgoing := ⟨fix_buf_size sendsize, [0, 0, 0, 0], 0, false, []⟩

inductive WriteOp where
  | putlong (x : BitVec 32)
  | putbytes (addr : List Byte)
  | inline (bytes : List Byte)
  deriving DecidableEq, Repr

def Outgoing.write (s : Outgoing) : WriteOp → Outgoing × List Byte
  | .putlong x => (s.xdrrec_putlong x, htonl x.toNat)
  | .putbytes addr => (s.xdrrec_putbytes addr, addr)
  | .inline bytes => if (s.xdrrec_inline bytes).2 then ((s.xdrrec_inline bytes).1, bytes) else (s,
    [])

def Outgoing.writes (s : Outgoing) : List WriteOp → Outgoing × List Byte
  | [] => (s, [])
  | op :: ops =>
    let first := s.write op
    let rest := first.1.writes ops
    (rest.1, first.2 ++ rest.2)

/-- Records, each with its `sendnow`; and the bytes that were written for them. -/
def Outgoing.records (s : Outgoing) : List (List WriteOp × Bool) → Outgoing × List (List Byte)
  | [] => (s, [])
  | (ops, sendnow) :: more =>
    let record := s.writes ops
    let rest := (record.1.xdrrec_endofrecord sendnow).records more
    (rest.1, record.2 :: rest.2)

end Outgoing

section Incoming

/-- The in-coming bits, with what `readit` has not delivered yet, and the sizes of its pieces. -/
structure Incoming where
  in_size : Nat
  /-- From `in_finger` to `in_boundry`. -/
  ahead : List Byte
  in_boundry : Nat
  fbtbc : Nat
  last_frag : Bool
  coming : List Byte
  pieces : Nat → Nat
  reads : Nat

namespace Incoming

variable (s : Incoming)

/-- `readit` delivers at least a byte, and fails when there are no more. -/
def readit (len : Nat) : Option (List Byte × Incoming) :=
  if s.coming = [] then none
  else
    let piece := max 1 (min (s.pieces s.reads) len)
    some (s.coming.take piece, { s with coming := s.coming.drop piece, reads := s.reads + 1 })

def fill_input_buf : Option Incoming :=
  let i := s.in_boundry % BYTES_PER_XDR_UNIT
  (s.readit (s.in_size - i)).map fun r => { r.2 with ahead := r.1, in_boundry := i + r.1.length }

/-- The loop of `get_input_bytes`: each pass gets a byte at least. -/
def getLoop : Nat → Incoming → Nat → Incoming × Option (List Byte)
  | 0, s, _ => (s, some [])
  | fuel + 1, s, len =>
    if len = 0 then (s, some [])
    else
      match if s.ahead = [] then s.fill_input_buf else some s with
      | none => (s, none)
      | some s =>
        let current := min len s.ahead.length
        let rest := getLoop fuel { s with ahead := s.ahead.drop current } (len - current)
        (rest.1, rest.2.map (s.ahead.take current ++ ·))

def get_input_bytes (len : Nat) : Incoming × Option (List Byte) := getLoop len s len

def skip_input_bytes (cnt : Nat) : Incoming × Bool :=
  let r := getLoop cnt s cnt
  (r.1, r.2.isSome)

def set_input_fragment : Incoming × Bool :=
  match s.get_input_bytes 4 with
  | (s, none) => (s, false)
  | (s, some bytes) =>
    ({ s with last_frag := decide (ntohl bytes ≥ LAST_FRAG), fbtbc := ntohl bytes % LAST_FRAG },
      true)

def stream : List Byte := s.ahead ++ s.coming

def getbytesLoop : Nat → Incoming → Nat → Incoming × Option (List Byte)
  | 0, s, _ => (s, none)
  | fuel + 1, s, len =>
    if len = 0 then (s, some [])
    else if s.fbtbc = 0 then
      if s.last_frag then (s, none)
      else
        match s.set_input_fragment with
        | (s, false) => (s, none)
        | (s, true) => getbytesLoop fuel s len
    else
      let current := min len s.fbtbc
      match s.get_input_bytes current with
      | (s, none) => (s, none)
      | (s, some bytes) =>
        let rest := getbytesLoop fuel { s with fbtbc := s.fbtbc - current } (len - current)
        (rest.1, rest.2.map (bytes ++ ·))

def xdrrec_getbytes (len : Nat) : Incoming × Option (List Byte) :=
  getbytesLoop (s.stream.length + 2) s len

def xdrrec_getlong : Incoming × Option (BitVec 32) :=
  if s.fbtbc ≥ 4 ∧ s.ahead.length ≥ 4 then
    ({ s with fbtbc := s.fbtbc - 4, ahead := s.ahead.drop 4 },
      some (BitVec.ofNat 32 (ntohl (s.ahead.take 4))))
  else
    let r := s.xdrrec_getbytes 4
    (r.1, r.2.map fun bytes => BitVec.ofNat 32 (ntohl bytes))

/-- `xdrrec_inline` for decoding, with what is in the place. -/
def xdrrec_inline (len : Nat) : Incoming × Option (List Byte) :=
  if len ≤ s.fbtbc ∧ len ≤ s.ahead.length then
    ({ s with fbtbc := s.fbtbc - len, ahead := s.ahead.drop len }, some (s.ahead.take len))
  else (s, none)

def skipLoop : Nat → Incoming → Incoming × Bool
  | 0, s => (s, false)
  | fuel + 1, s =>
    if s.fbtbc > 0 ∨ s.last_frag = false then
      match s.skip_input_bytes s.fbtbc with
      | (s, false) => (s, false)
      | (s, true) =>
        let s := { s with fbtbc := 0 }
        if s.last_frag then skipLoop fuel s
        else
          match s.set_input_fragment with
          | (s, false) => (s, false)
          | (s, true) => skipLoop fuel s
    else (s, true)

def xdrrec_skiprecord : Incoming × Bool :=
  match skipLoop (s.stream.length + 2) s with
  | (s, false) => (s, false)
  | (s, true) => ({ s with last_frag := false }, true)

def xdrrec_eof : Incoming × Bool :=
  match skipLoop (s.stream.length + 2) s with
  | (s, false) => (s, true)
  | (s, true) => (s, decide (s.ahead = []))

end Incoming

def xdrrec_create_in (recvsize : Nat) (coming : List Byte) (pieces : Nat → Nat) : Incoming :=
  ⟨fix_buf_size recvsize, [], fix_buf_size recvsize, 0, true, coming, pieces, 0⟩

inductive ReadOp where
  | getlong
  | getbytes (len : Nat)
  | inline (len : Nat)
  | skiprecord
  | eof
  deriving DecidableEq, Repr

inductive Answer where
  | long (x : Option (BitVec 32))
  | bytes (addr : Option (List Byte))
  | flag (b : Bool)
  deriving DecidableEq, Repr

def Incoming.read (s : Incoming) : ReadOp → Incoming × Answer
  | .getlong => (s.xdrrec_getlong.1, .long s.xdrrec_getlong.2)
  | .getbytes len => ((s.xdrrec_getbytes len).1, .bytes (s.xdrrec_getbytes len).2)
  | .inline len => ((s.xdrrec_inline len).1, .bytes (s.xdrrec_inline len).2)
  | .skiprecord => (s.xdrrec_skiprecord.1, .flag s.xdrrec_skiprecord.2)
  | .eof => (s.xdrrec_eof.1, .flag s.xdrrec_eof.2)

def Incoming.answers (s : Incoming) : List ReadOp → List (ReadOp × Answer)
  | [] => []
  | op :: ops => (op, (s.read op).2) :: (s.read op).1.answers ops

end Incoming

end FreeBsd.Rpc
