import FreeBsd.Lib.Ring
import FreeBsd.Net.Bpf
import Mathlib.Data.BitVec

/-! The compression of TCP/IP headers, `net/slcompress.c`. Header fields hold what the
machine, a little-endian one, loads from the packet, so multi-byte fields are in network
order and are read through `ntohs` and `ntohl` as in the source. The packet counters are
left out. A copy that would run over the end of `csu_hdr`, a search that does not come
back to `last_cs` and an index past the receive states are `none`. -/
namespace FreeBsd.Net.Slcompress

open FreeBsd.Lib (walk relink)

abbrev MAX_STATES : Nat := 16

/-- `MLEN`: an mbuf of 128 bytes less its `struct m_hdr`. -/
def MAX_HDR : Nat := 108

def IPPROTO_TCP : Byte := 6

def TH_FIN : Byte := 0x01
def TH_SYN : Byte := 0x02
def TH_RST : Byte := 0x04
def TH_PUSH : Byte := 0x08
def TH_ACK : Byte := 0x10
def TH_URG : Byte := 0x20

def NEW_C : Byte := 0x40
def NEW_I : Byte := 0x20
def NEW_S : Byte := 0x08
def NEW_A : Byte := 0x04
def NEW_W : Byte := 0x02
def NEW_U : Byte := 0x01
def TCP_PUSH_BIT : Byte := 0x10
def SPECIAL_I : Byte := NEW_S ||| NEW_W ||| NEW_U
def SPECIAL_D : Byte := NEW_S ||| NEW_A ||| NEW_W ||| NEW_U
def SPECIALS_MASK : Byte := NEW_S ||| NEW_A ||| NEW_W ||| NEW_U

def hi (x : BitVec 16) : Byte := x.extractLsb' 8 8
def lo (x : BitVec 16) : Byte := x.extractLsb' 0 8

def ntohs (x : BitVec 16) : BitVec 16 := lo x ++ hi x
def htons (x : BitVec 16) : BitVec 16 := lo x ++ hi x

def ntohl (x : BitVec 32) : BitVec 32 :=
  ntohs (x.extractLsb' 0 16) ++ ntohs (x.extractLsb' 16 16)
def htonl (x : BitVec 32) : BitVec 32 :=
  htons (x.extractLsb' 0 16) ++ htons (x.extractLsb' 16 16)

/-- `struct ip` and `struct tcphdr`, each followed by its options; `ports` is the first
word of the TCP header. -/
structure Hdr where
  vhl : Byte
  tos : Byte
  len : BitVec 16
  id : BitVec 16
  off : BitVec 16
  ttl : Byte
  p : Byte
  sum : BitVec 16
  src : BitVec 32
  dst : BitVec 32
  opts : List Byte
  ports : BitVec 32
  seq : BitVec 32
  ack : BitVec 32
  offx2 : Byte
  flags : Byte
  win : BitVec 16
  thsum : BitVec 16
  urp : BitVec 16
  thopts : List Byte
  deriving DecidableEq, Repr

def Hdr.zero : Hdr := ⟨0, 0, 0, 0, 0, 0, 0, 0, 0, 0, [], 0, 0, 0, 0, 0, 0, 0, 0, []⟩

def Hdr.hl (h : Hdr) : Nat := (h.vhl &&& 0x0f).toNat
def Hdr.thOff (h : Hdr) : Nat := (h.offx2 >>> 4).toNat

def Hdr.hlen (h : Hdr) : Nat := (h.hl + h.thOff) * 4

structure Packet where
  ip : Hdr
  data : List Byte
  deriving DecidableEq, Repr

structure CState where
  next : Fin MAX_STATES
  hlen : Nat
  id : Byte
  ip : Hdr
  deriving DecidableEq, Repr

structure SlCompress where
  lastCs : Fin MAX_STATES
  lastRecv : Byte
  lastXmit : Byte
  toss : Bool
  tstate : Fin MAX_STATES → CState
  rstate : Fin MAX_STATES → CState

def slCompressInit : SlCompress where
  lastCs := 0
  lastRecv := 255
  lastXmit := 255
  toss := true
  tstate i := ⟨if i = 0 then 15 else i - 1, 0, BitVec.ofNat 8 i, .zero⟩
  rstate _ := ⟨0, 0, 0, .zero⟩

/-- `ENCODE`, and `ENCODEZ` below, on the low 16 bits of the number. -/
def encode (n : BitVec 16) : List Byte := if n.toNat ≥ 256 then [0, hi n, lo n] else [lo n]

def encodez (n : BitVec 16) : List Byte :=
  if n.toNat ≥ 256 ∨ n = 0 then [0, hi n, lo n] else [lo n]

/-- What goes out: the packet as it is, with the connection in its protocol field, or
the bytes of a compressed one. -/
inductive Frame where
  | ip (m : Packet)
  | uncompressed (m : Packet)
  | compressed (bytes : List Byte)
  deriving DecidableEq, Repr

section Compress

variable (old ip : Hdr)

def deltaWin : BitVec 16 := ntohs ip.win - ntohs old.win
def deltaAck : BitVec 32 := ntohl ip.ack - ntohl old.ack
def deltaSeq : BitVec 32 := ntohl ip.seq - ntohl old.seq
def deltaId : BitVec 32 := (ntohs ip.id).setWidth 32 - (ntohs old.id).setWidth 32

def urgent : Bool := ip.flags &&& TH_URG ≠ 0

/-- None of the tests that send the packet uncompressed before `switch (changes)`. -/
def expected : Bool :=
  ip.vhl = old.vhl ∧ ip.tos = old.tos ∧ ip.off = old.off ∧ ip.ttl = old.ttl ∧ ip.p = old.p ∧
    ip.thOff = old.thOff ∧ ¬ (ip.hl > 5 ∧ ip.opts ≠ old.opts) ∧
    ¬ (ip.thOff > 5 ∧ ip.thopts ≠ old.thopts) ∧ (urgent ip ∨ ip.urp = old.urp) ∧
    deltaAck old ip ≤ 0xffff ∧ deltaSeq old ip ≤ 0xffff

def changes : Byte :=
  (if urgent ip then NEW_U else 0) ||| (if deltaWin old ip ≠ 0 then NEW_W else 0) |||
    (if deltaAck old ip ≠ 0 then NEW_A else 0) ||| (if deltaSeq old ip ≠ 0 then NEW_S else 0)

def newSeq : List Byte :=
  (if urgent ip then encodez (ntohs ip.urp) else []) ++
    (if deltaWin old ip ≠ 0 then encode (deltaWin old ip) else []) ++
    (if deltaAck old ip ≠ 0 then encode ((deltaAck old ip).setWidth 16) else []) ++
    (if deltaSeq old ip ≠ 0 then encode ((deltaSeq old ip).setWidth 16) else [])

/-- `ntohs(cs->cs_ip.ip_len) - hlen`: the data of the last packet. -/
def lastData : BitVec 32 := (ntohs old.len).setWidth 32 - BitVec.ofNat 32 ip.hlen

/-- `switch (changes)`: the bits and the numbers to send; `none` is `uncompressed`. -/
def special : Option (Byte × List Byte) :=
  if changes old ip = 0 then
    if ip.len ≠ old.len ∧ (ntohs old.len).toNat = ip.hlen then some (0, newSeq old ip) else none
  else if changes old ip = SPECIAL_I ∨ changes old ip = SPECIAL_D then none
  else if changes old ip = NEW_S ||| NEW_A then
    if deltaSeq old ip = deltaAck old ip ∧ deltaSeq old ip = lastData old ip then
      some (SPECIAL_I, [])
    else some (changes old ip, newSeq old ip)
  else if changes old ip = NEW_S then
    if deltaSeq old ip = lastData old ip then some (SPECIAL_D, [])
    else some (changes old ip, newSeq old ip)
  else some (changes old ip, newSeq old ip)

/-- The change mask, less `NEW_C`, and `new_seq`, for a packet sent compressed. -/
def encoding : Option (Byte × List Byte) :=
  if expected old ip = true then
    (special old ip).map fun s =>
      (s.1 ||| (if deltaId old ip ≠ 1 then NEW_I else 0) |||
          (if ip.flags &&& TH_PUSH ≠ 0 then TCP_PUSH_BIT else 0),
        s.2 ++ if deltaId old ip ≠ 1 then encodez ((deltaId old ip).setWidth 16) else [])
  else none

def sameConnection (cs : CState) : Bool :=
  ip.src = cs.ip.src ∧ ip.dst = cs.ip.dst ∧ ip.ports = cs.ip.ports

end Compress

/-- The connection state of the packet, moved to the front of the list, or the oldest
one, to be used again: the new list, the state, and whether it was found. -/
def SlCompress.locate (comp : SlCompress) (ip : Hdr) :
    Option (SlCompress × Fin MAX_STATES × Bool) :=
  let cs := (comp.tstate comp.lastCs).next
  if sameConnection ip (comp.tstate cs) = true then some (comp, cs, true)
  else
    let next i := (comp.tstate i).next
    match walk next (fun i => sameConnection ip (comp.tstate i)) comp.lastCs MAX_STATES cs with
    | none => none
    | some (.missed lcs) => some ({ comp with lastCs := lcs }, comp.lastCs, false)
    | some (.found lcs cs) =>
      if cs = comp.lastCs then some ({ comp with lastCs := lcs }, cs, true)
      else
        let tstate i := { comp.tstate i with next := relink next comp.lastCs lcs cs i }
        some ({ comp with tstate := tstate }, cs, true)

def SlCompress.store (comp : SlCompress) (cs : Fin MAX_STATES) (ip : Hdr) : Option SlCompress :=
  if ip.hlen > MAX_HDR then none
  else some { comp with tstate := Function.update comp.tstate cs { comp.tstate cs with ip := ip } }

def slCompressTcp (comp : SlCompress) (mlen : Nat) (m : Packet) (compressCid : Bool) :
    Option (SlCompress × Frame) :=
  if m.ip.off &&& htons 0x3fff ≠ 0 ∨ mlen < 40 then some (comp, .ip m)
  else if m.ip.flags &&& (TH_SYN ||| TH_FIN ||| TH_RST ||| TH_ACK) ≠ TH_ACK then some (comp, .ip m)
  else
    match comp.locate m.ip with
    | none => none
    | some (comp, cs, found) =>
      if m.ip.hlen > mlen then some (comp, .ip m)
      else
        let id := (comp.tstate cs).id
        match if found then encoding (comp.tstate cs).ip m.ip else none with
        | none =>
          (comp.store cs m.ip).map fun comp =>
            ({ comp with lastXmit := id }, .uncompressed { m with ip := { m.ip with p := id } })
        | some (changes, seq) =>
          (comp.store cs m.ip).map fun comp =>
            if compressCid = false ∨ comp.lastXmit ≠ id then
              ({ comp with lastXmit := id }, .compressed
                ((changes ||| NEW_C) :: id :: hi (ntohs m.ip.thsum) :: lo (ntohs m.ip.thsum) ::
                  (seq ++ m.data)))
            else
              (comp, .compressed
                (changes :: hi (ntohs m.ip.thsum) :: lo (ntohs m.ip.thsum) :: (seq ++ m.data)))

section Uncompress

variable (bytes : List Byte)

/-- `cp[i]`; what lies behind the packet is never used. -/
def byte (i : Nat) : Byte := bytes.getD i 0

/-- The number at `cp` in either form, and `cp` behind it. -/
def decode (cp : Nat) : BitVec 16 × Nat :=
  if byte bytes cp = 0 then (byte bytes (cp + 1) ++ byte bytes (cp + 2), cp + 3)
  else ((byte bytes cp).setWidth 16, cp + 1)

def decodeu (cp : Nat) (h : Hdr) : Hdr × Nat :=
  ({ h with urp := htons (decode bytes cp).1 }, (decode bytes cp).2)

def decodeWin (cp : Nat) (h : Hdr) : Hdr × Nat :=
  ({ h with win := htons (ntohs h.win + (decode bytes cp).1) }, (decode bytes cp).2)

def decodeAck (cp : Nat) (h : Hdr) : Hdr × Nat :=
  ({ h with ack := htonl (ntohl h.ack + (decode bytes cp).1.setWidth 32) }, (decode bytes cp).2)

def decodeSeq (cp : Nat) (h : Hdr) : Hdr × Nat :=
  ({ h with seq := htonl (ntohl h.seq + (decode bytes cp).1.setWidth 32) }, (decode bytes cp).2)

def decodeId (cp : Nat) (h : Hdr) : Hdr × Nat :=
  ({ h with id := htons (ntohs h.id + (decode bytes cp).1) }, (decode bytes cp).2)

def optional (set : Bool) (read : Nat → Hdr → Hdr × Nat) (s : Hdr × Nat) : Hdr × Nat :=
  if set = true then read s.2 s.1 else s

def decodeChanges (changes : Byte) (hlen : Nat) (s : Hdr × Nat) : Hdr × Nat :=
  let h := s.1
  let data := (ntohs h.len).setWidth 32 - BitVec.ofNat 32 hlen
  if changes &&& SPECIALS_MASK = SPECIAL_I then
    ({ h with ack := htonl (ntohl h.ack + data), seq := htonl (ntohl h.seq + data) }, s.2)
  else if changes &&& SPECIALS_MASK = SPECIAL_D then
    ({ h with seq := htonl (ntohl h.seq + data) }, s.2)
  else
    let s := if changes &&& NEW_U ≠ 0 then decodeu bytes s.2 { h with flags := h.flags ||| TH_URG }
      else ({ h with flags := h.flags &&& ~~~ TH_URG }, s.2)
    optional (changes &&& NEW_S ≠ 0) (decodeSeq bytes)
      (optional (changes &&& NEW_A ≠ 0) (decodeAck bytes)
        (optional (changes &&& NEW_W ≠ 0) (decodeWin bytes) s))

/-- The saved header brought up to date from the bytes at `cp`, and `cp` behind them. -/
def decodeHeader (changes : Byte) (hlen cp : Nat) (h : Hdr) : Hdr × Nat :=
  let h := { h with thsum := htons (byte bytes cp ++ byte bytes (cp + 1)) }
  let h := { h with flags := if changes &&& TCP_PUSH_BIT ≠ 0 then h.flags ||| TH_PUSH
                             else h.flags &&& ~~~ TH_PUSH }
  let s := decodeChanges bytes changes hlen (h, cp + 2)
  if changes &&& NEW_I ≠ 0 then decodeId bytes s.2 s.1
  else ({ s.1 with id := htons (ntohs s.1.id + 1) }, s.2)

end Uncompress

def Hdr.words (h : Hdr) : List (BitVec 16) :=
  [h.tos ++ h.vhl, h.len, h.id, h.off, h.p ++ h.ttl, h.sum, h.src.extractLsb' 0 16,
    h.src.extractLsb' 16 16, h.dst.extractLsb' 0 16, h.dst.extractLsb' 16 16] ++ pairs h.opts
where
  pairs : List Byte → List (BitVec 16)
    | a :: b :: rest => (b ++ a) :: pairs rest
    | _ => []

def cksum (h : Hdr) : BitVec 16 :=
  let fold (x : Nat) : Nat := x % 2 ^ 16 + x / 2 ^ 16
  ~~~ BitVec.ofNat 16 (fold (fold (h.words.map BitVec.toNat).sum))

def SlCompress.bad (comp : SlCompress) : SlCompress × Option Packet :=
  ({ comp with toss := true }, none)

/-- The rest of `sl_uncompress_tcp` once the state of a compressed packet is known. -/
def SlCompress.rebuild (comp : SlCompress) (cs : Fin MAX_STATES) (changes : Byte) (cp : Nat)
    (bytes : List Byte) : SlCompress × Option Packet :=
  let hlen := (comp.rstate cs).hlen
  let s := decodeHeader bytes changes hlen cp (comp.rstate cs).ip
  let save (h : Hdr) : SlCompress :=
    { comp with rstate := Function.update comp.rstate cs { comp.rstate cs with ip := h } }
  if bytes.length < s.2 then (save s.1).bad
  else
    let h := { s.1 with len := htons (BitVec.ofNat 16 (bytes.length - s.2 + hlen)) }
    (save h, some ⟨{ h with sum := cksum h }, bytes.drop s.2⟩)

/-- `sl_uncompress_tcp` on a packet of type `TYPE_UNCOMPRESSED_TCP` or
`TYPE_COMPRESSED_TCP`; no packet is a return value of 0. -/
def slUncompressTcp (comp : SlCompress) (frame : Frame) : Option (SlCompress × Option Packet) :=
  match frame with
  | .ip _ => some comp.bad
  | .uncompressed m =>
    if known : m.ip.p.toNat < MAX_STATES then
      let ip := { m.ip with p := IPPROTO_TCP }
      if ip.hlen > MAX_HDR then none
      else
        let cs := { comp.rstate ⟨_, known⟩ with ip := { ip with sum := 0 }, hlen := ip.hlen }
        some ({ comp with lastRecv := m.ip.p, toss := false,
                          rstate := Function.update comp.rstate ⟨_, known⟩ cs },
                          some { m with ip := ip })
    else some comp.bad
  | .compressed bytes =>
    let changes := byte bytes 0
    if changes &&& NEW_C ≠ 0 then
      if known : (byte bytes 1).toNat < MAX_STATES then
        some (({ comp with toss := false, lastRecv := byte bytes 1 }).rebuild ⟨_,
          known⟩ changes 2 bytes)
      else some comp.bad
    else if comp.toss = true then some (comp, none)
    else if known : comp.lastRecv.toNat < MAX_STATES then
      some (comp.rebuild ⟨_, known⟩ changes 1 bytes)
    else none

end FreeBsd.Net.Slcompress
