import Mathlib.Data.BitVec
import Mathlib.Logic.Function.Basic

/-! `usr.bin/compress/compress.c`, with `BITS` 16. A `long` has 32 bits; -1 for a character or a
code is `none`; the loops that need not end have fuel. -/
namespace FreeBsd.Compress

abbrev Byte := BitVec 8

section Codes

def BITS : Nat := 16
def BLOCK_MASK : Byte := 0x80
def INIT_BITS : Nat := 9
def FIRST : Nat := 257
def CLEAR : Nat := 256

def MAXCODE (n_bits : Nat) : Nat := 2 ^ n_bits - 1

structure Args where
  maxbits : Nat
  block_compress : Bool

variable (a : Args)

def Args.maxmaxcode : Nat := 2 ^ a.maxbits

def Args.first : Nat := if a.block_compress then FIRST else 256

structure Width where
  n_bits : Nat
  maxcode : Nat
  deriving DecidableEq

def Width.init : Width := ⟨INIT_BITS, MAXCODE INIT_BITS⟩

def Width.grow (w : Width) : Width :=
  ⟨w.n_bits + 1, if w.n_bits + 1 = a.maxbits then a.maxmaxcode else MAXCODE (w.n_bits + 1)⟩

def lmask (i : Nat) : Byte := [0xff, 0xfe, 0xfc, 0xf8, 0xf0, 0xe0, 0xc0, 0x80, 0x00].getD i 0

def rmask (i : Nat) : Byte := [0x00, 0x01, 0x03, 0x07, 0x0f, 0x1f, 0x3f, 0x7f, 0xff].getD i 0

/-- The part of `output` that puts a code into the buffer. -/
def insert (buf : Nat → Byte) (offset n_bits code : Nat) : Nat → Byte :=
  let bp := offset / 8
  let r_off := offset % 8
  let buf :=
    Function.update buf bp ((buf bp &&& rmask r_off) ||| (BitVec.ofNat 8 (code <<< r_off) &&&
    lmask r_off))
  let bits := n_bits - (8 - r_off)
  let code := code >>> (8 - r_off)
  if bits ≥ 8 then
    let buf := Function.update buf (bp + 1) (BitVec.ofNat 8 code)
    if bits - 8 ≠ 0 then Function.update buf (bp + 2) (BitVec.ofNat 8 (code >>> 8)) else buf
  else if bits ≠ 0 then Function.update buf (bp + 1) (BitVec.ofNat 8 code) else buf

/-- The part of `getcode` that takes a code from the buffer. -/
def extract (buf : Nat → Byte) (offset n_bits : Nat) : Nat :=
  let bp := offset / 8
  let r_off := offset % 8
  let code := (buf bp).toNat >>> r_off
  let bits := n_bits - (8 - r_off)
  let r_off := 8 - r_off
  if bits ≥ 8 then
    let code := code ||| (buf (bp + 1)).toNat <<< r_off
    code ||| (buf (bp + 2) &&& rmask (bits - 8)).toNat <<< (r_off + 8)
  else code ||| (buf (bp + 1) &&& rmask bits).toNat <<< r_off

end Codes

section Compress

def HSIZE : Nat := 69001
def CHECK_GAP : Int := 10000

def long (x : Int) : Int := x.bmod (2 ^ 32)

def hsizeOf (fsize : Nat) : Nat :=
  if fsize < 2 ^ 12 then min 5003 HSIZE
  else if fsize < 2 ^ 13 then min 9001 HSIZE
  else if fsize < 2 ^ 14 then min 18013 HSIZE
  else if fsize < 2 ^ 15 then min 35023 HSIZE
  else if fsize < 47000 then min 50021 HSIZE
  else HSIZE

def doublings : Nat → Nat → Nat
  | 0, _ => 0
  | fuel + 1, fcode => if fcode < 65536 then doublings fuel (fcode * 2) + 1 else 0

def hshift (hsize : Nat) : Nat := 8 - doublings 17 hsize

/-- What compress() works on; some of it stays as it is from one file to the next. -/
structure Comp where
  width : Width
  free_ent : Nat
  clear_flg : Bool
  offset : Nat
  buf : Nat → Byte
  htab : Nat → Int
  codetab : Nat → BitVec 16
  hsize : Nat
  in_count : Int
  bytes_out : Int
  ratio : Int
  checkpoint : Int
  stdout : List Byte

namespace Comp

variable (fuel : Nat) (a : Args) (s : Comp)

def flush : Comp :=
  { s with
    stdout := s.stdout ++ (List.range s.width.n_bits).map s.buf, bytes_out :=
      long (s.bytes_out + s.width.n_bits), offset := 0 }

def output : Option Nat → Comp
  | some code =>
    let s := { s with buf := insert s.buf s.offset s.width.n_bits code,
                      offset := s.offset + s.width.n_bits }
    let s := if s.offset = s.width.n_bits * 8 then s.flush else s
    if s.free_ent > s.width.maxcode ∨ s.clear_flg then
      let s := if s.offset > 0 then s.flush else s
      if s.clear_flg then { s with width := .init,
                                   clear_flg := false } else { s with width := s.width.grow a }
    else s
  | none =>
    let n := (s.offset + 7) / 8
    if s.offset > 0 then
      { s with stdout := s.stdout ++ (List.range n).map s.buf, bytes_out := long (s.bytes_out + n),
               offset := 0 }
    else s

def cl_hash : Comp := { s with htab := fun j => if j < s.hsize then -1 else s.htab j }

def cl_block : Option Comp :=
  let s := { s with checkpoint := long (s.in_count + CHECK_GAP) }
  let rat : Option Int :=
    if s.in_count > 0x007fffff then
      let rat := s.bytes_out / 256
      if rat = 0 then some 0x7fffffff else some (s.in_count.tdiv rat)
    else if s.bytes_out = 0 then none
    else some ((long (s.in_count * 256)).tdiv s.bytes_out)
  rat.map fun rat =>
    if rat > s.ratio then { s with ratio := rat }
    else { { s with ratio := 0 }.cl_hash with free_ent := FIRST, clear_flg := true }.output a
      (some CLEAR)

/-- The loop at `probe:`, which goes on where a slot is in use, and the slot where it ends. -/
def probe (fcode disp : Int) : Nat → Int → Option Nat
  | 0, _ => none
  | fuel + 1, i =>
    let i := if i - disp < 0 then i - disp + s.hsize else i - disp
    if s.htab i.toNat = fcode then some i.toNat else
      if s.htab i.toNat > 0 then probe fcode disp fuel i else some i.toNat

def search (fcode : Int) (i : Nat) : Option Nat :=
  if s.htab i = fcode ∨ s.htab i < 0 then some i
  else s.probe fcode (if i = 0 then 1 else s.hsize - i) fuel i

def index (ent : Nat) (c : Byte) : Nat := c.toNat <<< hshift s.hsize ^^^ ent

def fcode (ent : Nat) (c : Byte) : Int := ((c.toNat <<< a.maxbits + ent : Nat) : Int)

/-- A pass of the loop of compress(), with the next `ent`. -/
def pass (ent : Nat) (c : Byte) : Option (Comp × Nat) :=
  let s := { s with in_count := long (s.in_count + 1) }
  match s.search fuel (fcode a ent c) (s.index ent c) with
  | none => none
  | some i =>
    if s.htab i = fcode a ent c then some (s, (s.codetab i).toNat)
    else
      let s := s.output a (some ent)
      if s.free_ent < a.maxmaxcode then
        some ({ s with
          codetab := Function.update s.codetab i (BitVec.ofNat 16 s.free_ent), htab :=
            Function.update s.htab i (fcode a ent c),
          free_ent := s.free_ent + 1 }, c.toNat)
      else if s.in_count ≥ s.checkpoint ∧ a.block_compress then (s.cl_block a).map fun s =>
        (s, c.toNat)
      else some (s, c.toNat)

def start : Comp :=
  { s with
    stdout := [0x1f, 0x9d, BitVec.ofNat 8 a.maxbits ||| if a.block_compress then BLOCK_MASK else 0]
    offset := 0, bytes_out := 3, clear_flg := false, ratio := 0, in_count := 1, checkpoint :=
      CHECK_GAP
    width := .init, free_ent := a.first }.cl_hash

end Comp

def zeroed :
    Comp := ⟨⟨0, 0⟩, 0, false, 0, fun _ => 0, fun _ => 0, fun _ => 0, HSIZE, 1, 0, 0, CHECK_GAP, []⟩

end Compress

section Decompress

/-- What decompress() works on; the buffer of getcode() and the tables stay from one file to the
next. -/
structure Decomp where
  width : Width
  free_ent : Nat
  clear_flg : Bool
  offset : Nat
  size : Nat
  buf : Nat → Byte
  tab_prefix : Nat → BitVec 16
  tab_suffix : Nat → Byte
  stdin : List Byte

namespace Decomp

variable (fuel : Nat) (a : Args) (d : Decomp)

/-- The buffer is filled, or there is no more. A size below zero is as good as zero. -/
def refill : Decomp × Bool :=
  let d := if d.free_ent > d.width.maxcode then { d with width := d.width.grow a } else d
  let d := if d.clear_flg then { d with width := .init, clear_flg := false } else d
  let got := d.stdin.take d.width.n_bits
  let d := { d with buf := fun i => got.getD i (d.buf i), stdin := d.stdin.drop d.width.n_bits,
                    size := got.length }
  if got = [] then (d, false) else ({ d with offset := 0,
                                             size := got.length * 8 - (d.width.n_bits - 1) }, true)

def getcode : Decomp × Option Nat :=
  match if d.clear_flg ∨ d.offset ≥ d.size ∨ d.free_ent > d.width.maxcode then d.refill a else (d,
    true) with
  | (d, false) => (d, none)
  | (d, true) => ({ d with offset := d.offset + d.width.n_bits },
    some (extract d.buf d.offset d.width.n_bits))

/-- The characters of a code, the last ones first, go onto the stack; with `finchar`. -/
def unwind : Nat → Nat → List Byte → Option (Byte × List Byte)
  | 0, _, _ => none
  | fuel + 1, code, stack =>
    if code ≥ 256 then unwind fuel (d.tab_prefix code).toNat (d.tab_suffix code :: stack)
    else some (d.tab_suffix code, d.tab_suffix code :: stack)

/-- A pass of the loop of decompress() after the code has been read: what it writes, and `finchar`.
-/
def expand (oldcode : Nat) (finchar : Byte) (code : Nat) : Option (Decomp × Byte × List Byte) :=
  let special := code ≥ d.free_ent
  (d.unwind fuel (if special then oldcode else code) (if special then [finchar] else [])).map
    fun (finchar, stack) =>
    (if d.free_ent < a.maxmaxcode then
      { d with
        tab_prefix := Function.update d.tab_prefix d.free_ent (BitVec.ofNat 16 oldcode)
        tab_suffix := Function.update d.tab_suffix d.free_ent finchar, free_ent := d.free_ent + 1 }
    else d, finchar, stack)

def plain :
    Decomp := { d with tab_prefix := fun code => if code < 256 then 0 else d.tab_prefix code }

def loop : Nat → Decomp → Nat → Byte → Option (Decomp × List Byte)
  | 0, _, _, _ => none
  | passes + 1, d, oldcode, finchar =>
    match d.getcode a with
    | (d, none) => some (d, [])
    | (d, some code) =>
      match if code = CLEAR ∧ a.block_compress then { d.plain with clear_flg := true,
                                                                   free_ent := FIRST - 1 }.getcode a
        else (d, some code) with
      | (d, none) => some (d, [])
      | (d, some code) =>
        (d.expand fuel a oldcode finchar code).bind fun (d, finchar, stack) =>
          (loop passes d code finchar).map fun (d, rest) => (d, stack ++ rest)

def decompress : Option (Decomp × List Byte) :=
  let d := { d.plain with
    width := .init, free_ent := a.first
    tab_suffix := fun code => if code < 256 then BitVec.ofNat 8 code else d.tab_suffix code }
  match d.getcode a with
  | (d, none) => some (d, [])
  | (d, some code) => (loop fuel a fuel d code (BitVec.ofNat 8 code)).map fun (d, rest) =>
    (d, BitVec.ofNat 8 code :: rest)

end Decomp

def idle : Decomp := ⟨⟨0, 0⟩, 0, false, 0, 0, fun _ => 0, fun _ => 0, fun _ => 0, []⟩

end Decompress

end FreeBsd.Compress
