import FreeBsd.Lib.Trace
import FreeBsd.Lib.Word
import FreeBsd.Rpc.XdrRec

/-! Decoding from memory: `librpc/rpc/xdr_mem.c`, with `xdr_opaque` and `xdr_bytes` of `xdr.c` and
`xdr_array` of `xdr_array.c`. A long has four bytes, as an int. -/
namespace FreeBsd.Rpc.Xdrmem

open FreeBsd.Lib

/-- Where a filter stores: in memory of the caller's, or at an offset in a block of so many bytes
that has been allocated. -/
structure Target where
  block : Option Nat
  offset : Nat
  deriving DecidableEq

def Target.add (t : Target) (n : Nat) : Target := { t with offset := t.offset + n }

/-- The stream, what `mem_alloc` answers to each call, and what has been read and stored so far: an
offset from `x_base` and a length, and the size of a block, an offset in it and a length. -/
structure XDR where
  data : Nat → Byte
  /-- From `x_base`. -/
  x_private : Nat
  x_handy : Int
  memory : Nat → Bool
  allocs : Nat
  reads : List (Nat × Nat)
  stores : List (Nat × Nat × Nat)

def xdrmem_create (data : Nat → Byte) (size : Nat) (memory : Nat → Bool) :
    XDR := ⟨data, 0, wrap32 size, memory, 0, [], []⟩

namespace XDR

variable (s : XDR)

def store (t : Target) (len : Nat) : XDR :=
  match t.block with
  | none => s
  | some size => { s with stores := (size, t.offset, len) :: s.stores }

/-- The bytes from `x_private` on are read, and `x_private` moves past them. -/
def advance (len : Nat) :
    XDR := { s with x_private := s.x_private + len, reads := (s.x_private, len) :: s.reads }

def long : Nat := ntohl ((List.range 4).map fun i => s.data (s.x_private + i))

/-- `xdrs->x_handy -= len`, with the unsigned difference stored in an int. -/
def less (len : Nat) : XDR := { s with x_handy := wrap32 (s.x_handy - len) }

def xdrmem_getlong (lp : Target) : XDR × Option Nat :=
  if (s.less 4).x_handy < 0 then (s.less 4, none) else (((s.less 4).advance 4).store lp 4,
    some s.long)

def xdrmem_getbytes (addr : Target) (len : Nat) : XDR × Bool :=
  if (s.less len).x_handy < 0 then (s.less len, false)
  else (((s.less len).advance len).store addr len, true)

def xdrmem_inline (len : Nat) : XDR × Bool :=
  if s.x_handy ≥ len then ({ s with x_handy := s.x_handy - len }.advance len, true) else (s, false)

def xdr_opaque (cp : Target) (cnt : Nat) : XDR × Bool :=
  if cnt = 0 then (s, true)
  else
    let rndup :=
      if cnt % BYTES_PER_XDR_UNIT > 0 then BYTES_PER_XDR_UNIT - cnt % BYTES_PER_XDR_UNIT else 0
    match s.xdrmem_getbytes cp cnt with
    | (s, false) => (s, false)
    | (s, true) => if rndup = 0 then (s, true) else s.xdrmem_getbytes ⟨none, 0⟩ rndup

/-- `*cpp = mem_alloc(nodesize)`, where there is no memory yet; `none` is out of memory. -/
def mem_alloc (null : Bool) (cpp : Target) (nodesize : Nat) : XDR × Option Target :=
  if null then
    ({ s with allocs := s.allocs + 1 }.store cpp 4, if s.memory s.allocs then some ⟨some nodesize,
      0⟩ else none)
  else (s, some ⟨none, 0⟩)

/-- `sizep` is at `t`, and `cpp` behind it, which is `NULL` or a buffer of the caller's. -/
def xdr_bytes (t : Target) (null : Bool) (maxsize : Nat) : XDR × Bool :=
  match s.xdrmem_getlong t with
  | (s, none) => (s, false)
  | (s, some nodesize) =>
    if nodesize > maxsize then (s, false)
    else if nodesize = 0 then (s, true)
    else
      match s.mem_alloc null (t.add 4) nodesize with
      | (s, none) => (s, false)
      | (s, some sp) => s.xdr_opaque sp nodesize

/-- The loop of `xdr_array`, with `c` elements to come. -/
def elements (elproc : XDR → Target → XDR × Bool) (elsize : Nat) :
    (c : Nat) → XDR → Target → XDR × Bool
  | 0, s, _ => (s, true)
  | c + 1, s, target =>
    match elproc s target with
    | (s, false) => (s, false)
    | (s, true) => elements elproc elsize c s (target.add elsize)

def xdr_array (t : Target) (null : Bool) (maxsize elsize : Nat)
    (elproc : XDR → Target → XDR × Bool) : XDR × Bool :=
  match s.xdrmem_getlong t with
  | (s, none) => (s, false)
  | (s, some c) =>
    if c > maxsize then (s, false)
    else if null ∧ c = 0 then (s, true)
    else
      let nodesize := c * elsize % 2 ^ 32
      match s.mem_alloc null (t.add 4) nodesize with
      | (s, none) => (s, false)
      | (s, some target) => elements elproc elsize c (if null then s.store target nodesize else s)
        target

end XDR

/-- What a program decodes: filters, and structures made of them, whose second half is `offset`
bytes behind the first. -/
inductive Filter where
  | getlong
  | inline (len : Nat)
  | fixed (cnt : BitVec 32)
  | bytes (null : Bool) (maxsize : BitVec 32)
  | array (null : Bool) (maxsize elsize : BitVec 32) (elproc : Filter)
  | both (offset : Nat) (first second : Filter)

open XDR

def Filter.decode : Filter → XDR → Target → XDR × Bool
  | getlong, s, t => ((s.xdrmem_getlong t).1, (s.xdrmem_getlong t).2.isSome)
  | inline len, s, _ => s.xdrmem_inline len
  | fixed cnt, s, t => s.xdr_opaque t cnt.toNat
  | bytes null maxsize, s, t => s.xdr_bytes t null maxsize.toNat
  | array null maxsize elsize elproc, s, t => s.xdr_array t null maxsize.toNat elsize.toNat
    elproc.decode
  | both offset first second, s, t =>
    match first.decode s t with
    | (s, false) => (s, false)
    | (s, true) => second.decode s (t.add offset)

def Filter.size : Filter → Nat
  | getlong => 4
  | inline _ => 0
  | fixed cnt => cnt.toNat
  | bytes .. => 8
  | array .. => 8
  | both offset first second => max first.size (offset + second.size)

def Filter.Sized : Filter → Prop
  | array _ _ elsize elproc => elproc.size ≤ elsize.toNat ∧ elproc.Sized
  | both _ first second => first.Sized ∧ second.Sized
  | _ => True

/-- One operation of the program's after another, whatever became of those before. -/
def Step (s : XDR) (filter : Filter) (t : XDR) :
    Prop := filter.Sized ∧ t = (filter.decode s ⟨none, 0⟩).1

end FreeBsd.Rpc.Xdrmem
