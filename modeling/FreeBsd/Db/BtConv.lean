import FreeBsd.Lib.Reversal
import Mathlib.Tactic.Ring

/-! Byte order conversion of B-tree pages, in the memory from the beginning of the page on. -/
namespace FreeBsd.Db.BtConv

open FreeBsd.Lib

section Model

structure Conv where
  mem : Nat → UInt8
  swapped : List Place

def Conv.blswap (s : Conv) (p : Nat) : Conv where
  mem := Function.update (Function.update (Function.update (Function.update s.mem
    p (s.mem (p + 3))) (p + 1) (s.mem (p + 2))) (p + 2) (s.mem (p + 1))) (p + 3) (s.mem p)
  swapped := s.swapped ++ [⟨p, 4⟩]

def Conv.bsswap (s : Conv) (p : Nat) : Conv where
  mem := Function.update (Function.update s.mem p (s.mem (p + 1))) (p + 1) (s.mem p)
  swapped := s.swapped ++ [⟨p, 2⟩]

def short (m : Nat → UInt8) (p : Nat) : Nat := (m p).toNat + 256 * (m (p + 1)).toNat

def long (m : Nat → UInt8) (p : Nat) : Nat := short m p + 65536 * short m (p + 2)

def pMeta : Nat := 0
def pBinternal : UInt8 := 0x01
def pBleaf : UInt8 := 0x02
def pOverflow : UInt8 := 0x04
def pType : UInt8 := 0x1f
def pBigdata : UInt8 := 0x01
def pBigkey : UInt8 := 0x02
def btdataoff : Nat := 20

def lower (m : Nat → UInt8) : Nat := short m 16
def upper (m : Nat → UInt8) : Nat := short m 18

def type (m : Nat → UInt8) : UInt8 := m 12 &&& pType

def nextindex (m : Nat → UInt8) : Nat := (lower m + 2 ^ 32 - btdataoff) % 2 ^ 32 / 2

def linp (i : Nat) : Nat := btdataoff + 2 * i

def binternal (s : Conv) (p : Nat) : Conv :=
  let s := (s.blswap p).blswap (p + 4)
  if s.mem (p + 8) &&& pBigkey ≠ 0 then (s.blswap (p + 9)).blswap (p + 9 + 4) else s

def bleaf (s : Conv) (p : Nat) : Conv :=
  let s := (s.blswap p).blswap (p + 4)
  let flags := s.mem (p + 8)
  if flags &&& (pBigkey ||| pBigdata) ≠ 0 then
    let p := p + 9
    let (s, p) := if flags &&& pBigkey ≠ 0 then ((s.blswap p).blswap (p + 4), p + 4) else (s, p)
    if flags &&& pBigdata ≠ 0 then (s.blswap (p + 4)).blswap (p + 4 + 4) else s
  else s

def pginItems (item : Conv → Nat → Conv) : Nat → Nat → Conv → Conv
  | 0, _, s => s
  | n + 1, i, s =>
    let s := s.bsswap (linp i)
    pginItems item n (i + 1) (item s (short s.mem (linp i)))

def pgoutItems (item : Conv → Nat → Conv) : Nat → Nat → Conv → Conv
  | 0, _, s => s
  | n + 1, i, s => pgoutItems item n (i + 1) ((item s (short s.mem (linp i))).bsswap (linp i))

def header (s : Conv) : Conv :=
  (((((s.blswap 0).blswap 4).blswap 8).blswap 12).bsswap 16).bsswap 18

def mswap (s : Conv) : Conv :=
  (((((s.blswap 0).blswap 4).blswap 8).blswap 12).blswap 16).blswap 20

def btPgin (needswap : Bool) (pg : Nat) (m : Nat → UInt8) : Conv :=
  if !needswap then ⟨m, []⟩
  else if pg = pMeta then mswap ⟨m, []⟩
  else
    let s := header ⟨m, []⟩
    let top := nextindex s.mem
    if type s.mem = pBinternal then pginItems binternal top 0 s
    else if type s.mem = pBleaf then pginItems bleaf top 0 s
    else s

def btPgout (needswap : Bool) (pg : Nat) (m : Nat → UInt8) : Conv :=
  if !needswap then ⟨m, []⟩
  else if pg = pMeta then mswap ⟨m, []⟩
  else
    let top := nextindex m
    if type m = pBinternal then header (pgoutItems binternal top 0 ⟨m, []⟩)
    else if type m = pBleaf then header (pgoutItems bleaf top 0 ⟨m, []⟩)
    else header ⟨m, []⟩

end Model

section Layout

def lalign (n : Nat) : Nat := (n + 3) / 4 * 4

/-- The size of the item at `p`: NBINTERNAL or NBLEAF. -/
def itemSize (leaf : Bool) (m : Nat → UInt8) (p : Nat) : Nat :=
  if leaf then lalign (9 + long m p + long m (p + 4)) else lalign (9 + long m p)

/-- The numbers of the item at `p`: sizes or a size and a page number, and the references in place
of a key or of data that are on overflow pages. -/
def itemFields (leaf : Bool) (m : Nat → UInt8) (p : Nat) : List Place :=
  [⟨p, 4⟩, ⟨p + 4, 4⟩] ++
    (if m (p + 8) &&& pBigkey ≠ 0 then [⟨p + 9, 4⟩, ⟨p + 9 + 4, 4⟩] else []) ++
    (if leaf ∧ m (p + 8) &&& pBigdata ≠ 0 then [⟨p + 9 + long m p, 4⟩, ⟨p + 9 + long m p + 4,
      4⟩] else [])

def headerFields : List Place := [⟨0, 4⟩, ⟨4, 4⟩, ⟨8, 4⟩, ⟨12, 4⟩, ⟨16, 2⟩, ⟨18, 2⟩]

/-- The magic number, the version, the page size, the free list, the number of records and the
flags. -/
def metaFields : List Place := [⟨0, 4⟩, ⟨4, 4⟩, ⟨8, 4⟩, ⟨12, 4⟩, ⟨16, 4⟩, ⟨20, 4⟩]

def hasItems (m : Nat → UInt8) : Prop := type m = pBinternal ∨ type m = pBleaf

instance (m : Nat → UInt8) : Decidable (hasItems m) := inferInstanceAs (Decidable (_ ∨ _))

def slotFields (m : Nat → UInt8) (i : Nat) : List Place :=
  itemFields (type m = pBleaf) m (short m (linp i)) ++ [⟨linp i, 2⟩]

def fields (m : Nat → UInt8) (pg : Nat) : List Place :=
  if pg = pMeta then metaFields
  else (if hasItems m then (List.range (nextindex m)).flatMap (slotFields m) else []) ++
    headerFields

/-- The items of a page: each lies behind `upper` and none over another; what is on overflow pages
has a reference in its place. -/
structure Items (m : Nat → UInt8) (psize : Nat) : Prop where
  least : btdataoff ≤ lower m
  free : lower m ≤ upper m
  inside : ∀ i < nextindex m, upper m ≤ short m (linp i) ∧
    short m (linp i) + itemSize (type m = pBleaf) m (short m (linp i)) ≤ psize
  apart : ∀ i < nextindex m, ∀ j < i,
    short m (linp i) + itemSize (type m = pBleaf) m (short m (linp i)) ≤ short m (linp j) ∨
      short m (linp j) + itemSize (type m = pBleaf) m (short m (linp j)) ≤ short m (linp i)
  bigkey : ∀ i < nextindex m, m (short m (linp i) + 8) &&& pBigkey ≠ 0 →
    long m (short m (linp i)) = 8
  bigdata : type m = pBleaf → ∀ i < nextindex m, m (short m (linp i) + 8) &&& pBigdata ≠ 0 →
    long m (short m (linp i) + 4) = 8

structure WellFormed (m : Nat → UInt8) (psize pg : Nat) : Prop where
  large : 512 ≤ psize
  type : pg ≠ pMeta → hasItems m ∨ type m = pOverflow
  items : pg ≠ pMeta → hasItems m → Items m psize

/-- Just the numbers have their bytes reversed, all of them on the page, and `__bt_pgin` undoes
that. -/
structure Converts (m : Nat → UInt8) (psize pg : Nat) : Prop where
  swapped : (btPgout true pg m).swapped = fields m pg
  reversed : ∀ f ∈ fields m pg, ∀ k < f.size, (btPgout true pg m).mem (f.start + k) =
    m (f.start + (f.size - 1 - k))
  rest : ∀ a, (∀ f ∈ fields m pg, ¬ f.Holds a) → (btPgout true pg m).mem a = m a
  inside : ∀ f ∈ fields m pg, f.Within 0 psize
  back : (btPgin true pg (btPgout true pg m).mem).mem = m

end Layout

end FreeBsd.Db.BtConv
