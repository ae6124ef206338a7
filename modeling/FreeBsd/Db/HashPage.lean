import Mathlib.Tactic.Ring
import Mathlib.Logic.Function.Basic
import Mathlib.Tactic.Common

/-! Overflow pages of the hash access method: their addresses, the maps that tell which are in use,
and where they lie in the file. The maps of a table that was just made are all in memory, so reading
one from the file is left out; records and buffers are too. -/
namespace FreeBsd.Db

section Model

def NCACHED : Nat := 32
def BITS_PER_MAP : Nat := 32
def INT_TO_BYTE : Nat := 2
def SPLITSHIFT : Nat := 11
def SPLITMASK : Nat := 0x7ff
def MINHDRSIZE : Nat := 512

def HDRSIZE : Nat := 17 * 4 + NCACHED * 4 + NCACHED * 2

/-- The pointers to the buffers of this many buckets fill the address space. -/
def MAXBUCKETS : Nat := 2 ^ 30

def SPLITNUM (n : Nat) : Nat := n >>> SPLITSHIFT
def OPAGENUM (n : Nat) : Nat := n % (SPLITMASK + 1)
def OADDR_OF (s o : Nat) : Nat := (s <<< SPLITSHIFT) + o

def log2From (num : Nat) : Nat → Nat → Nat → Nat
  | 0, i, _ => i
  | fuel + 1, i, limit => if limit < num then log2From num fuel (i + 1) (limit <<< 1) else i

def log2 (num : Nat) : Nat := log2From num 32 0 1

abbrev Bitmap := Nat → Bool

structure Htab where
  bshift : Nat
  hdrpages : Nat
  ovflPoint : Nat
  lastFreed : Nat
  maxBucket : Nat
  highMask : Nat
  lowMask : Nat
  spares : Nat → Nat
  bitmaps : Nat → Nat
  mapp : Nat → Option Bitmap
  nmaps : Nat

def Htab.mapBits (h : Htab) : Nat := 2 ^ (h.bshift + 3)

def Htab.bucketToPage (h : Htab) (b : Nat) : Nat :=
  b + h.hdrpages + if b ≠ 0 then h.spares (log2 (b + 1) - 1) else 0

def Htab.oaddrToPage (h : Htab) (a : Nat) : Nat :=
  h.bucketToPage (2 ^ SPLITNUM a - 1) + OPAGENUM a

/-- The map of a new bitmap page: clear below `nbits`, but for the page itself. -/
def clearBelow (nbits : Nat) : Bitmap := fun n =>
  let clearints := (nbits - 1) / BITS_PER_MAP + 1
  n == 0 ||
    if n / BITS_PER_MAP = clearints - 1 then decide (nbits % BITS_PER_MAP ≤ n % BITS_PER_MAP)
    else decide (clearints ≤ n / BITS_PER_MAP)

def initBitmap (h : Htab) (pnum nbits ndx : Nat) : Option Htab :=
  if ((nbits - 1) / BITS_PER_MAP + 1) <<< INT_TO_BYTE > 2 ^ h.bshift then none
  else some
    { h with
      nmaps := h.nmaps + 1
      bitmaps := Function.update h.bitmaps ndx pnum
      mapp := Function.update h.mapp ndx (some (clearBelow nbits)) }

def initHtab (bshift : Nat) (ffactor nelem : Int) : Option Htab :=
  let nelem := (nelem - 1).tdiv ffactor + 1
  let l2 := log2 (max nelem 2).toNat
  let nbuckets := 2 ^ l2
  let h : Htab :=
    { bshift
      hdrpages := (max HDRSIZE MINHDRSIZE - 1) >>> bshift + 1
      ovflPoint := l2
      lastFreed := 2
      maxBucket := nbuckets - 1
      highMask := (nbuckets <<< 1) - 1
      lowMask := nbuckets - 1
      spares := Function.update (Function.update (fun _ => 0) l2 (l2 + 1)) (l2 + 1) (l2 + 1)
      bitmaps := fun _ => 0
      mapp := fun _ => none
      nmaps := 0 }
  if nbuckets ≥ MAXBUCKETS then none else initBitmap h (OADDR_OF l2 1) (l2 + 1) 0

def allSet (map : Bitmap) (j : Nat) : Bool :=
  (List.range BITS_PER_MAP).all fun b => map (j * BITS_PER_MAP + b)

def firstFree (map : Bitmap) (j : Nat) : Nat :=
  ((List.range BITS_PER_MAP).find? fun b => !map (j * BITS_PER_MAP + b)).getD BITS_PER_MAP

/-- The first word with a clear bit among those from word `j` to the one that holds bit `last`. -/
def scanMap (map : Bitmap) (j last : Nat) : Option Nat :=
  (List.range' j (last / BITS_PER_MAP + 1 - j)).find? fun j => !allSet map j

def scanMaps (h : Htab) (firstPage freePage freeBit : Nat) : Option (Nat × Nat) :=
  (List.range' firstPage (freePage + 1 - firstPage)).findSome? fun i =>
    match h.mapp i with
    | none => none
    | some map =>
      let inUseBits := if i = freePage then freeBit else h.mapBits - 1
      let j := if i = firstPage then h.lastFreed % h.mapBits / BITS_PER_MAP else 0
      (scanMap map j inUseBits).map fun j => (i, j * BITS_PER_MAP + firstFree map j)

def Htab.setBit (h : Htab) (page bit : Nat) (value : Bool) : Htab :=
  let map := (h.mapp page).map fun map => Function.update map bit value
  { h with mapp := Function.update h.mapp page map }

/-- The split point that page number `page` belongs to. -/
def Htab.splitOf (h : Htab) (page : Nat) : Nat :=
  ((List.range h.ovflPoint).find? fun i => page ≤ h.spares i).getD h.ovflPoint

def Htab.before (h : Htab) (s : Nat) : Nat := if s ≠ 0 then h.spares (s - 1) else 0

/-- The split point `s` has no offset left: its last page moves to the next one. -/
def Htab.nextSplit (h : Htab) (s : Nat) : Htab :=
  { h with
    ovflPoint := s + 1
    spares := Function.update (Function.update h.spares (s + 1) (h.spares s)) s (h.spares s - 1) }

def Htab.countPage (h : Htab) : Htab :=
  { h with
    lastFreed := h.spares h.ovflPoint
    spares := Function.update h.spares h.ovflPoint (h.spares h.ovflPoint + 1) }

/-- One page more at the split point; none where there are no split points left. -/
def Htab.addPage (h : Htab) : Option (Htab × Nat × Nat) :=
  let splitnum := h.ovflPoint
  let h := h.countPage
  let offset := h.spares splitnum - h.before splitnum
  if offset > SPLITMASK then
    if splitnum + 1 ≥ NCACHED then none else some (h.nextSplit splitnum, splitnum + 1, 1)
  else some (h, splitnum, offset)

/-- The page just added becomes the map `freePage`, and one more is added. -/
def Htab.addMap (h : Htab) (splitnum offset freePage : Nat) : Option (Htab × Nat) :=
  if freePage ≥ NCACHED then none
  else do
    let h ← initBitmap h (OADDR_OF splitnum offset) 1 freePage
    let h := { h with spares := Function.update h.spares splitnum (h.spares splitnum + 1) }
    let offset := offset + 1
    if offset > SPLITMASK then
      if splitnum + 1 ≥ NCACHED then none
      else some (h.nextSplit splitnum, OADDR_OF (splitnum + 1) 0)
    else some (h, OADDR_OF splitnum offset)

/-- The part of `overflow_page` where no map has a free page; none where it returns NULL. -/
def growOverflow (h : Htab) (freePage freeBit : Nat) : Option (Htab × Nat) := do
  let (h, splitnum, offset) ← h.addPage
  if freeBit = h.mapBits - 1 then h.addMap splitnum offset (freePage + 1)
  else some (h.setBit freePage (freeBit + 1) true, OADDR_OF splitnum offset)

/-- The part of `overflow_page` at the label `found`. -/
def takePage (h : Htab) (i bit : Nat) : Option (Htab × Nat) :=
  let page := 1 + bit + i * h.mapBits
  let lastFreed := if page ≥ h.lastFreed then page - 1 else h.lastFreed
  let s := h.splitOf page
  let offset := page - h.before s
  if offset ≥ SPLITMASK then none else some ({ h.setBit i bit true with lastFreed },
    OADDR_OF s offset)

/-- The new table and the address of the page; none where the code returns NULL. -/
def overflowPage (h : Htab) : Option (Htab × Nat) :=
  let maxFree := h.spares h.ovflPoint
  let freePage := (maxFree - 1) / h.mapBits
  let freeBit := (maxFree - 1) % h.mapBits
  match scanMaps h (h.lastFreed / h.mapBits) freePage freeBit with
  | none => growOverflow h freePage freeBit
  | some (i, bit) => takePage h i bit

def Htab.bitAddress (h : Htab) (addr : Nat) : Nat := h.before (SPLITNUM addr) + OPAGENUM addr - 1

def freeOvflpage (h : Htab) (addr : Nat) : Htab :=
  let bitAddress := h.bitAddress addr
  let h := { h with lastFreed := if bitAddress < h.lastFreed then bitAddress else h.lastFreed }
  h.setBit (bitAddress / h.mapBits) (bitAddress % h.mapBits) false

/-- `__expand_table` up to the call of `__split_page`; none where memory runs out. -/
def expandTable (h : Htab) : Option Htab :=
  let newBucket := h.maxBucket + 1
  if newBucket ≥ MAXBUCKETS then none
  else
    let spareNdx := log2 (newBucket + 1)
    let h := { h with maxBucket := newBucket }
    let h := if spareNdx > h.ovflPoint then
      { h with
        spares := Function.update h.spares spareNdx (h.spares h.ovflPoint)
        ovflPoint := spareNdx } else h
    let h := if newBucket > h.highMask then
      { h with
        lowMask := h.highMask
        highMask := newBucket ||| h.highMask } else h
    some h

end Model

end FreeBsd.Db
