import FreeBsd.Lib.Extents
import FreeBsd.Lib.Threaded
import FreeBsd.Lib.Trace
import FreeBsd.Lib.Word

/-! The allocator of kernel memory, with calls of `malloc` that sleep while others go on. -/
namespace FreeBsd.Kern

open FreeBsd.Lib

def NBPG : Nat := 4096
def PGSHIFT : Nat := 12
def CLBYTES : Nat := 4096
def MINBUCKET : Nat := 4
def MAXALLOCSAVE : Nat := CLBYTES - 1
def M_LAST : Nat := 52
def VM_KMEM_SIZE : Nat := 16 * 1024 * 1024

def MINALLOCSIZE : Nat := 1 <<< MINBUCKET

def BUCKETINDX (size : Nat) : Nat :=
  if size ≤ MINALLOCSIZE * 128 then
    if size ≤ MINALLOCSIZE * 8 then
      if size ≤ MINALLOCSIZE * 2 then
        if size ≤ MINALLOCSIZE * 1 then MINBUCKET + 0 else MINBUCKET + 1
      else if size ≤ MINALLOCSIZE * 4 then MINBUCKET + 2 else MINBUCKET + 3
    else if size ≤ MINALLOCSIZE * 32 then
      if size ≤ MINALLOCSIZE * 16 then MINBUCKET + 4 else MINBUCKET + 5
    else if size ≤ MINALLOCSIZE * 64 then MINBUCKET + 6 else MINBUCKET + 7
  else if size ≤ MINALLOCSIZE * 2048 then
    if size ≤ MINALLOCSIZE * 512 then
      if size ≤ MINALLOCSIZE * 256 then MINBUCKET + 8 else MINBUCKET + 9
    else if size ≤ MINALLOCSIZE * 1024 then MINBUCKET + 10 else MINBUCKET + 11
  else if size ≤ MINALLOCSIZE * 8192 then
    if size ≤ MINALLOCSIZE * 4096 then MINBUCKET + 12 else MINBUCKET + 13
  else if size ≤ MINALLOCSIZE * 16384 then MINBUCKET + 14 else MINBUCKET + 15

/-- `un` is the free count of a page of small blocks, and the page count of a large one. -/
structure Kmemusage where
  indx : Nat
  un : Nat
  deriving DecidableEq, Repr

/-- `memuse` and `limit` of a type of memory; counters on which nothing depends are left out. -/
structure Kmemstats where
  memuse : Int
  limit : Int

structure KmemMap where
  kmembase : Nat
  pos : 0 < kmembase
  aligned : NBPG ∣ kmembase

/-- The words of memory, `kb_next` of each bucket, and what is known of the pages and types. -/
structure Kmem where
  mem : Nat → Nat
  next : Nat → Nat
  kmemusage : Nat → Kmemusage
  kmemstats : Fin M_LAST → Kmemstats

def elmpercl (indx : Nat) : Nat := if 1 <<< indx ≥ CLBYTES then 1 else CLBYTES / (1 <<< indx)

structure MallocCall where
  size : Nat
  type : Fin M_LAST
  nowait : Bool
  size_lt : size < 2 ^ 32
  deriving DecidableEq

inductive MallocPanic where
  | tooLarge
  | wrongBucket
  | lostData
  | unalignedAddr
  | multipleFrees
  deriving DecidableEq, Repr

inductive Malloced where
  | null
  /-- `tsleep` until less is in use. -/
  | limit
  /-- In `kmem_malloc`. -/
  | kmem
  | block (va : Nat)
  deriving DecidableEq, Repr

variable (map : KmemMap)

def btokup (addr : Nat) : Nat := (addr - map.kmembase) >>> PGSHIFT

def Kmem.setUsage (k : Kmem) (p : Nat) (kup : Kmemusage) : Kmem :=
  { k with kmemusage := Function.update k.kmemusage p kup }

def Kmem.setNext (k : Kmem) (indx next : Nat) :
    Kmem := { k with next := Function.update k.next indx next }

def Kmem.charge (k : Kmem) (type : Fin M_LAST) (bytes : Int) : Kmem :=
  let ksp := k.kmemstats type
  { k with kmemstats := Function.update k.kmemstats type ⟨ksp.memuse + bytes, ksp.limit⟩ }

/-- What `malloc` asks `kmem_malloc` for, as an unsigned long. -/
def allocsize (size : Nat) : Nat :=
  if size > MAXALLOCSAVE then (size + (CLBYTES - 1)) % 2 ^ 32 / CLBYTES * CLBYTES else 1 <<<
    BUCKETINDX size

def allocpages (size : Nat) : Nat := ((allocsize size + (NBPG - 1)) % 2 ^ 32) >>> PGSHIFT

def takeBlock (k : Kmem) (c : MallocCall) : Except MallocPanic (Malloced × Kmem) :=
  let indx := BUCKETINDX c.size
  let va := k.next indx
  let k := k.setNext indx (k.mem va)
  let kup := k.kmemusage (btokup map va)
  if kup.indx ≠ indx then .error .wrongBucket
  else if kup.un = 0 then .error .lostData
  else .ok (.block va, (k.setUsage (btokup map va) { kup with un := kup.un - 1 }).charge c.type
    (1 <<< indx))

def malloc (k : Kmem) (c : MallocCall) : Except MallocPanic (Malloced × Kmem) :=
  let ksp := k.kmemstats c.type
  if ksp.memuse ≥ ksp.limit then .ok (if c.nowait then .null else .limit, k)
  else if k.next (BUCKETINDX c.size) = 0 then .ok (.kmem, k)
  else takeBlock map k c

/-- The blocks of a new page are linked, the last first; the lowest points at the list there was. -/
def carve (va allocsize savedlist : Nat) : Nat → Nat → (Nat → Nat) → Nat → Nat
  | 0, cp, mem => Function.update mem cp savedlist
  | n + 1, cp, mem =>
    if cp > va then carve va allocsize savedlist n (cp - allocsize)
      (Function.update mem cp (cp - allocsize))
    else Function.update mem cp savedlist

/-- `malloc` when `kmem_malloc` has returned memory. Signed and unsigned sizes differ from 2^31 on.
-/
def mallocPages (k : Kmem) (c : MallocCall) (va : Nat) : Except MallocPanic (Malloced × Kmem) :=
  let indx := BUCKETINDX c.size
  let bytes := allocsize c.size
  let npg := allocpages c.size
  let p := btokup map va
  if wrap32 bytes > MAXALLOCSAVE then
    if npg > 65535 then .error .tooLarge
    else .ok (.block va, (k.setUsage p ⟨indx, npg⟩).charge c.type bytes)
  else
    let k := k.setUsage p ⟨indx, elmpercl indx⟩
    let savedlist := k.next indx
    let first := va + npg * NBPG - bytes
    takeBlock map
      { k.setNext indx first with mem := carve va bytes savedlist (npg * NBPG / bytes) first k.mem }
      c

def addrmask (indx : Nat) : Nat := 2 ^ indx - 1

/-- What `free` gives back to `kmem_map`, if anything. -/
def free (diagnostic : Bool) (k : Kmem) (addr : Nat) (type : Fin M_LAST) :
    Except MallocPanic (Option Extent × Kmem) :=
  let p := btokup map addr
  let kup := k.kmemusage p
  let size := 1 <<< kup.indx
  let alloc := if size > NBPG then addrmask (BUCKETINDX NBPG) else addrmask kup.indx
  if diagnostic ∧ addr &&& alloc ≠ 0 then .error .unalignedAddr
  else if size > MAXALLOCSAVE then
    .ok (some ⟨addr, kup.un * NBPG⟩, (k.setUsage p ⟨0, 0⟩).charge type (-(kup.un * NBPG : Nat)))
  else
    let freecnt := (kup.un + 1) % 65536
    if freecnt > elmpercl kup.indx then .error .multipleFrees
    else
      let k := (k.setUsage p { kup with un := freecnt }).charge type (-(size : Nat))
      .ok (none,
        { k.setNext kup.indx addr with mem := Function.update k.mem addr (k.next kup.indx) })

def kmeminit (mem : Nat → Nat) : Kmem where
  mem := mem
  next _ := 0
  kmemusage _ := ⟨0, 0⟩
  kmemstats _ := ⟨0, VM_KMEM_SIZE * 6 / 10⟩

section System

/-- A block that `malloc` has returned, for so many bytes. -/
structure KmemBlock where
  addr : Nat
  size : Nat
  deriving DecidableEq, Repr

/-- Blocks in use, calls that sleep (for memory in use to be freed, or in `kmem_malloc`), and the
ranges of `kmem_map` that are not given back. -/
structure KmemSystem where
  kmem : Kmem
  live : List KmemBlock
  asleep : List (MallocCall × Bool)
  ranges : List Extent

inductive KmemEvent where
  | call (c : MallocCall)
  /-- A call goes on at the limit. -/
  | resume (n : Nat)
  /-- `kmem_malloc` returns. -/
  | pages (n : Nat) (va : Option Nat)
  | free (b : KmemBlock) (type : Fin M_LAST)
  /-- Memory is written. -/
  | write (mem : Nat → Nat)

def KmemBlock.Touches (b : KmemBlock) (a : Nat) : Prop := a < b.addr + b.size ∧ b.addr < a + 4

/-- What `kmem_malloc` returns is of whole pages, in its map, and apart from what it has returned
before; no range of it is empty. Blocks are freed once, and written where they are in use. -/
def KmemEvent.Allowed (s : KmemSystem) : KmemEvent → Prop
  | .call _ => True
  | .resume n => ∃ c, s.asleep[n]? = some (c, false)
  | .pages n none => ∃ c, s.asleep[n]? = some (c, true)
  | .pages n (some va) => ∃ c, s.asleep[n]? = some (c, true) ∧ 0 < allocpages c.size ∧
    map.kmembase ≤ va ∧ NBPG ∣ va ∧
      va + allocpages c.size * NBPG ≤ map.kmembase + VM_KMEM_SIZE ∧
      ∀ r ∈ s.ranges, (⟨va, allocpages c.size * NBPG⟩ : Extent).Apart r
  | .free b _ => b ∈ s.live
  | .write mem => ∀ a, (∀ b ∈ s.live, ¬ b.Touches a) → mem a = s.kmem.mem a

def KmemSystem.settle (s : KmemSystem) (n : Nat) (c : MallocCall) : Malloced × Kmem → KmemSystem
  | (.null, k) => { s with kmem := k, asleep := s.asleep.eraseIdx n }
  | (.limit, k) => { s with kmem := k, asleep := s.asleep.set n (c, false) }
  | (.kmem, k) => { s with kmem := k, asleep := s.asleep.set n (c, true) }
  | (.block va, k) => { s with kmem := k, asleep := s.asleep.eraseIdx n,
                               live := ⟨va, c.size⟩ :: s.live }

def giveBack (ranges : List Extent) : Option Extent → List Extent
  | some r => ranges.erase r
  | none => ranges

def kmemStep (diagnostic : Bool) (s : KmemSystem) : KmemEvent → Except MallocPanic KmemSystem
  | .call c => .ok { s with asleep := s.asleep ++ [(c, false)] }
  | .resume n =>
    match s.asleep[n]? with
    | some (c, false) => (malloc map s.kmem c).map (s.settle n c)
    | _ => .ok s
  | .pages n none => .ok { s with asleep := s.asleep.eraseIdx n }
  | .pages n (some va) =>
    match s.asleep[n]? with
    | some (c, true) =>
      (mallocPages map s.kmem c va).map
        ({ s with ranges := ⟨va, allocpages c.size * NBPG⟩ :: s.ranges }.settle n c)
    | _ => .ok s
  | .free b type =>
    (free map diagnostic s.kmem b.addr type).map fun (given, k) =>
      { s with kmem := k, live := s.live.erase b, ranges := giveBack s.ranges given }
  | .write mem => .ok { s with kmem := { s.kmem with mem } }

/-- A step that the callers and `kmem_malloc` allow, and that does not panic. -/
def KmemRuns (diagnostic : Bool) (s : KmemSystem) (event : KmemEvent) (t : KmemSystem) : Prop :=
  event.Allowed map s ∧ kmemStep map diagnostic s event = .ok t

end System

end FreeBsd.Kern
