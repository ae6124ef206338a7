import FreeBsd.Lib.Memory
import FreeBsd.Lib.Threaded
import FreeBsd.Lib.Trace

/-! The allocator of `stdlib/malloc.c`, on a little-endian machine with words of four bytes and
pages of 4096. Its memory is bytes, so that the header of a block, a pointer to the next free block
or a magic number and a bucket, is what stands before the block in memory. `RCHECK` and `MSTATS` are
off. -/
namespace FreeBsd.Stdlib.Malloc

open FreeBsd.Lib

abbrev Memory := Nat → BitVec 8

def getpagesize : Nat := 4096

def MAGIC : BitVec 8 := 0xef

def NBUCKETS : Nat := 30

def realloc_srchlen : Nat := 4

structure State where
  mem : Memory
  nextf : Nat → Nat
  pagesz : Nat
  pagebucket : Nat

/-- What `sbrk` answers in one call of the allocator: the end of the heap, and whether it grows for
the alignment and for more blocks, `none` for -1. -/
structure Sbrk where
  brk : Nat
  align : Option Nat
  core : Option Nat

def pageBucket (pagesz : Nat) : (fuel : Nat) → (amt bucket : Nat) → Nat
  | 0, _, bucket => bucket
  | fuel + 1, amt, bucket => if pagesz > amt then pageBucket pagesz fuel (amt * 2)
    (bucket + 1) else bucket

def alignment (brk : Nat) : Nat :=
  let n : Int := getpagesize - 4 - (brk % getpagesize : Nat)
  (if n < 0 then n + getpagesize else n).toNat

/-- The first call sets up the page size; `false` is a return of `NULL`. -/
def setup (s : State) (env : Sbrk) : State × Bool :=
  if s.pagesz = 0 then
    let s := { s with pagesz := getpagesize }
    if alignment env.brk ≠ 0 ∧ env.align = none then (s, false)
    else ({ s with pagebucket := pageBucket getpagesize 32 8 0 }, true)
  else (s, true)

/-- The loop that finds the bucket, in `unsigned` arithmetic. An `amt` of 32 bits is doubled fewer
times than the fuel lasts. -/
def search (nbytes n : Nat) : (fuel : Nat) → (amt bucket : Nat) → Option Nat
  | 0, _, _ => none
  | fuel + 1, amt, bucket =>
    if nbytes > (amt + n) % 2 ^ 32 then
      let amt := amt * 2 % 2 ^ 32
      if amt = 0 then none else search nbytes n fuel amt (bucket + 1)
    else some bucket

def findBucket (s : State) (nbytes : Nat) : Option Nat :=
  if nbytes ≤ s.pagesz - 4 then search nbytes (2 ^ 32 - 4) 32 8 0
  else search nbytes (s.pagesz - 4) 32 s.pagesz s.pagebucket

def carve (sz : Nat) : (nblks : Nat) → (mem : Memory) → (op : Nat) → Memory
  | 0, mem, _ => mem
  | nblks + 1, mem, op => carve sz nblks (setWord mem op (op + sz)) (op + sz)

def amount (pagesz sz : Nat) :
    Nat × Nat := if sz < pagesz then (pagesz, pagesz / sz) else (sz + pagesz, 1)

/-- `1 << (bucket + 3)` is negative or 0 from bucket 28 on. -/
def morecore (s : State) (bucket : Nat) (env : Sbrk) : State :=
  if bucket + 3 ≥ 31 then s
  else
    let sz := 2 ^ (bucket + 3)
    match env.core with
    | none => s
    | some op =>
      { s with nextf := Function.update s.nextf bucket op,
               mem := carve sz ((amount s.pagesz sz).2 - 1) s.mem op }

def mark (mem : Memory) (op bucket : Nat) : Memory := fun x =>
  if x = op then MAGIC else if x = op + 1 then BitVec.ofNat 8 bucket else mem x

def take (s : State) (bucket : Nat) : State × Nat :=
  let op := s.nextf bucket
  if op = 0 then (s, 0)
  else ({ s with nextf := Function.update s.nextf bucket (word s.mem op),
                 mem := mark s.mem op bucket }, op + 4)

def malloc (s : State) (nbytes : Nat) (env : Sbrk) : State × Nat :=
  match setup s env with
  | (s, false) => (s, 0)
  | (s, true) =>
    match findBucket s nbytes with
    | none => (s, 0)
    | some bucket => take (if s.nextf bucket = 0 then morecore s bucket env else s) bucket

def free (s : State) (cp : Nat) : State :=
  if cp = 0 then s
  else
    let op := cp - 4
    if s.mem op ≠ MAGIC then s
    else
      let size := (s.mem (op + 1)).toNat
      { s with mem := setWord s.mem op (s.nextf size), nextf := Function.update s.nextf size op }

/-- Whether one of the first `srchlen` blocks of a list is the one wanted. -/
def findIn (mem : Memory) (freep : Nat) : (srchlen : Nat) → (p : Nat) → Bool
  | 0, _ => false
  | srchlen + 1, p => p ≠ 0 && (p = freep || findIn mem freep srchlen (word mem p))

def findbucket (s : State) (freep srchlen : Nat) : Option Nat :=
  (List.range NBUCKETS).find? fun i => findIn s.mem freep srchlen (s.nextf i)

/-- The bytes of a block of bucket `i`. The machine shifts by the low five bits of the count. -/
def onb (pagesz i : Nat) : Nat :=
  let onb := 2 ^ ((i + 3) % 32)
  if onb < pagesz then (onb + 2 ^ 32 - 4) % 2 ^ 32 else (onb + pagesz - 4) % 2 ^ 32

/-- The bytes of a block of the bucket before, for which that one would have been enough. -/
def below (pagesz i : Nat) : Nat := if i = 0 then 0 else onb pagesz (i - 1)

def realloc (s : State) (cp nbytes : Nat) (env : Sbrk) : State × Nat :=
  if cp = 0 then malloc s nbytes env
  else
    let op := cp - 4
    let was_alloced : Bool := s.mem op = MAGIC
    let i := if was_alloced then (s.mem (op + 1)).toNat
      else ((findbucket s op 1).orElse fun _ => findbucket s op realloc_srchlen).getD NBUCKETS
    if was_alloced ∧ nbytes ≤ onb s.pagesz i ∧ nbytes > below s.pagesz i then (s, cp)
    else
      let (t, res) := malloc (if was_alloced then free s cp else s) nbytes env
      if res = 0 then (t, 0)
      else if cp ≠ res then ({ t with mem := copyBytes t.mem res cp (min nbytes (onb s.pagesz i)) },
        res)
      else (t, res)

end FreeBsd.Stdlib.Malloc
