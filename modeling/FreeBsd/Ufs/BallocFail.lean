import FreeBsd.Ufs.Balloc
import Mathlib.Order.Interval.Finset.Nat

/-! `balloc` of `ufs_bmap.c` where reads and writes can fail, with `realloccg`, `alloc` and
`blkfree` of `ufs_alloc.c` and the free maps they keep. Delayed writes, and those whose result the
code does not look at, succeed; quotas, times and the counts of free fragments are left out. -/
namespace FreeBsd.Ufs.Faults

inductive Errno where
  | enospc
  | efbig
  | eio
  | panic (text : String)
  deriving DecidableEq, Repr

/-- What a block is needed for in one call: the fragment that ends the file, an indirect block with
`n` levels to its data, and the block that is asked for. -/
inductive Place where
  | tail
  | indirect (n : Nat)
  | data
  deriving DecidableEq

inductive Optim where
  | FS_OPTTIME
  | FS_OPTSPACE
  deriving DecidableEq

structure Env where
  B_CLRBUF : Bool
  breadFails : Place → Bool
  bwriteFails : Place → Bool
  /-- `blkfree` cannot read the cylinder group, for the old fragment or the new block. -/
  cgFails : Place → Bool
  /-- The same for what `realloccg` does not use of a new block. -/
  restFails : Place → Bool
  /-- The space left is the reserve. -/
  reserve : Place → Bool
  fs_optim : Place → Optim
  /-- `fragextend` has fragments to take and reads the cylinder group. -/
  canExtend : Place → Bool
  /-- The fragment the search of `hashalloc` ends at, 0 for none. -/
  search : Place → Nat

/-- The pointers in the indirect blocks, the fragments taken in the free maps, and the inode. -/
structure Store where
  disk : Nat → Nat → Nat
  map : Finset Nat
  ip : Inode

structure Buf where
  blkno : Nat
  bcount : Nat

abbrev Call := EStateM Errno Store

namespace Call

variable {α β : Type} {x : Call α} {f : α → Call β} {s s' : Store} {a : α} {e : Errno}

theorem bind_ok (h : x s = .ok a s') : (x >>= f) s = f a s' := by
  simp only [bind, EStateM.bind, h]

theorem bind_error (h : x s = .error e s') : (x >>= f) s = .error e s' := by
  simp only [bind, EStateM.bind, h]

@[simp] theorem pure_apply : (pure a : Call α) s = .ok a s := rfl

@[simp] theorem throw_apply : (throw e : Call α) s = .error e s := rfl

@[simp] theorem pure_bind_apply : ((pure a : Call α) >>= f) s = f a s := rfl

@[simp] theorem throw_bind_apply : ((throw e : Call α) >>= f) s = .error e s := rfl

@[simp] theorem get_bind_apply {f : Store → Call β} : ((get : Call Store) >>= f) s = f s s := rfl

@[simp] theorem set_bind_apply {f : PUnit → Call β} : ((set s' : Call PUnit) >>= f) s = f () s' :=
  rfl

@[simp] theorem set_apply : (set s' : Call PUnit) s = .ok () s' := rfl

@[simp] theorem modify_bind_apply {g : Store → Store} {f : PUnit → Call β} :
    ((modify g : Call PUnit) >>= f) s = f () (g s) := rfl

@[simp] theorem modify_apply {g : Store → Store} : (modify g : Call PUnit) s = .ok () (g s) := rfl

end Call

def Store.point (s : Store) (bn i nb : Nat) : Store :=
  { s with disk := Function.update s.disk bn (Function.update (s.disk bn) i nb) }

def Store.clrbuf (s : Store) (bn : Nat) : Store :=
  { s with disk := Function.update s.disk bn (fun _ => 0) }

def Store.direct (s : Store) (i nb : Nat) : Store :=
  { s with ip := { s.ip with db := Function.update s.ip.db i nb } }

def Store.indirect (s : Store) (level nb : Nat) : Store :=
  { s with ip := { s.ip with ib := Function.update s.ip.ib level nb } }

def Store.charge (s : Store) (size : Nat) : Store := { s with ip := s.ip.charge size }

def frags (fs : Fs) (bno size : Nat) : Finset Nat := Finset.Ico bno (bno + fs.numfrags size)

section Alloc

variable (fs : Fs) (env : Env)

/-- A block is whole where it is asked for whole; the search ends at free fragments of the volume.
-/
def hashalloc (place : Place) (size : Nat) (s : Store) : Option (Nat × Store) :=
  let bno := env.search place
  if bno ≠ 0 ∧ bno + fs.numfrags size ≤ fs.size ∧ (size = fs.bsize → fs.fragnum bno = 0) ∧
      ∀ f ∈ frags fs bno size, f ∉ s.map then
    some (bno, { s with map := s.map ∪ frags fs bno size })
  else none

def alloc (place : Place) (size : Nat) : Call Nat := do
  if size > fs.bsize ∨ size % fs.fsize ≠ 0 then throw (.panic "alloc: bad size")
  match hashalloc fs env place size (← get) with
  | none => throw .enospc
  | some (bno, s) =>
    set (s.charge size)
    return bno

/-- A group that cannot be read leaves its map as it is, and nobody is told. -/
def blkfree (fails : Bool) (bno size : Nat) : Call Unit := do
  if size > fs.bsize ∨ size % fs.fsize ≠ 0 then throw (.panic "blkfree: bad size")
  if bno ≥ fs.size then return
  if fails then return
  let s ← get
  if size = fs.bsize then
    let block := frags fs (fs.blknum bno) fs.bsize
    if ∀ f ∈ block, f ∉ s.map then throw (.panic "blkfree: freeing free block")
    set { s with map := s.map \ block }
  else
    if ∃ f ∈ frags fs bno size, f ∉ s.map then throw (.panic "blkfree: freeing free frag")
    set { s with map := s.map \ frags fs bno size }

/-- The fragments after those of `bprev` are free, up to `nsize` bytes and in the same block. The
maps have none past the end of the volume as free. -/
def fragextend (place : Place) (bprev osize nsize : Nat) (s : Store) : Bool :=
  env.canExtend place && decide (fs.fragnum bprev ≤ fs.fragnum (bprev + fs.numfrags nsize - 1)) &&
    decide (∀ f ∈ Finset.Ico (bprev + fs.numfrags osize) (bprev + fs.numfrags nsize),
      f < fs.size ∧ f ∉ s.map)

def request (place : Place) (nsize : Nat) : Nat :=
  match env.fs_optim place with
  | .FS_OPTSPACE => nsize
  | .FS_OPTTIME => fs.bsize

def realloccg (place : Place) (lbprev osize nsize : Nat) : Call Buf := do
  if osize > fs.bsize ∨ osize % fs.fsize ≠ 0 ∨ nsize > fs.bsize ∨ nsize % fs.fsize ≠ 0 then
    throw (.panic "realloccg: bad size")
  if env.reserve place then throw .enospc
  let s ← get
  let bprev := s.ip.db lbprev
  if bprev = 0 then throw (.panic "realloccg: bad bprev")
  if env.breadFails place then throw .eio
  if fragextend fs env place bprev osize nsize s then
    let more := Finset.Ico (bprev + fs.numfrags osize) (bprev + fs.numfrags nsize)
    set ({ s with map := s.map ∪ more }.charge (nsize - osize))
    return ⟨bprev, nsize⟩
  let request := request fs env place nsize
  match hashalloc fs env place request s with
  | none => throw .enospc
  | some (bno, s) =>
    set s
    blkfree fs (env.cgFails place) bprev osize
    if nsize < request then
      blkfree fs (env.restFails place) (bno + fs.numfrags nsize) (request - nsize)
    modify fun s => s.charge (nsize - osize)
    return ⟨bno, nsize⟩

end Alloc

section Balloc

variable (fs : Fs) (env : Env)

/-- The first paragraph of `balloc`: the fragment that ends the file becomes a block. -/
def enlarge (bn : Nat) : Call Unit := do
  let s ← get
  let nb := fs.lblkno s.ip.size
  let osize := fs.blksize s.ip nb
  if nb < NDADDR ∧ nb < bn ∧ osize < fs.bsize ∧ osize > 0 then
    let bp ← realloccg fs env .tail nb osize fs.bsize
    modify fun s => ({ s with ip := { s.ip with size := (nb + 1) * fs.bsize } }.direct nb bp.blkno)

def direct (bn size : Nat) : Call Buf := do
  let s ← get
  let nb := s.ip.db bn
  if nb ≠ 0 ∧ s.ip.size ≥ (bn + 1) * fs.bsize then
    if env.breadFails .data then throw .eio
    return ⟨nb, fs.bsize⟩
  let bp ←
    if nb ≠ 0 then do
      let osize := fs.fragroundup (fs.blkoff s.ip.size)
      let nsize := fs.fragroundup size
      if nsize ≤ osize then
        if env.breadFails .data then throw .eio
        pure ⟨nb, osize⟩
      else realloccg fs env .data bn osize nsize
    else do
      let nsize := if s.ip.size < (bn + 1) * fs.bsize then fs.fragroundup size else fs.bsize
      let newb ← alloc fs env .data nsize
      pure ⟨newb, nsize⟩
  modify fun s => s.direct bn bp.blkno
  return bp

def newIndirect (n : Nat) : Call Nat := do
  let nb ← alloc fs env (.indirect n) fs.bsize
  if env.bwriteFails (.indirect n) then
    blkfree fs (env.cgFails (.indirect n)) nb fs.bsize
    throw .eio
  modify fun s => s.clrbuf nb
  return nb

/-- The loop through the indirect blocks, the last of which points at the data. -/
def through : Nat → Nat → Nat → Nat → Call Buf
  | 0, _, _, bp => return ⟨bp, 0⟩
  | 1, sh, bn, bp => do
    if env.breadFails (.indirect 1) then throw .eio
    let i := bn / (sh / fs.nindir) % fs.nindir
    let nb := (← get).disk bp i
    if nb ≠ 0 then
      if env.B_CLRBUF && env.breadFails .data then throw .eio
      return ⟨nb, fs.bsize⟩
    let newb ← alloc fs env .data fs.bsize
    modify fun s => s.point bp i newb
    return ⟨newb, fs.bsize⟩
  | n + 2, sh, bn, bp => do
    if env.breadFails (.indirect (n + 2)) then throw .eio
    let sh := sh / fs.nindir
    let i := bn / sh % fs.nindir
    let nb := (← get).disk bp i
    if nb ≠ 0 then through (n + 1) sh bn nb
    else
      let nb ← newIndirect fs env (n + 1)
      modify fun s => s.point bp i nb
      through (n + 1) sh bn nb

/-- The indirect block the inode points at, brought in where there is none. -/
def firstIndirect (j : Nat) : Call Nat := do
  let nb := (← get).ip.ib (NIADDR - j)
  if nb ≠ 0 then return nb
  let nb ← newIndirect fs env (NIADDR + 1 - j)
  modify fun s => s.indirect (NIADDR - j) nb
  return nb

def supply (bn size : Nat) : Call Buf :=
  if bn < NDADDR then direct fs env bn size
  else
    match indirection fs NIADDR 1 (bn - NDADDR) with
    | none => throw .efbig
    | some (j, sh, k) => do
      let nb ← firstIndirect fs env j
      through fs env (NIADDR + 1 - j) sh k nb

def balloc (bn : Int) (size : Nat) : Call Buf := do
  if bn < 0 then throw .efbig
  enlarge fs env bn.toNat
  supply fs env bn.toNat size

end Balloc

end FreeBsd.Ufs.Faults
