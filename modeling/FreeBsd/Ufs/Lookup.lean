import FreeBsd.Lib.Machine
import FreeBsd.Lib.Word
import FreeBsd.Ufs.Fs

/-! The search of `ufs_lookup` through a directory: it ends, whatever the directory holds. -/
namespace FreeBsd.Ufs

open FreeBsd.Lib

def DIRBLKSIZ : Nat := 512
def MAXNAMLEN : Nat := 255
def EFBIG : Nat := 27

structure Direct where
  ino : Nat
  reclen : Nat
  namlen : Nat
  name : Nat → UInt8

/-- A buffer, with what follows it in memory: nothing is read from `mapped` on without a fault, and
the kernel's addresses are no more than 32 megabytes. -/
structure DirBuf where
  bytes : Nat → UInt8
  mapped : Nat
  mapped_le : mapped ≤ 2 ^ 25

def DirBuf.direct (bp : DirBuf) (loc : Nat) : Direct where
  ino := (bp.bytes loc).toNat + 256 * ((bp.bytes (loc + 1)).toNat +
    256 * ((bp.bytes (loc + 2)).toNat + 256 * (bp.bytes (loc + 3)).toNat))
  reclen := (bp.bytes (loc + 4)).toNat + 256 * (bp.bytes (loc + 5)).toNat
  namlen := (bp.bytes (loc + 6)).toNat + 256 * (bp.bytes (loc + 7)).toNat
  name i := bp.bytes (loc + 8 + i)

def DIRSIZ (ep : Direct) : Nat := 8 + (ep.namlen + 1 + 3) / 4 * 4

def dirbadentry (ep : Direct) (entryoffsetinblock : Nat) : Bool :=
  if ep.reclen % 4 ≠ 0 ∨ ep.reclen > DIRBLKSIZ - entryoffsetinblock % DIRBLKSIZ ∨
    ep.reclen < DIRSIZ ep ∨
      ep.namlen > MAXNAMLEN then
    true
  else if (List.range ep.namlen).any fun i => ep.name i = 0 then true
  else ep.name ep.namlen ≠ 0

/-- The inode of a directory; `read` is `bread` of one of its blocks. -/
structure DirInode where
  fs : Fs
  ronly : Bool
  size : Nat
  diroff : Int
  read : Nat → Except Nat DirBuf
  size_lt : size < 2 ^ 32
  le_diroff : -2 ^ 31 ≤ diroff
  diroff_lt : diroff < 2 ^ 31

inductive NameiOp where
  | lookup
  | create
  | delete
  | rename
  deriving DecidableEq, Repr

/-- `last` is `*ni_next == 0`, and `name` is `ni_namelen` bytes at `ni_ptr`. -/
structure Nameidata where
  op : NameiOp
  last : Bool
  name : List UInt8

inductive SlotStatus where
  | none
  | compact
  | found
  deriving DecidableEq, Repr

structure DirSearch where
  offset : Int
  entryoffsetinblock : Nat
  bp : Option DirBuf
  numdirpasses : Nat
  endsearch : Int
  slotstatus : SlotStatus
  slotoffset : Int
  slotsize : Int
  slotfreespace : Int
  enduseful : Int

inductive Looked where
  | found (s : DirSearch) (ep : Direct)
  | notfound (s : DirSearch)
  | error (errno : Nat)
  /-- `dirbad` on a file system that may be written. -/
  | panic
  /-- A read where there is no memory. -/
  | fault

def blkoffOf (fs : Fs) (loc : Int) : Nat := (loc % fs.bsize).toNat

def blkatoff (dp : DirInode) (offset : Int) : Except Nat DirBuf :=
  if offset < 0 then .error EFBIG else dp.read (dp.fs.lblkno offset.toNat)

def roundupDir (size : Nat) : Nat := (size + (DIRBLKSIZ - 1)) % 2 ^ 32 / DIRBLKSIZ * DIRBLKSIZ

def slotneeded (ndp : Nameidata) : Nat := 8 + (ndp.name.length + 1 + 3) / 4 * 4

/-- A free slot, or free space of several entries, is noted for a new entry. -/
def noteSlot (ndp : Nameidata) (ep : Direct) (s : DirSearch) : DirSearch :=
  let size : Int := if ep.ino ≠ 0 then ep.reclen - DIRSIZ ep else ep.reclen
  if s.slotstatus = .found ∨ size ≤ 0 then s
  else if size ≥ slotneeded ndp then
    { s with slotstatus := .found, slotoffset := s.offset, slotsize := ep.reclen }
  else if s.slotstatus = .none then
    let free := s.slotfreespace + size
    let first := if s.slotoffset = -1 then s.offset else s.slotoffset
    if free ≥ slotneeded ndp then
      { s with slotfreespace := free, slotoffset := first, slotstatus := .compact,
               slotsize := s.offset + ep.reclen - first }
    else { s with slotfreespace := free, slotoffset := first }
  else s

def Direct.named (ep : Direct) (ndp : Nameidata) : Prop :=
  ep.ino ≠ 0 ∧ ep.namlen = ndp.name.length ∧ (List.range ep.namlen).map ep.name = ndp.name

instance (ep : Direct) (ndp : Nameidata) : Decidable (ep.named ndp) :=
  inferInstanceAs (Decidable (_ ∧ _))

def DirSearch.advance (s : DirSearch) (i : Nat) : DirSearch :=
  { s with offset := wrap32 (s.offset + i), entryoffsetinblock := s.entryoffsetinblock + i }

/-- The free space of each `DIRBLKSIZ` is counted anew. -/
def countAnew (s : DirSearch) : DirSearch :=
  if s.slotstatus = .none ∧ s.entryoffsetinblock % DIRBLKSIZ = 0 then
    { s with slotoffset := -1, slotfreespace := 0 }
  else s

def nextBlock (dp : DirInode) (s : DirSearch) : Except Nat DirSearch :=
  if blkoffOf dp.fs s.offset = 0 then
    match blkatoff dp s.offset with
    | .error errno => .error errno
    | .ok bp => .ok (countAnew { s with bp := some bp, entryoffsetinblock := 0 })
  else .ok (countAnew s)

def foundName (dp : DirInode) (s : DirSearch) (ep : Direct) : Looked :=
  if s.entryoffsetinblock + DIRSIZ ep > dp.size ∧ ¬ dp.ronly then .panic else .found s ep

/-- One turn of the loop at `searchloop`, or what is done behind it. -/
def searchStep (dirchk : Bool) (dp : DirInode) (ndp : Nameidata) (s : DirSearch) :
    Outcome DirSearch Looked :=
  if s.offset < s.endsearch then
    match nextBlock dp s with
    | .error errno => .halt (.error errno)
    | .ok s =>
      match s.bp with
      | none => .halt .fault
      | some bp =>
        if bp.mapped < s.entryoffsetinblock + 8 then .halt .fault
        else
          let ep := bp.direct s.entryoffsetinblock
          if ep.reclen = 0 ∨ dirchk ∧ dirbadentry ep s.entryoffsetinblock then
            if dp.ronly then .next
              (s.advance (DIRBLKSIZ - s.entryoffsetinblock % DIRBLKSIZ)) else .halt .panic
          else if ep.named ndp then .halt (foundName dp (noteSlot ndp ep s) ep)
          else
            let s := (noteSlot ndp ep s).advance ep.reclen
            .next (if ep.ino ≠ 0 then { s with enduseful := s.offset } else s)
  else if s.numdirpasses = 2 then
    .next { s with numdirpasses := 1, offset := 0, endsearch := dp.diroff }
  else .halt (.notfound s)

/-- Where the search starts: where the last one ended, if the directory is still that long. -/
def searchStart (dp : DirInode) (ndp : Nameidata) : Looked ⊕ DirSearch :=
  let s : DirSearch :=
    { offset := 0, entryoffsetinblock := 0, bp := none, numdirpasses := 1,
      endsearch := wrap32 (roundupDir dp.size)
      slotstatus := if (ndp.op = .create ∨ ndp.op = .rename) ∧ ndp.last then .none else .found
      slotoffset := -1, slotsize := 0, slotfreespace := 0, enduseful := 0 }
  if ndp.op ≠ .lookup ∨ dp.diroff = 0 ∨ (dp.diroff % 2 ^ 32).toNat > dp.size then .inr s
  else
    let s := { s with offset := dp.diroff, entryoffsetinblock := blkoffOf dp.fs dp.diroff,
                      numdirpasses := 2 }
    if s.entryoffsetinblock ≠ 0 then
      match blkatoff dp dp.diroff with
      | .error errno => .inl (.error errno)
      | .ok bp => .inr { s with bp := some bp }
    else .inr s

def ufsLookup (dirchk : Bool) (dp : DirInode) (ndp : Nameidata) (turns : Nat) : Option Looked :=
  match searchStart dp ndp with
  | .inl looked => some looked
  | .inr s => run (searchStep dirchk dp ndp) turns s

/-- `i_size` and `i_diroff` as the search leaves them; only one that finds the name moves them. -/
def Looked.kept (dp : DirInode) (ndp : Nameidata) : Looked → Nat × Int
  | .found s ep =>
    (if s.entryoffsetinblock + DIRSIZ ep > dp.size then s.entryoffsetinblock +
      DIRSIZ ep else dp.size,
        if ndp.last ∧ ndp.op = .lookup then s.offset / DIRBLKSIZ * DIRBLKSIZ else dp.diroff)
  | .notfound _ | .error _ | .panic | .fault => (dp.size, dp.diroff)

section Halts

variable {dirchk : Bool} {dp : DirInode} {ndp : Nameidata} {s t : DirSearch} {ep : Direct}
    {bp : DirBuf} {i : Nat}

theorem direct_reclen_lt (bp : DirBuf) (loc : Nat) : (bp.direct loc).reclen < 2 ^ 16 := by
  have low := (bp.bytes (loc + 4)).toNat_lt
  have high := (bp.bytes (loc + 5)).toNat_lt
  show (bp.bytes (loc + 4)).toNat + 256 * (bp.bytes (loc + 5)).toNat < 2 ^ 16
  omega

structure DirSearch.Aside (s t : DirSearch) : Prop where
  offset : t.offset = s.offset
  entry : t.entryoffsetinblock = s.entryoffsetinblock
  bp : t.bp = s.bp
  passes : t.numdirpasses = s.numdirpasses
  endsearch : t.endsearch = s.endsearch

theorem noteSlot_aside : s.Aside (noteSlot ndp ep s) := by
  unfold noteSlot
  dsimp only
  generalize (if ep.ino ≠ 0 then (ep.reclen : Int) - DIRSIZ ep else ep.reclen) = size
  split
  · exact ⟨rfl, rfl, rfl, rfl, rfl⟩
  · split
    · exact ⟨rfl, rfl, rfl, rfl, rfl⟩
    · split
      · split
        · exact ⟨rfl, rfl, rfl, rfl, rfl⟩
        · exact ⟨rfl, rfl, rfl, rfl, rfl⟩
      · exact ⟨rfl, rfl, rfl, rfl, rfl⟩

theorem countAnew_aside : s.Aside (countAnew s) := by
  unfold countAnew
  split
  · exact ⟨rfl, rfl, rfl, rfl, rfl⟩
  · exact ⟨rfl, rfl, rfl, rfl, rfl⟩

/-- What the reading of a block leaves: the same place, and a place in the buffer that goes with it.
-/
theorem nextBlock_cases (read : nextBlock dp s = .ok t) :
    t.offset = s.offset ∧ t.numdirpasses = s.numdirpasses ∧ t.endsearch = s.endsearch ∧
      (0 ≤ s.offset ∨ blkoffOf dp.fs s.offset ≠ 0 ∧
        t.entryoffsetinblock = s.entryoffsetinblock) := by
  unfold nextBlock at read
  split at read
  · split at read
    · cases read
    · rename_i bp there
      cases read
      have aside := @countAnew_aside { s with bp := some bp, entryoffsetinblock := 0 }
      refine ⟨aside.offset, aside.passes, aside.endsearch, .inl ?_⟩
      unfold blkatoff at there
      split at there
      · cases there
      · omega
  · rename_i inside
    cases read
    have aside := @countAnew_aside s
    exact ⟨aside.offset, aside.passes, aside.endsearch, .inr ⟨inside, aside.entry⟩⟩

theorem searchStep_cases (step : searchStep dirchk dp ndp s = .next t) :
    (∃ i e : Nat, 0 < i ∧ i < 2 ^ 16 ∧ e + 8 ≤ 2 ^ 25 ∧ t.offset = wrap32 (s.offset + i) ∧
      t.entryoffsetinblock = e + i ∧
      t.numdirpasses = s.numdirpasses ∧ (0 ≤ s.offset ∨ blkoffOf dp.fs s.offset ≠ 0 ∧
        e = s.entryoffsetinblock)) ∨
    (s.numdirpasses = 2 ∧ t.numdirpasses = 1 ∧ t.offset = 0) := by
  unfold searchStep at step
  split at step
  · left
    cases read : nextBlock dp s with
    | error errno =>
      rw [read] at step
      cases step
    | ok u =>
      obtain ⟨offset, passes, -, entry⟩ := nextBlock_cases read
      rw [read] at step
      dsimp only at step
      cases there : u.bp with
      | none =>
        rw [there] at step
        cases step
      | some bp =>
        rw [there] at step
        dsimp only at step
        have mapped := bp.mapped_le
        split at step
        · cases step
        · rename_i inside
          split at step
          · split at step
            · cases step
              refine ⟨DIRBLKSIZ - u.entryoffsetinblock % DIRBLKSIZ, u.entryoffsetinblock, ?_,
                ?_, by lia, ?_, rfl, passes, entry⟩
              · have := Nat.mod_lt u.entryoffsetinblock (show 0 < DIRBLKSIZ by decide)
                lia
              · unfold DIRBLKSIZ
                lia
              · rw [← offset]
                rfl
            · cases step
          · rename_i sane
            split at step
            · cases step
            · have aside : u.Aside (noteSlot ndp (bp.direct u.entryoffsetinblock) u) :=
                noteSlot_aside
              refine ⟨(bp.direct u.entryoffsetinblock).reclen,
                u.entryoffsetinblock, by lia, direct_reclen_lt .., by lia, ?_⟩
              cases step
              split
              · exact ⟨by rw [← offset, ← aside.offset]; rfl, congrArg (· + _) aside.entry,
                  aside.passes.trans passes, entry⟩
              · exact ⟨by rw [← offset, ← aside.offset]; rfl, congrArg (· + _) aside.entry,
                  aside.passes.trans passes, entry⟩
  · split at step
    · rename_i two
      cases step
      exact .inr ⟨two, rfl, rfl⟩
    · cases step

/-- An offset past the largest is negative, and then the place in the buffer is at least as far on.
-/
def DirSearch.Bounded (fs : Fs) (s : DirSearch) : Prop :=
  -2 ^ 31 ≤ s.offset ∧ s.offset < 2 ^ 31 ∧
    (0 ≤ s.offset ∨ blkoffOf fs s.offset = 0 ∨ s.offset + 2 ^ 31 ≤ s.entryoffsetinblock)

def DirSearch.left (s : DirSearch) : Nat :=
  (if s.numdirpasses = 2 then 2 ^ 33 else 0) +
    (if 0 ≤ s.offset then 2 ^ 27 + (2 ^ 31 - s.offset.toNat) else 2 ^ 26 - s.entryoffsetinblock)

theorem wrap32_add {x : Int} (low : -2 ^ 31 ≤ x) (high : x < 2 ^ 31) (small : i < 2 ^ 16) :
    wrap32 (x + i) = x + i ∧ x + i < 2 ^ 31 ∨ wrap32 (x + i) = x + i - 2 ^ 32 ∧ 2 ^ 31 ≤ x + i := by
  unfold wrap32
  rw [Int.bmod_def]
  split
  · lia
  · lia

theorem left_ahead (ahead : 0 ≤ s.offset) :
    s.left = (if s.numdirpasses = 2 then 2 ^ 33 else 0) + (2 ^ 27 + (2 ^ 31 - s.offset.toNat)) := by
  rw [DirSearch.left, if_pos ahead]

theorem left_behind (behind : s.offset < 0) :
    s.left = (if s.numdirpasses = 2 then 2 ^ 33 else 0) + (2 ^ 26 - s.entryoffsetinblock) := by
  rw [DirSearch.left, if_neg (Int.not_le.mpr behind)]

theorem DirSearch.Bounded.step (bounded : s.Bounded dp.fs)
    (step : searchStep dirchk dp ndp s = .next t) :
    t.Bounded dp.fs ∧ t.left < s.left := by
  obtain ⟨low, high, place⟩ := bounded
  rcases searchStep_cases step with ⟨i, e, positive, small, inside, offset, entry, passes, old⟩ |
    ⟨two, one, offset⟩
  · rcases wrap32_add low high small with ⟨value, bound⟩ | ⟨value, bound⟩
    · rw [value] at offset
      have cases : 0 ≤ s.offset ∨ s.offset < 0 ∧ e = s.entryoffsetinblock ∧
        s.offset + 2 ^ 31 ≤ e := by
        rcases old with ahead | ⟨inner, same⟩
        · exact .inl ahead
        · rcases place with ahead | boundary | behind
          · exact .inl ahead
          · exact absurd boundary inner
          · lia
      rcases cases with ahead | ⟨negative, same, behind⟩
      · refine ⟨⟨by lia, by lia, .inl (by lia)⟩, ?_⟩
        rw [left_ahead ahead, left_ahead (by lia), passes]
        lia
      · refine ⟨⟨by lia, by lia, .inr (.inr (by lia))⟩, ?_⟩
        rw [left_behind negative, left_behind (by lia), passes]
        lia
    · rw [value] at offset
      refine ⟨⟨by lia, by lia, .inr (.inr (by lia))⟩, ?_⟩
      rw [left_ahead (show 0 ≤ s.offset by lia), left_behind (by lia), passes]
      lia
  · refine ⟨⟨by lia, by lia, .inl (by lia)⟩, ?_⟩
    rw [left_ahead (by lia), DirSearch.left, if_pos two, if_neg (by lia)]
    lia

theorem searchStart_bounded (start : searchStart dp ndp = .inr s) : s.Bounded dp.fs := by
  have low := dp.le_diroff
  have high := dp.diroff_lt
  unfold searchStart at start
  dsimp only at start
  split at start
  · cases start
    exact ⟨by norm_num, by norm_num, .inl (Int.le_refl 0)⟩
  · split at start
    · rename_i inside
      cases there : blkatoff dp dp.diroff with
      | error errno =>
        rw [there] at start
        cases start
      | ok bp =>
        rw [there] at start
        cases start
        unfold blkatoff at there
        split at there
        · cases there
        · exact ⟨low, high, .inl (by dsimp only; omega)⟩
    · rename_i boundary
      cases start
      exact ⟨low, high, .inr (.inl (by simpa using boundary))⟩

theorem ufsLookup_halts (dirchk : Bool) (dp : DirInode) (ndp : Nameidata) :
    ∃ turns looked, ufsLookup dirchk dp ndp turns = some looked := by
  unfold ufsLookup
  cases start : searchStart dp ndp with
  | inl looked => exact ⟨0, looked, rfl⟩
  | inr s =>
    have bounded : ∀ t, Reaches (searchStep dirchk dp ndp) s t → t.Bounded dp.fs := fun t reached =>
      reached.invariant (searchStart_bounded start) fun u v _ kept step => (kept.step step).1
    obtain ⟨looked, halts⟩ :=
      run_halts_of_measure (searchStep dirchk dp ndp) DirSearch.left s fun t u reached step =>
      ((bounded t reached).step step).2
    exact ⟨_, looked, halts⟩

end Halts

end FreeBsd.Ufs
