import FreeBsd.Lib.Tally
import FreeBsd.Lib.Trace
import FreeBsd.Lib.Word
import Mathlib.Logic.Function.Basic

/-! System V shared memory: the table of segments, the descriptors of the processes, and the
calls on them. The address spaces are seen only by what `vm_mmap` answers; times are left out. -/
namespace FreeBsd.Kern

open FreeBsd.Lib

section Model

def SHMMMNI : Nat := 512

/-- `struct shminfo`; `shminit` has cut `shmmni` to `SHMMMNI`. -/
structure Shminfo where
  shmmax : Int
  shmmin : Int
  shmmni : Nat
  shmseg : Nat
  shmall : Int
  few : shmmni ≤ SHMMMNI

/-- `shm_perm.mode`, with the bits that are not permissions. -/
structure ShmMode where
  perms : BitVec 16
  alloc : Bool
  dest : Bool
  deriving DecidableEq, Repr

def ShmMode.zero : ShmMode := ⟨0, false, false⟩

/-- `struct shmid_ds`; the handle is the address of the segment in `shm_map`. -/
structure ShmidDs where
  cuid : Nat
  cgid : Nat
  uid : Nat
  gid : Nat
  mode : ShmMode
  seq : Nat
  key : Int
  segsz : Int
  cpid : Nat
  lpid : Nat
  nattch : Int
  handle : Option Nat
  deriving DecidableEq, Repr

/-- `struct shmdesc`; a descriptor at address 0 is free. -/
structure Shmdesc where
  uva : Nat
  id : Int
  deriving DecidableEq, Repr

structure Ucred where
  uid : Nat
  groups : List Nat
  deriving DecidableEq, Repr

inductive ShmErrno where
  | enoent
  | einval
  | enospc
  | enomem
  | ebusy
  | eexist
  | eacces
  | eperm
  | efault
  | emfile
  /-- Any other value that is taken for an error number. -/
  | other (value : Int)
  deriving DecidableEq, Repr

inductive ShmPanic where
  | shmatNullHandle
  | shmfree
  | noTable
  deriving DecidableEq, Repr

/-- The segments, the table of descriptors of each process, if it has one, and `shmtot`. -/
structure ShmState where
  segs : Nat → ShmidDs
  procs : List (Option (List Shmdesc))
  shmtot : Int

abbrev ShmResult := Except ShmPanic (Except ShmErrno Int × ShmState)

def shmPages (x : Int) : Int := (x + 4095) / 4096

def shmSlot (id : Int) : Nat := (id % SHMMMNI).toNat

def ShmState.setSeg (s : ShmState) (i : Nat) (shp : ShmidDs) : ShmState :=
  { s with segs := Function.update s.segs i shp }

def ShmState.setTable (s : ShmState) (p : Nat) (table : Option (List Shmdesc)) : ShmState :=
  { s with procs := s.procs.set p table }

def ShmState.table (s : ShmState) (p : Nat) : Option (List Shmdesc) := (s.procs[p]?).join

def shmvalid (info : Shminfo) (s : ShmState) (id : Int) : Bool :=
  0 ≤ id ∧ shmSlot id < info.shmmni ∧
    (s.segs (shmSlot id)).seq = id / SHMMMNI ∧ (s.segs (shmSlot id)).mode.alloc ∧
      ¬ (s.segs (shmSlot id)).mode.dest

def ipcaccess (ipc : ShmidDs) (mode : BitVec 16) (cred : Ucred) : Bool :=
  if cred.uid = 0 then true
  else
    let mode := mode &&& 0o700
    let m := ipc.mode.perms
    let m :=
      if cred.uid ≠ ipc.uid ∧ cred.uid ≠ ipc.cuid then
        if ipc.gid ∈ cred.groups ∨ ipc.cgid ∈ cred.groups then m <<< 3 else m <<< 3 <<< 3
      else m
    mode &&& m = mode

def nextSeq (seq : Nat) : Nat :=
  let next : Nat := (seq + 1) % 2 ^ 16
  if wrap32 (next * SHMMMNI : Nat) < 0 then 0 else next

def shmfree (s : ShmState) (i : Nat) : Except ShmPanic ShmState :=
  let shp := s.segs i
  match shp.handle with
  | none => .error .shmfree
  | some _ =>
    .ok { s.setSeg i { shp with handle := none, mode := .zero, seq := nextSeq shp.seq } with
          shmtot := s.shmtot - shmPages shp.segsz }

def shmufree (s : ShmState) (p : Nat) (table : List Shmdesc) (k : Nat) (shmd : Shmdesc) :
    Except ShmPanic ShmState :=
  let i := shmSlot shmd.id
  let shp := s.segs i
  let s := s.setTable p (some (table.set k ⟨0, 0⟩))
  let nattch := wrap16 (shp.nattch - 1)
  let s := s.setSeg i { shp with nattch := nattch }
  if nattch ≤ 0 ∧ shp.mode.dest then shmfree s i else .ok s

structure ShmgetArgs where
  key : Int
  size : Int
  creat : Bool
  excl : Bool
  perms : BitVec 16

/-- A new segment at index `i`; `kva` is what `vm_mmap` answers. -/
def shmcreate (s : ShmState) (p : Nat) (cred : Ucred) (uap : ShmgetArgs) (i : Nat)
    (kva : Option Nat) :
    Except ShmErrno Int × ShmState :=
  let shp := { s.segs i with key := uap.key }
  match kva with
  | none => (.error .enomem, s.setSeg i { shp with mode := .zero })
  | some kva =>
    (.ok (shp.seq * SHMMMNI + i),
      { s.setSeg i { shp with handle := some kva, cuid := cred.uid, uid := cred.uid,
                              cgid := cred.groups.headD 0, gid := cred.groups.headD 0, mode :=
                              ⟨uap.perms &&& 0o777, true, false⟩, segsz := uap.size, cpid :=
                                p, lpid := 0, nattch := 0 } with
        shmtot := s.shmtot + shmPages uap.size })

def shmget (info : Shminfo) (s : ShmState) (p : Nat) (cred : Ucred) (uap : ShmgetArgs)
    (kva : Option Nat) :
    Except ShmErrno Int × ShmState :=
  let found := if uap.key = 0 then none
    else (List.range info.shmmni).find? fun i => (s.segs i).mode.alloc ∧ (s.segs i).key = uap.key
  match found with
  | none =>
    if uap.creat = false then (.error .enoent, s)
    else if uap.size < info.shmmin ∨ uap.size > info.shmmax then (.error .einval, s)
    else
      match (List.range info.shmmni).find? fun i => ¬ (s.segs i).mode.alloc with
      | none => (.error .enospc, s)
      | some i =>
        if s.shmtot + shmPages uap.size > info.shmall then (.error .enomem, s)
        else shmcreate s p cred uap i kva
  | some i =>
    let shp := s.segs i
    if shp.mode.dest then (.error .ebusy, s)
    else if ¬ ipcaccess shp (uap.perms &&& 0o777) cred then (.error .eacces, s)
    else if uap.size ≠ 0 ∧ uap.size > shp.segsz then (.error .einval, s)
    else if uap.creat ∧ uap.excl then (.error .eexist, s)
    else (.ok (shp.seq * SHMMMNI + i), s)

inductive ShmCmd where
  | stat (copied : Bool)
  | set (copied : Option (Nat × Nat × BitVec 16))
  | rmid
  | other

def Denied (cred : Ucred) (shp : ShmidDs) : Prop :=
  cred.uid ≠ 0 ∧ cred.uid ≠ shp.uid ∧ cred.uid ≠ shp.cuid

instance (cred : Ucred) (shp : ShmidDs) : Decidable (Denied cred shp) :=
  inferInstanceAs (Decidable (_ ∧ _))

def shmctl (info : Shminfo) (s : ShmState) (cred : Ucred) (shmid : Int) (cmd : ShmCmd) :
    ShmResult :=
  if ¬ shmvalid info s shmid then .ok (.error .einval, s)
  else
    let i := shmSlot shmid
    let shp := s.segs i
    match cmd with
    | .stat copied =>
      if ¬ ipcaccess shp 0o400 cred then .ok (.error .eacces, s)
      else .ok (if copied then .ok 0 else .error .efault, s)
    | .set copied =>
      if Denied cred shp then .ok (.error .eperm, s)
      else
        match copied with
        | none => .ok (.error .efault, s)
        | some (uid, gid, perms) =>
          .ok (.ok 0, s.setSeg i { shp with uid := uid, gid := gid,
                                            mode := { shp.mode with perms := perms &&& 0o777 } })
    | .rmid =>
      if Denied cred shp then .ok (.error .eperm, s)
      else
        let s := s.setSeg i { shp with key := 0, mode := { shp.mode with dest := true } }
        if shp.nattch ≤ 0 then
          match shmfree s i with
          | .error e => .error e
          | .ok s => .ok (.ok 0, s)
        else .ok (.ok 0, s)
    | .other => .ok (.error .einval, s)

structure ShmatArgs where
  shmid : Int
  shmaddr : Nat
  rdonly : Bool
  rnd : Bool

def SHMLBA : Nat := 4096

def shmat (info : Shminfo) (s : ShmState) (p : Nat) (cred : Ucred) (uap : ShmatArgs)
    (uva : Except ShmErrno Nat) : ShmResult :=
  -- descriptors are allocated before the validity check
  let table := (s.table p).getD (List.replicate info.shmseg ⟨0, 0⟩)
  let s := s.setTable p (some table)
  if ¬ shmvalid info s uap.shmid then .ok (.error .einval, s)
  else
    let i := shmSlot uap.shmid
    let shp := s.segs i
    if shp.handle = none then .error .shmatNullHandle
    else if ¬ ipcaccess shp (if uap.rdonly then 0o400 else 0o600) cred then .ok (.error .eacces, s)
    else if uap.shmaddr ≠ 0 ∧ uap.shmaddr % SHMLBA ≠ 0 ∧ uap.rnd = false then
      .ok (.error .einval, s)
    else
      match table.findIdx? fun shmd => shmd.uva = 0 with
      | none => .ok (.error .emfile, s)
      | some k =>
        match uva with
        | .error errno => .ok (.error errno, s)
        | .ok uva =>
          let s := s.setTable p (some (table.set k ⟨uva, uap.shmid⟩))
          .ok (.ok uva, s.setSeg i { shp with lpid := p, nattch := wrap16 (shp.nattch + 1) })

/-- `shmdt`, which ends without a `return` after a detachment: `left` is what its caller finds then.
-/
def shmdt (s : ShmState) (p : Nat) (shmaddr : Nat) (left : Except ShmErrno Int) : ShmResult :=
  match s.table p with
  | none => .error .noTable
  | some table =>
    match table.findIdx? fun shmd => shmd.uva ≠ 0 ∧ shmd.uva = shmaddr with
    | none => .ok (.error .einval, s)
    | some k =>
      match table[k]? with
      | none => .ok (.error .einval, s)
      | some shmd =>
        match shmufree s p table k shmd with
        | .error e => .error e
        -- the id is 0 by now
        | .ok s => .ok (left, s.setSeg (shmSlot 0) { s.segs (shmSlot 0) with lpid := p })

/-- One attachment more for the segment of each descriptor that is not free. -/
def shmreference (segs : Nat → ShmidDs) : List Shmdesc → Nat → ShmidDs
  | [] => segs
  | shmd :: rest =>
    let i := shmSlot shmd.id
    shmreference
      (if shmd.uva ≠ 0 then
        Function.update segs i { segs i with nattch := wrap16 ((segs i).nattch + 1) }
      else segs) rest

/-- `fork` of process `p`, which calls `shmfork` if it has a table; the new process comes last. -/
def shmfork (s : ShmState) (p : Nat) : ShmState :=
  match s.table p with
  | none => { s with procs := s.procs ++ [none] }
  | some table => { s with procs := s.procs ++ [some table], segs := shmreference s.segs table }

/-- The descriptors of process `p` from `k` on, `n` of them. -/
def shmdetach (s : ShmState) (p : Nat) : Nat → Nat → Except ShmPanic ShmState
  | _, 0 => .ok s
  | k, n + 1 =>
    match s.table p with
    | none => .error .noTable
    | some table =>
      match table[k]? with
      | none => shmdetach s p (k + 1) n
      | some shmd =>
        if shmd.uva ≠ 0 then
          match shmufree s p table k shmd with
          | .error e => .error e
          | .ok s => shmdetach s p (k + 1) n
        else shmdetach s p (k + 1) n

/-- `exit` of process `p`, which calls `shmexit` if it has a table. -/
def shmexit (s : ShmState) (p : Nat) : Except ShmPanic ShmState :=
  match s.table p with
  | none => .ok s
  | some table =>
    match shmdetach s p 0 table.length with
    | .error e => .error e
    | .ok s => .ok (s.setTable p none)

inductive ShmCall where
  | shmget (p : Nat) (cred : Ucred) (uap : ShmgetArgs) (kva : Option Nat)
  | shmctl (cred : Ucred) (shmid : Int) (cmd : ShmCmd)
  | shmat (p : Nat) (cred : Ucred) (uap : ShmatArgs) (uva : Except ShmErrno Nat)
  | shmdt (p : Nat) (shmaddr : Nat) (left : Except ShmErrno Int)
  | shmfork (p : Nat)
  | shmexit (p : Nat)

def shmCall (info : Shminfo) (s : ShmState) : ShmCall → ShmResult
  | .shmget p cred uap kva => .ok (shmget info s p cred uap kva)
  | .shmctl cred shmid cmd => shmctl info s cred shmid cmd
  | .shmat p cred uap uva => shmat info s p cred uap uva
  | .shmdt p shmaddr left => shmdt s p shmaddr left
  | .shmfork p => .ok (.ok 0, shmfork s p)
  | .shmexit p =>
    match shmexit s p with
    | .error e => .error e
    | .ok s => .ok (.ok 0, s)

/-- After `shminit`: no segment, and no process with a table. -/
def Shminit (s : ShmState) : Prop :=
  (∀ i, (s.segs i).mode = .zero ∧ (s.segs i).seq = 0 ∧ (s.segs i).handle = none) ∧
    ∀ table ∈ s.procs, table = none

end Model

section Attached

def live (i : Nat) (shmd : Shmdesc) : Nat := if shmd.uva ≠ 0 ∧ shmSlot shmd.id = i then 1 else 0

def inTable (i : Nat) (table : Option (List Shmdesc)) : Nat := tally (live i) (table.getD [])

def ShmState.attached (s : ShmState) (i : Nat) : Nat := tally (inTable i) s.procs

/-- `shm_nattch` of segment `i` counts its `n` descriptors, and only a segment in use has any. -/
structure CountedAt (info : Shminfo) (i : Nat) (shp : ShmidDs) (n : Nat) : Prop where
  range : shp.mode.alloc = true → i < info.shmmni
  nattch : shp.mode.alloc = true → shp.nattch = n
  unused : shp.mode.alloc = false → n = 0
  dest : shp.mode.alloc = true → shp.mode.dest = true → n ≠ 0
  handle : shp.mode.alloc = true → shp.handle ≠ none
  free : shp.mode.alloc = false → shp.mode = .zero ∧ shp.handle = none
  few : n < 2 ^ 15

def Counted (info : Shminfo) (s : ShmState) :
    Prop := ∀ i, CountedAt info i (s.segs i) (s.attached i)

/-- What a call may do to a segment, when it may mark it to be destroyed. -/
structure EvolvesAt (marked : Prop) (shp shp' : ShmidDs) : Prop where
  freed : shp.mode.alloc = true → shp'.mode.alloc = false →
    (shp.mode.dest = true ∨ marked) ∧ shp'.seq = nextSeq shp.seq
  kept : shp.mode.alloc = true → shp'.mode.alloc = true →
    shp'.seq = shp.seq ∧ (shp'.mode.dest = true ↔ shp.mode.dest = true ∨ marked)
  idle : shp.mode.alloc = false → shp'.seq = shp.seq

def Evolves (marks : Nat → Prop) (s s' : ShmState) :
    Prop := ∀ i, EvolvesAt (marks i) (s.segs i) (s'.segs i)

variable {info : Shminfo} {s s' s'' : ShmState} {i p k : Nat}

theorem table_eq {table : List Shmdesc} (there : s.table p = some table) :
    s.procs[p]? = some (some table) := by
  unfold ShmState.table at there
  cases found : s.procs[p]? with
  | none =>
    rw [found] at there
    cases there
  | some t =>
    rw [found] at there
    exact congrArg some there

theorem attached_setTable {table table' : Option (List Shmdesc)} (there : s.procs[p]? = some table)
    (i : Nat) :
    (s.setTable p table').attached i + inTable i table = s.attached i + inTable i table' :=
  tally_set there

theorem attached_setSeg (s : ShmState) (i : Nat) (shp : ShmidDs) (j : Nat) :
    (s.setSeg i shp).attached j = s.attached j := rfl

@[simp] theorem setSeg_segs (s : ShmState) (i : Nat) (shp : ShmidDs) (j : Nat) :
    (s.setSeg i shp).segs j = if j = i then shp else s.segs j := by
  by_cases here : j = i
  · rw [here, if_pos rfl]
    exact Function.update_self i shp s.segs
  · rw [if_neg here]
    exact Function.update_of_ne here shp s.segs

@[simp] theorem setTable_segs (s : ShmState) (p : Nat) (table : Option (List Shmdesc)) :
    (s.setTable p table).segs = s.segs := rfl

theorem nextSeq_eq (seq : Nat) : nextSeq seq = (seq + 1) % 2 ^ 16 := by
  have small : (seq + 1) % 2 ^ 16 < 2 ^ 16 := Nat.mod_lt _ (by decide)
  have positive : ¬ wrap32 (((seq + 1) % 2 ^ 16 * SHMMMNI : Nat) : Int) < 0 := by
    unfold SHMMMNI
    rw [wrap32_eq (by lia) (by lia)]
    lia
  rw [nextSeq, if_neg positive]

theorem EvolvesAt.same {shp shp' : ShmidDs} (mode : shp'.mode = shp.mode)
    (seq : shp'.seq = shp.seq) :
    EvolvesAt False shp shp' := by
  refine ⟨fun used unused => ?_, fun _ _ => ⟨seq, ?_⟩, fun _ => seq⟩
  · rw [mode] at unused
    exact absurd (used.symm.trans unused) (by rintro ⟨⟩)
  · rw [mode, or_false]

theorem Counted.at (counted : Counted info s) (i : Nat)
    (others : ∀ j, j ≠ i → (s'.segs j) = (s.segs j) ∧ s'.attached j = s.attached j)
    (here : CountedAt info i (s'.segs i) (s'.attached i)) : Counted info s' := by
  intro j
  by_cases same : j = i
  · rw [same]
    exact here
  · obtain ⟨segs, attached⟩ := others j same
    rw [segs, attached]
    exact counted j

theorem Evolves.at {marked : Prop} (i : Nat) (others : ∀ j, j ≠ i → (s'.segs j) = (s.segs j))
    (here : EvolvesAt marked (s.segs i) (s'.segs i)) : Evolves (fun j => j = i ∧ marked) s s' := by
  intro j
  by_cases same : j = i
  · rw [same]
    simpa using here
  · rw [others j same]
    simpa [same] using EvolvesAt.same rfl rfl

structure Drops (s s' : ShmState) : Prop where
  evolves : Evolves (fun _ => False) s s'
  unused : ∀ i, (s.segs i).mode.alloc = false → s'.segs i = s.segs i

theorem Drops.refl (s : ShmState) : Drops s s := ⟨fun _ => .same rfl rfl, fun _ _ => rfl⟩

theorem Drops.trans (first : Drops s s') (second : Drops s' s'') : Drops s s'' := by
  refine ⟨fun i => ?_, fun i unused => ?_⟩
  · obtain ⟨freed, kept, idle⟩ := first.evolves i
    obtain ⟨freed', kept', -⟩ := second.evolves i
    have gone := second.unused i
    refine ⟨fun used unused => ?_, fun used used' => ?_, fun unused => ?_⟩
    · cases between : (s'.segs i).mode.alloc with
      | false =>
        rw [gone between]
        exact freed used between
      | true =>
        obtain ⟨seq, dest⟩ := kept used between
        obtain ⟨marked, seq'⟩ := freed' between unused
        rw [dest, or_false] at marked
        exact ⟨marked, by rw [seq', seq]⟩
    · cases between : (s'.segs i).mode.alloc with
      | false =>
        rw [gone between, between] at used'
        cases used'
      | true =>
        obtain ⟨seq, dest⟩ := kept used between
        obtain ⟨seq', dest'⟩ := kept' between used'
        exact ⟨seq'.trans seq, by rw [dest', dest, or_false]⟩
    · have same := first.unused i unused
      rw [gone (by rw [same]; exact unused), same]
  · have same := first.unused i unused
    rw [second.unused i (by rw [same]; exact unused), same]

/-- One descriptor less, and the segment with it if it was to be destroyed. -/
theorem shmufree_spec {table : List Shmdesc} {shmd : Shmdesc} (counted : Counted info s)
    (there : s.table p = some table) (here : table[k]? = some shmd) (used : shmd.uva ≠ 0) :
    ∃ s', shmufree s p table k shmd = .ok s' ∧ Counted info s' ∧ Drops s s' ∧
      s'.procs = s.procs.set p (some (table.set k ⟨0, 0⟩)) := by
  have place := table_eq there
  have count : ∀ j, (s.setTable p (some (table.set k ⟨0, 0⟩))).attached j + live j shmd =
      s.attached j := by
    intro j
    have outer := @attached_setTable s p _ (some (table.set k ⟨0, 0⟩)) place j
    have inner : inTable j (some (table.set k ⟨0, 0⟩)) + live j shmd = inTable j (some table) :=
      tally_set here
    lia
  have mine : live (shmSlot shmd.id) shmd = 1 := if_pos ⟨used, rfl⟩
  have other : ∀ j, j ≠ shmSlot shmd.id → live j shmd = 0 := fun j other => if_neg fun same =>
    other same.2.symm
  have alloc : (s.segs (shmSlot shmd.id)).mode.alloc = true := by
    by_contra unused
    have none := (counted _).unused (Bool.eq_false_iff.mpr unused)
    have one := count (shmSlot shmd.id)
    lia
  have before := (counted _).nattch alloc
  have few := (counted (shmSlot shmd.id)).few
  have one := count (shmSlot shmd.id)
  have left : wrap16 ((s.segs (shmSlot shmd.id)).nattch - 1) =
      (s.setTable p (some (table.set k ⟨0, 0⟩))).attached (shmSlot shmd.id) := by
    rw [wrap16_eq (by lia) (by lia)]
    lia
  have same : ∀ j, j ≠ shmSlot shmd.id →
      (s.setTable p (some (table.set k ⟨0, 0⟩))).attached j = s.attached j := by
    intro j others
    have here := count j
    have none := other j others
    lia
  unfold shmufree
  dsimp only
  rw [left]
  generalize shmSlot shmd.id = i at *
  have drops : ∀ s', (∀ j, j ≠ i → s'.segs j = s.segs j) → EvolvesAt False (s.segs i) (s'.segs i) →
      Drops s s' := by
    intro s' others here
    refine ⟨by simpa using Evolves.at i others here, fun j unused => others j ?_⟩
    rintro rfl
    exact absurd (alloc.symm.trans unused) (by rintro ⟨⟩)
  split
  · rename_i last
    obtain ⟨kva, handle⟩ := Option.ne_none_iff_exists'.mp ((counted i).handle alloc)
    simp only [shmfree, setSeg_segs, if_true, setTable_segs, handle]
    refine ⟨_, rfl, ?_, ?_, rfl⟩
    · apply counted.at i
      · intro j others
        exact ⟨by simp [others], same j others⟩
      · have none : (s.setTable p (some (table.set k ⟨0, 0⟩))).attached i = 0 := by lia
        simp only [setSeg_segs, if_true]
        exact ⟨(by rintro ⟨⟩), (by rintro ⟨⟩), fun _ => none, (by rintro ⟨⟩), (by rintro ⟨⟩),
          fun _ => ⟨rfl, rfl⟩, none.trans_lt (by decide)⟩
    · apply drops
      · intro j others
        simp [others]
      · simp only [setSeg_segs, if_true]
        refine ⟨fun _ _ => ⟨.inl last.2, by dsimp only⟩, fun _ => (by rintro ⟨⟩), fun unused => ?_⟩
        exact absurd (alloc.symm.trans unused) (by rintro ⟨⟩)
  · rename_i more
    refine ⟨_, rfl, ?_, ?_, rfl⟩
    · apply counted.at i
      · intro j others
        exact ⟨by simp [others], same j others⟩
      · simp only [setSeg_segs, if_true]
        refine ⟨(counted i).range, fun _ => rfl,
          fun unused => absurd (alloc.symm.trans unused) (by rintro ⟨⟩), fun _ dest => ?_,
          (counted i).handle, (counted i).free, ?_⟩
        · intro none
          change (s.setTable p (some (table.set k ⟨0, 0⟩))).attached i = 0 at none
          exact more ⟨by lia, dest⟩
        · show (s.setTable p (some (table.set k ⟨0, 0⟩))).attached i < _
          lia
    · apply drops
      · intro j others
        simp [others]
      · simp only [setSeg_segs, if_true]
        exact EvolvesAt.same rfl rfl

theorem table_of_procs {table : Option (List Shmdesc)} (there : s.procs[p]? = some table) :
    s.table p = table := by
  rw [ShmState.table, there]
  rfl

theorem tally_live_zero {table : List Shmdesc} (free : ∀ shmd ∈ table, shmd.uva = 0) (i : Nat) :
    tally (live i) table = 0 := by
  induction table with
  | nil => rfl
  | cons shmd rest ih =>
    have first : live i shmd = 0 := if_neg fun used => used.1 (free shmd List.mem_cons_self)
    rw [tally_cons, first, ih fun other member => free other (List.mem_cons_of_mem _ member)]

theorem shmdetach_spec (n : Nat) {table : List Shmdesc} (counted : Counted info s)
    (there : s.procs[p]? = some (some table)) (count : table.length ≤ k + n)
    (before : ∀ j shmd, j < k → table[j]? = some shmd → shmd.uva = 0) :
    ∃ s' table', shmdetach s p k n = .ok s' ∧ Counted info s' ∧ Drops s s' ∧
      s'.procs[p]? = some (some table') ∧ ∀ shmd ∈ table', shmd.uva = 0 := by
  induction n generalizing s k table with
  | zero =>
    refine ⟨s, table, rfl, counted, .refl s, there, fun shmd member => ?_⟩
    obtain ⟨j, below, rfl⟩ := List.mem_iff_getElem.mp member
    exact before j _ (by lia) (List.getElem?_eq_getElem below)
  | succ n ih =>
    simp only [shmdetach, table_of_procs there]
    split
    · rename_i past
      have short := List.getElem?_eq_none_iff.mp past
      apply ih counted there (by lia)
      intro j shmd below found
      apply before j shmd _ found
      have inside := (List.getElem?_eq_some_iff.mp found).1
      lia
    · rename_i shmd here
      split
      · rename_i used
        obtain ⟨s', freed, counted', drops, procs⟩ :=
          shmufree_spec counted (table_of_procs there) here used
        have inside : p < s.procs.length := (List.getElem?_eq_some_iff.mp there).1
        have there' : s'.procs[p]? = some (some (table.set k ⟨0, 0⟩)) := by
          rw [procs, List.getElem?_set_self inside]
        obtain ⟨s'', table', rest, counted'', drops', there'', free⟩ :=
          ih counted' there' (by rw [List.length_set]; lia) (k := k + 1) (by
            intro j shmd below found
            rcases Nat.lt_or_ge j k with earlier | later
            · rw [List.getElem?_set_ne (by lia)] at found
              exact before j shmd earlier found
            · have last : j = k := by lia
              rw [last, List.getElem?_set_self (List.getElem?_eq_some_iff.mp here).1] at found
              cases found
              rfl)
        refine ⟨s'', table', ?_, counted'', drops.trans drops', there'', free⟩
        simp only [freed]
        exact rest
      · rename_i free
        apply ih counted there (by lia)
        intro j other below found
        rcases Nat.lt_or_ge j k with earlier | later
        · exact before j other earlier found
        · have last : j = k := by lia
          rw [last, here] at found
          cases found
          lia

theorem attached_swap {table table' : Option (List Shmdesc)} (there : s.procs[p]? = some table)
    (same : ∀ i, inTable i table' = inTable i table) (i : Nat) :
    (s.setTable p table').attached i = s.attached i := by
  have swapped := @attached_setTable s p table table' there i
  have count := same i
  omega

theorem Counted.swap {table table' : Option (List Shmdesc)} (counted : Counted info s)
    (there : s.procs[p]? = some table) (same : ∀ i, inTable i table' = inTable i table) :
    Counted info (s.setTable p table') := by
  intro i
  rw [attached_swap there same]
  exact counted i

theorem shmexit_spec (counted : Counted info s) :
    ∃ s', shmexit s p = .ok s' ∧ Counted info s' ∧ Drops s s' := by
  unfold shmexit
  split
  · exact ⟨s, rfl, counted, .refl s⟩
  · rename_i table there
    obtain ⟨s', table', detached, counted', drops, there', free⟩ :=
      shmdetach_spec (k := 0) table.length counted (table_eq there) (by omega)
        (fun _ _ below => absurd below (Nat.not_lt_zero _))
    simp only [detached]
    refine ⟨_, rfl, counted'.swap there' fun i => ?_, ⟨drops.evolves, drops.unused⟩⟩
    exact (tally_live_zero free i).symm

theorem shmdt_spec {shmaddr : Nat} (left : Except ShmErrno Int) (counted : Counted info s)
    (there : s.table p ≠ none) : ∃ answer s', shmdt s p shmaddr left = .ok (answer, s') ∧
      Counted info s' ∧ Evolves (fun _ => False) s s' := by
  unfold shmdt
  split
  · rename_i missing
    exact absurd missing there
  · rename_i table there
    split
    · exact ⟨_, s, rfl, counted, (Drops.refl s).evolves⟩
    · rename_i k found
      split
      · exact ⟨_, s, rfl, counted, (Drops.refl s).evolves⟩
      · rename_i shmd here
        have used : shmd.uva ≠ 0 := by
          obtain ⟨inside, holds, -⟩ := List.findIdx?_eq_some_iff_getElem.mp found
          rw [List.getElem?_eq_getElem inside] at here
          cases here
          simpa using (decide_eq_true_iff.mp holds).1
        obtain ⟨s', freed, counted', drops, -⟩ := shmufree_spec counted there here used
        simp only [freed]
        refine ⟨_, _, rfl, ?_, ?_⟩
        · intro i
          have here := counted' i
          rw [setSeg_segs]
          split
          · rename_i first
            subst first
            exact ⟨here.range, here.nattch, here.unused, here.dest, here.handle, here.free,
              here.few⟩
          · exact here
        · intro i
          have here := drops.evolves i
          rw [setSeg_segs]
          split
          · rename_i first
            subst first
            exact ⟨here.freed, here.kept, here.idle⟩
          · exact here

theorem wrap16_add (x y : Int) : wrap16 (wrap16 x + y) = wrap16 (x + y) := Int.bmod_add_bmod

theorem shmreference_at (segs : Nat → ShmidDs) (table : List Shmdesc) (i : Nat) :
    shmreference segs table i = { segs i with
      nattch := if tally (live i) table = 0 then (segs i).nattch
        else wrap16 ((segs i).nattch + tally (live i) table) } := by
  induction table generalizing segs with
  | nil => simp [shmreference]
  | cons shmd rest ih =>
    rw [shmreference, ih, tally_cons]
    by_cases mine : shmd.uva ≠ 0 ∧ shmSlot shmd.id = i
    · have one : live i shmd = 1 := if_pos mine
      obtain ⟨used, rfl⟩ := mine
      rw [if_pos used, Function.update_self, one]
      congr 1
      dsimp only
      have more : ¬ 1 + tally (live (shmSlot shmd.id)) rest = 0 := by lia
      by_cases only : tally (live (shmSlot shmd.id)) rest = 0
      · rw [if_pos only, if_neg more, only]
        rfl
      · rw [if_neg only, if_neg more, wrap16_add, Int.add_assoc, Nat.cast_add, Nat.cast_one]
    · have none : live i shmd = 0 := if_neg mine
      have here : (if shmd.uva ≠ 0 then Function.update segs (shmSlot shmd.id)
          { segs (shmSlot shmd.id) with nattch := wrap16 ((segs (shmSlot shmd.id)).nattch + 1) }
          else segs) i = segs i := by
        split
        · rename_i used
          exact Function.update_of_ne (fun same => mine ⟨used, same.symm⟩) _ _
        · rfl
      rw [here, none, Nat.zero_add]

theorem shmreference_eq {segs : Nat → ShmidDs} {table : List Shmdesc}
    (room : tally (live i) table = 0 ∨ 0 ≤ (segs i).nattch ∧
      (segs i).nattch + tally (live i) table < 2 ^ 15) :
    shmreference segs table i =
      { segs i with nattch := (segs i).nattch + tally (live i) table } := by
  rw [shmreference_at]
  by_cases only : tally (live i) table = 0
  · rw [if_pos only, only, Nat.cast_zero, Int.add_zero]
  · have few : wrap16 ((segs i).nattch + tally (live i) table) =
      (segs i).nattch + tally (live i) table := wrap16_eq (by lia) (by lia)
    rw [if_neg only, few]

theorem shmfork_spec (counted : Counted info s)
    (room : ∀ i, s.attached i + inTable i (s.table p) < 2 ^ 15) :
    Counted info (shmfork s p) ∧ Evolves (fun _ => False) s (shmfork s p) := by
  unfold shmfork
  split
  · refine ⟨fun i => ?_, (Drops.refl s).evolves⟩
    have more : tally (inTable i) (s.procs ++ [none]) =
      s.attached i := by simp [ShmState.attached, inTable]
    rw [ShmState.attached, more]
    exact counted i
  · rename_i table there
    rw [there] at room
    have most : ∀ i, tally (live i) table ≤ s.attached i := fun i =>
      @le_tally _ (inTable i) _ _ _ (table_eq there)
    have segs : ∀ i, shmreference s.segs table i =
      { s.segs i with nattch := (s.segs i).nattch + tally (live i) table } := by
      intro i
      apply shmreference_eq
      cases used : (s.segs i).mode.alloc with
      | false =>
        have none := (counted i).unused used
        have few := most i
        lia
      | true =>
        have nattch := (counted i).nattch used
        have room : s.attached i + tally (live i) table < 2 ^ 15 := room i
        lia
    refine ⟨fun i => ?_, fun i => ?_⟩
    · have more : tally (inTable i) (s.procs ++ [some table]) =
          s.attached i + tally (live i) table := by
        simp [ShmState.attached, inTable]
      have room : s.attached i + tally (live i) table < 2 ^ 15 := room i
      have here := counted i
      have few := most i
      rw [ShmState.attached, more]
      dsimp only
      rw [segs]
      refine ⟨here.range, fun used => ?_, fun unused => ?_, fun used dest => ?_, here.handle,
        here.free, room⟩
      · have nattch := here.nattch used
        dsimp only
        lia
      · have none := here.unused unused
        lia
      · have some := here.dest used dest
        lia
    · dsimp only
      rw [segs]
      exact .same rfl rfl

theorem shmSlot_id {seq i : Nat} (below : i < SHMMMNI) :
    shmSlot (seq * SHMMMNI + i) = i ∧ ((seq * SHMMMNI + i : Int) / SHMMMNI) = seq := by
  unfold shmSlot SHMMMNI at *
  lia

theorem Evolves.idle (unused : (s.segs i).mode.alloc = false)
    (others : ∀ j, j ≠ i → s'.segs j = s.segs j) (seq : (s'.segs i).seq = (s.segs i).seq) :
      Evolves (fun _ => False) s s' := by
  have here : EvolvesAt False (s.segs i) (s'.segs i) :=
    ⟨fun used => absurd (used.symm.trans unused) (by rintro ⟨⟩),
      fun used => absurd (used.symm.trans unused) (by rintro ⟨⟩), fun _ => seq⟩
  simpa using Evolves.at i others here

theorem shmcreate_spec (p : Nat) (cred : Ucred) (uap : ShmgetArgs) (kva : Option Nat)
    (counted : Counted info s) (below : i < info.shmmni) (unused : (s.segs i).mode.alloc = false) :
    Counted info (shmcreate s p cred uap i kva).2 ∧
      Evolves (fun _ => False) s (shmcreate s p cred uap i kva).2 := by
  have none := (counted i).unused unused
  obtain ⟨mode, handle⟩ := (counted i).free unused
  unfold shmcreate
  cases kva with
  | none =>
    refine ⟨?_, Evolves.idle unused ?_ (by simp)⟩
    · apply counted.at i
      · intro j others
        exact ⟨by simp [others], rfl⟩
      · simp only [setSeg_segs, if_true, attached_setSeg, none]
        exact ⟨(by rintro ⟨⟩), (by rintro ⟨⟩), fun _ => rfl, (by rintro ⟨⟩), (by rintro ⟨⟩),
          fun _ => ⟨rfl, handle⟩, by decide⟩
    · intro j others
      simp [others]
  | some kva =>
    refine ⟨?_, Evolves.idle unused ?_ (by simp)⟩
    · apply counted.at i
      · intro j others
        exact ⟨by simp [others], rfl⟩
      · have same : (shmcreate s p cred uap i (some kva)).2.attached i = s.attached i := rfl
        simp only [shmcreate, none] at same
        simp only [setSeg_segs, if_true, same]
        exact ⟨fun _ => below, fun _ => rfl, (by rintro ⟨⟩ _), (by rintro _ ⟨⟩), (by rintro _ ⟨⟩),
          (by rintro ⟨⟩ _), by decide⟩
    · intro j others
      simp [others]

theorem shmget_spec (p : Nat) (cred : Ucred) (uap : ShmgetArgs) (kva : Option Nat)
    (counted : Counted info s) :
    Counted info (shmget info s p cred uap kva).2 ∧
      Evolves (fun _ => False) s (shmget info s p cred uap kva).2 ∧
      ∀ id, (shmget info s p cred uap kva).1 = .ok id →
        ∃ i < SHMMMNI, id = ((shmget info s p cred uap kva).2.segs i).seq * SHMMMNI + i := by
  have same := (Drops.refl s).evolves
  unfold shmget
  dsimp only
  split
  · split
    · exact ⟨counted, same, (by rintro _ ⟨⟩)⟩
    · split
      · exact ⟨counted, same, (by rintro _ ⟨⟩)⟩
      · split
        · exact ⟨counted, same, (by rintro _ ⟨⟩)⟩
        · rename_i i found
          have unused : (s.segs i).mode.alloc = false := by simpa using List.find?_some found
          have below : i < info.shmmni := List.mem_range.mp (List.mem_of_find?_eq_some found)
          split
          · exact ⟨counted, same, (by rintro _ ⟨⟩)⟩
          · obtain ⟨counted', evolves⟩ := shmcreate_spec p cred uap kva counted below unused
            refine ⟨counted', evolves, fun id answer => ⟨i, below.trans_le info.few, ?_⟩⟩
            cases kva with
            | none => cases answer
            | some kva =>
              cases answer
              simp [shmcreate]
  · rename_i i found
    have below : i < info.shmmni := by
      split at found
      · cases found
      · exact List.mem_range.mp (List.mem_of_find?_eq_some found)
    repeat' split
    all_goals refine ⟨counted, same, ?_⟩
    · rintro _ ⟨⟩
    · rintro _ ⟨⟩
    · rintro _ ⟨⟩
    · rintro _ ⟨⟩
    · intro id answer
      cases answer
      exact ⟨i, below.trans_le info.few, rfl⟩

def Marks (info : Shminfo) (s : ShmState) (i : Nat) : ShmCall → Prop
  | .shmctl cred shmid .rmid => shmvalid info s shmid ∧ ¬ Denied cred (s.segs (shmSlot shmid)) ∧
    i = shmSlot shmid
  | _ => False

theorem shmvalid_used {id : Int} (valid : shmvalid info s id = true) :
    (s.segs (shmSlot id)).mode.alloc = true ∧ (s.segs (shmSlot id)).mode.dest = false := by
  obtain ⟨-, -, -, used, alive⟩ := decide_eq_true_iff.mp valid
  exact ⟨used, Bool.eq_false_iff.mpr alive⟩

theorem shmctl_spec (cred : Ucred) (shmid : Int) (cmd : ShmCmd) (counted : Counted info s) :
    ∃ answer s', shmctl info s cred shmid cmd = .ok (answer, s') ∧ Counted info s' ∧
      Evolves (fun i => Marks info s i (.shmctl cred shmid cmd)) s s' := by
  have same : ∀ marks : Nat → Prop, (∀ i, ¬ marks i) → Evolves marks s s := by
    intro marks none i
    have no : marks i = False := eq_false (none i)
    rw [no]
    exact .same rfl rfl
  unfold shmctl
  split
  · rename_i invalid
    refine ⟨_, s, rfl, counted, same _ fun i => ?_⟩
    cases cmd with
    | rmid => exact fun marks => invalid marks.1
    | stat | set | other => exact id
  · rename_i valid
    obtain ⟨used, alive⟩ := shmvalid_used (not_not.mp valid)
    have here := counted (shmSlot shmid)
    dsimp only
    cases cmd with
    | stat copied =>
      dsimp only
      split
      · exact ⟨_, s, rfl, counted, same _ fun _ => id⟩
      · exact ⟨_, s, rfl, counted, same _ fun _ => id⟩
    | other => exact ⟨_, s, rfl, counted, same _ fun _ => id⟩
    | set copied =>
      dsimp only
      split
      · exact ⟨_, s, rfl, counted, same _ fun _ => id⟩
      · cases copied with
        | none => exact ⟨_, s, rfl, counted, same _ fun _ => id⟩
        | some ids =>
          refine ⟨_, _, rfl, ?_, ?_⟩
          · apply counted.at (shmSlot shmid)
            · intro j others
              exact ⟨by simp [others], rfl⟩
            · simp only [setSeg_segs, if_true, attached_setSeg]
              refine ⟨here.range, here.nattch, here.unused, here.dest, here.handle,
                fun unused => ?_, here.few⟩
              exact absurd (used.symm.trans unused) (by rintro ⟨⟩)
          · intro j
            rw [setSeg_segs]
            split
            · rename_i this
              subst this
              exact ⟨fun used unused => absurd (used.symm.trans unused) (by rintro ⟨⟩),
                fun _ _ => ⟨rfl, (or_false _).symm ▸ Iff.rfl⟩, fun _ => rfl⟩
            · exact .same rfl rfl
    | rmid =>
      dsimp only
      split
      · rename_i denied
        exact ⟨_, s, rfl, counted, same _ fun _ marks => marks.2.1 denied⟩
      · rename_i granted
        have marks : ∀ i, Marks info s i (.shmctl cred shmid .rmid) = (i = shmSlot shmid) :=
          fun i =>
          propext ⟨fun marks => marks.2.2, fun this => ⟨not_not.mp valid, granted, this⟩⟩
        simp only [marks]
        have nattch := here.nattch used
        split
        · rename_i last
          have none : s.attached (shmSlot shmid) = 0 := by omega
          obtain ⟨kva, handle⟩ := Option.ne_none_iff_exists'.mp (here.handle used)
          simp only [shmfree, setSeg_segs, if_true, handle]
          refine ⟨_, _, rfl, ?_, ?_⟩
          · apply counted.at (shmSlot shmid)
            · intro j others
              exact ⟨by simp [others], rfl⟩
            · simp only [setSeg_segs, if_true]
              exact ⟨(by rintro ⟨⟩), (by rintro ⟨⟩), fun _ => none, (by rintro ⟨⟩), (by rintro ⟨⟩),
                fun _ => ⟨rfl, rfl⟩, none.trans_lt (by decide)⟩
          · intro j
            by_cases this : j = shmSlot shmid
            · subst this
              simp only [setSeg_segs, if_true]
              refine ⟨fun _ _ => ⟨.inr trivial, by dsimp only⟩, fun _ => (by rintro ⟨⟩),
                fun unused => ?_⟩
              exact absurd (used.symm.trans unused) (by rintro ⟨⟩)
            · simp only [setSeg_segs, this, if_false]
              exact .same rfl rfl
        · rename_i more
          refine ⟨_, _, rfl, ?_, ?_⟩
          · apply counted.at (shmSlot shmid)
            · intro j others
              exact ⟨by simp [others], rfl⟩
            · simp only [setSeg_segs, if_true, attached_setSeg]
              refine ⟨here.range, here.nattch, here.unused,
                fun _ _ => by omega, here.handle, fun unused => ?_, here.few⟩
              exact absurd (used.symm.trans unused) (by rintro ⟨⟩)
          · intro j
            by_cases this : j = shmSlot shmid
            · subst this
              simp only [setSeg_segs, if_true]
              exact ⟨fun used unused => absurd (used.symm.trans unused) (by rintro ⟨⟩),
                fun _ _ => ⟨rfl, by simp⟩, fun _ => rfl⟩
            · simp only [setSeg_segs, this, if_false]
              exact .same rfl rfl

def ShmState.descriptors (info : Shminfo) (s : ShmState) (p : Nat) : List Shmdesc :=
  (s.table p).getD (List.replicate info.shmseg ⟨0, 0⟩)

/-- Nothing is in the way of the attachment but `vm_mmap`. -/
def Attaches (info : Shminfo) (s : ShmState) (p : Nat) (cred : Ucred) (uap : ShmatArgs) : Prop :=
  shmvalid info s uap.shmid ∧
    ipcaccess (s.segs (shmSlot uap.shmid)) (if uap.rdonly then 0o400 else 0o600) cred ∧
    (uap.shmaddr ≠ 0 → uap.shmaddr % SHMLBA ≠ 0 → uap.rnd = true) ∧ ∃ shmd ∈ s.descriptors info p,
      shmd.uva = 0

instance (info : Shminfo) (s : ShmState) (p : Nat) (cred : Ucred) (uap : ShmatArgs) :
    Decidable (Attaches info s p cred uap) := inferInstanceAs (Decidable (_ ∧ _ ∧ _ ∧ _))

theorem inTable_descriptors {table : Option (List Shmdesc)} (there : s.procs[p]? = some table)
    (i : Nat) :
    inTable i (some (s.descriptors info p)) = inTable i table := by
  unfold ShmState.descriptors
  rw [table_of_procs there]
  cases table with
  | none =>
    apply tally_live_zero
    intro shmd member
    rw [List.eq_of_mem_replicate member]
  | some table => rfl

theorem attach_spec {table : List Shmdesc} {shmd : Shmdesc} {uva : Nat} {id : Int}
    (counted : Counted info s) (there : s.procs[p]? = some (some table))
    (here : table[k]? = some shmd) (free : shmd.uva = 0) (mapped : uva ≠ 0)
    (used : (s.segs (shmSlot id)).mode.alloc = true) (room : s.attached (shmSlot id) + 1 < 2 ^ 15) :
    let s' := (s.setTable p (some (table.set k ⟨uva, id⟩))).setSeg (shmSlot id)
      { s.segs (shmSlot id) with lpid := p, nattch := wrap16 ((s.segs (shmSlot id)).nattch + 1) }
    Counted info s' ∧ Evolves (fun _ => False) s s' := by
  have count : ∀ j, (s.setTable p (some (table.set k ⟨uva, id⟩))).attached j =
      s.attached j + live j ⟨uva, id⟩ := by
    intro j
    have outer := @attached_setTable s p _ (some (table.set k ⟨uva, id⟩)) there j
    have inner : inTable j (some (table.set k ⟨uva, id⟩)) + live j shmd =
        inTable j (some table) + live j ⟨uva, id⟩ :=
      tally_set here
    have none : live j shmd = 0 := if_neg fun used => used.1 free
    lia
  have one : live (shmSlot id) ⟨uva, id⟩ = 1 := if_pos ⟨mapped, rfl⟩
  have before := counted (shmSlot id)
  have nattch := before.nattch used
  have more := count (shmSlot id)
  have grown : wrap16 ((s.segs (shmSlot id)).nattch + 1) = (s.segs (shmSlot id)).nattch + 1 :=
    wrap16_eq (by lia) (by lia)
  dsimp only
  refine ⟨?_, ?_⟩
  · apply counted.at (shmSlot id)
    · intro j others
      refine ⟨by simp [others], ?_⟩
      have none : live j ⟨uva, id⟩ = 0 := if_neg fun same => others same.2.symm
      rw [attached_setSeg, count, none, Nat.add_zero]
    · rw [attached_setSeg, more, one, grown]
      simp only [setSeg_segs, if_true]
      refine ⟨before.range, fun _ => ?_,
        fun unused => absurd (used.symm.trans unused) (by rintro ⟨⟩),
        fun _ _ => by lia, before.handle, before.free, room⟩
      dsimp only
      lia
  · intro j
    rw [setSeg_segs]
    split
    · rename_i this
      subst this
      exact .same rfl rfl
    · exact .same rfl rfl

theorem shmat_spec (cred : Ucred) (uap : ShmatArgs) (uva : Except ShmErrno Nat)
    (counted : Counted info s) (present : p < s.procs.length) (mapped : uva ≠ .ok 0)
    (room : uva.isOk = true → Attaches info s p cred uap →
      s.attached (shmSlot uap.shmid) + 1 < 2 ^ 15) :
    ∃ answer s', shmat info s p cred uap uva = .ok (answer, s') ∧ Counted info s' ∧
      Evolves (fun _ => False) s s' := by
  have place := List.getElem?_eq_getElem present
  have counted' : Counted info (s.setTable p (some (s.descriptors info p))) :=
    counted.swap place (inTable_descriptors place)
  have same : Evolves (fun _ => False) s (s.setTable p (some (s.descriptors info p))) :=
    (Drops.refl s).evolves
  have there : (s.setTable p (some (s.descriptors info p))).procs[p]? =
      some (some (s.descriptors info p)) :=
    List.getElem?_set_self present
  have attached := attached_swap place (@inTable_descriptors info s p _ place) (shmSlot uap.shmid)
  have room : uva.isOk = true → Attaches info s p cred uap →
      (s.setTable p (some (s.descriptors info p))).attached (shmSlot uap.shmid) + 1 < 2 ^ 15 := by
    rw [attached]
    exact room
  have evolves : ∀ s', Evolves (fun _ => False) (s.setTable p (some (s.descriptors info p))) s' →
      Evolves (fun _ => False) s s' := fun _ rest => rest
  change uva.isOk = true → shmvalid info (s.setTable p (some (s.descriptors info p))) uap.shmid ∧
    ipcaccess ((s.setTable p (some (s.descriptors info p))).segs (shmSlot uap.shmid)) _ cred ∧ _ →
      _ at room
  change ∃ answer s',
    (if ¬ shmvalid info (s.setTable p (some (s.descriptors info p))) uap.shmid then _ else _) = _ ∧
    _ ∧ _
  unfold ShmState.descriptors at *
  generalize (s.table p).getD (List.replicate info.shmseg ⟨0, 0⟩) = table at *
  generalize s.setTable p (some table) = s₁ at *
  generalize (if uap.rdonly = true then (0o400 : BitVec 16) else 0o600) = mode at room ⊢
  split
  · exact ⟨_, _, rfl, counted', same⟩
  · rename_i valid
    obtain ⟨used, alive⟩ := shmvalid_used (not_not.mp valid)
    dsimp only
    rw [if_neg ((counted' (shmSlot uap.shmid)).handle used)]
    split
    · exact ⟨_, _, rfl, counted', same⟩
    · rename_i granted
      split
      · exact ⟨_, _, rfl, counted', same⟩
      · rename_i aligned
        split
        · exact ⟨_, _, rfl, counted', same⟩
        · rename_i k found
          cases uva with
          | error errno => exact ⟨_, _, rfl, counted', same⟩
          | ok uva =>
            obtain ⟨inside, free, -⟩ := List.findIdx?_eq_some_iff_getElem.mp found
            have free := decide_eq_true_iff.mp free
            have aligned : uap.shmaddr ≠ 0 → uap.shmaddr % SHMLBA ≠ 0 → uap.rnd = true :=
              fun some unaligned =>
              Bool.not_eq_false _ ▸ fun fixed => aligned ⟨some, unaligned, fixed⟩
            have room := room rfl
              ⟨not_not.mp valid, not_not.mp granted, aligned, _, List.getElem_mem inside, free⟩
            obtain ⟨counted'', rest⟩ :=
              attach_spec counted' there (List.getElem?_eq_getElem inside) free
                (fun none => mapped (congrArg Except.ok none)) used room
            exact ⟨_, _, rfl, counted'', evolves _ rest⟩

end Attached

section Runs

def Sound (s : ShmState) : ShmCall → Prop
  | .shmat p _ _ uva => p < s.procs.length ∧ uva ≠ .ok 0
  | _ => True

instance (s : ShmState) (call : ShmCall) : Decidable (Sound s call) :=
  match call with
  | .shmat _ _ _ _ => inferInstanceAs (Decidable (_ ∧ _))
  | .shmget _ _ _ _ | .shmctl _ _ _ | .shmdt _ _ _ | .shmfork _ | .shmexit _ =>
    inferInstanceAs (Decidable True)

/-- No segment gets more attachments than a `short` counts, and a process that detaches has
descriptors. -/
def Room (info : Shminfo) (s : ShmState) : ShmCall → Prop
  | .shmat p cred uap uva =>
    uva.isOk = true → Attaches info s p cred uap → s.attached (shmSlot uap.shmid) < 32767
  | .shmfork p => ∀ i, s.attached i + inTable i (s.table p) ≤ 32767
  | .shmdt p _ _ => s.table p ≠ none
  | _ => True

structure ShmTrail where
  state : ShmState
  frees : Nat → Nat

structure ShmStep (info : Shminfo) (t : ShmTrail) (call : ShmCall) (t' : ShmTrail) : Prop where
  sound : Sound t.state call
  done : ∃ answer, shmCall info t.state call = .ok (answer, t'.state)
  frees : ∀ i, t'.frees i =
    t.frees i +
      if (t.state.segs i).mode.alloc = true ∧ (t'.state.segs i).mode.alloc = false then 1 else 0

structure RoomyStep (info : Shminfo) (t : ShmTrail) (call : ShmCall) (t' : ShmTrail) :
    Prop extends ShmStep info t call t' where
  room : Room info t.state call

structure Freed (shp shp' : ShmidDs) : Prop where
  mode : shp'.mode = .zero
  handle : shp'.handle = none
  seq : shp'.seq = nextSeq shp.seq

variable {info : Shminfo} {s s' : ShmState} {t t' : ShmTrail} {calls : List ShmCall}

theorem shmCall_spec {call : ShmCall} (counted : Counted info s) (sound : Sound s call)
    (room : Room info s call) :
    ∃ answer s', shmCall info s call = .ok (answer, s') ∧ Counted info s' ∧
      Evolves (fun i => Marks info s i call) s s' := by
  cases call with
  | shmget p cred uap kva =>
    obtain ⟨counted', evolves, -⟩ := shmget_spec p cred uap kva counted
    exact ⟨_, _, rfl, counted', evolves⟩
  | shmctl cred shmid cmd => exact shmctl_spec cred shmid cmd counted
  | shmat p cred uap uva =>
    apply shmat_spec cred uap uva counted sound.1 sound.2
    intro mapped attaches
    have few := room mapped attaches
    omega
  | shmdt p shmaddr left => exact shmdt_spec left counted room
  | shmfork p =>
    obtain ⟨counted', evolves⟩ := shmfork_spec counted (fun i => Nat.lt_succ_of_le (room i))
    exact ⟨_, _, rfl, counted', evolves⟩
  | shmexit p =>
    obtain ⟨s', exited, counted', drops⟩ := @shmexit_spec info s p counted
    refine ⟨.ok 0, s', ?_, counted', drops.evolves⟩
    simp only [shmCall, exited]

theorem freed_iff {marked : Prop} {shp shp' : ShmidDs} {i n : Nat}
    (counted : CountedAt info i shp' n) (evolves : EvolvesAt marked shp shp')
    (used : shp.mode.alloc = true) :
    (Freed shp shp' ↔ (shp.mode.dest = true ∨ marked) ∧ n = 0) ∧
      (shp'.mode.alloc = false → Freed shp shp') := by
  have gone : shp'.mode.alloc = false → Freed shp shp' := fun unused =>
    ⟨(counted.free unused).1, (counted.free unused).2, (evolves.freed used unused).2⟩
  refine ⟨⟨fun freed => ?_, fun ⟨destroyed, last⟩ => ?_⟩, gone⟩
  · have unused : shp'.mode.alloc = false := by
      rw [freed.mode]
      rfl
    exact ⟨(evolves.freed used unused).1, counted.unused unused⟩
  · apply gone
    by_contra used'
    have used' := Bool.not_eq_false _ ▸ used'
    exact counted.dest used' ((evolves.kept used used').2.mpr destroyed) last

structure ShmInv (info : Shminfo) (t : ShmTrail) : Prop where
  counted : Counted info t.state
  seq : ∀ i, (t.state.segs i).seq = t.frees i % 65536

theorem shmInv_init (initial : Shminit t.state) (none : t.frees = fun _ => 0) : ShmInv info t := by
  obtain ⟨segs, procs⟩ := initial
  have empty : ∀ i, t.state.attached i = 0 := by
    intro i
    unfold ShmState.attached
    generalize t.state.procs = tables at procs
    induction tables with
    | nil => rfl
    | cons table rest ih =>
      rw [tally_cons, ih fun other member => procs other (List.mem_cons_of_mem _ member),
        procs table List.mem_cons_self]
      rfl
  refine ⟨fun i => ?_, fun i => ?_⟩
  · obtain ⟨mode, -, handle⟩ := segs i
    have unused : ¬ (t.state.segs i).mode.alloc = true := by
      rw [mode]
      rintro ⟨⟩
    rw [empty i]
    exact ⟨fun used => absurd used unused, fun used => absurd used unused, fun _ => rfl,
      fun used => absurd used unused, fun used => absurd used unused, fun _ =>
      ⟨mode, handle⟩, by decide⟩
  · rw [(segs i).2.1, none]
    rfl

theorem shmInv_step {call : ShmCall} (step : RoomyStep info t call t') (inv : ShmInv info t) :
    ShmInv info t' := by
  obtain ⟨answer, done⟩ := step.done
  obtain ⟨_, _, done', counted, evolves⟩ := shmCall_spec inv.counted step.sound step.room
  rw [done] at done'
  cases done'
  refine ⟨counted, fun i => ?_⟩
  have before := inv.seq i
  rw [step.frees]
  cases used : (t.state.segs i).mode.alloc with
  | false =>
    rw [(evolves i).idle used, before]
    simp
  | true =>
    cases used' : (t'.state.segs i).mode.alloc with
    | false =>
      rw [((evolves i).freed used used').2, nextSeq_eq, before]
      simp
    | true =>
      rw [((evolves i).kept used used').1, before]
      simp

theorem shmInv_run (run : Run (RoomyStep info) t calls t') (inv : ShmInv info t) :
    ShmInv info t' := by
  induction run with
  | nil => exact inv
  | cons step _ ih => exact ih (shmInv_step step inv)

/-- An id from `shmget` is not valid after its segment has been freed, until the numbers come round.
-/
theorem shmvalid_later {p : Nat} {cred : Ucred} {uap : ShmgetArgs} {kva : Option Nat} {id : Int}
    {t'' : ShmTrail} (inv : ShmInv info t) (step : RoomyStep info t (.shmget p cred uap kva) t')
    (got : shmget info t.state p cred uap kva = (.ok id, t'.state))
    (run : Run (RoomyStep info) t' calls t'')
    (freed : t'.frees (shmSlot id) < t''.frees (shmSlot id))
    (few : t''.frees (shmSlot id) < t'.frees (shmSlot id) + 65536) :
    shmvalid info t''.state id = false := by
  obtain ⟨-, -, answers⟩ := shmget_spec p cred uap kva inv.counted
  rw [got] at answers
  obtain ⟨i, below, made⟩ := answers id rfl
  obtain ⟨slot, number⟩ := @shmSlot_id (t'.state.segs i).seq i below
  rw [← made] at slot number
  have inv' := shmInv_step step inv
  have before := inv'.seq i
  have after := (shmInv_run run inv').seq i
  rw [slot] at freed few
  rw [← Bool.not_eq_true]
  intro valid
  obtain ⟨-, -, seq, -, -⟩ := decide_eq_true_iff.mp valid
  rw [number, slot] at seq
  lia

/-- Shared memory is counted right, over every run that leaves room to count: a segment in use
has its number of attachments, it is freed when it is to be destroyed and has none left, and
an id is not valid once its segment has been freed. -/
theorem shm_counted {start : ShmTrail} (initial : Shminit start.state)
    (unfreed : start.frees = fun _ => 0) (run : Run (RoomyStep info) start calls t) :
    (∀ i, (t.state.segs i).mode.alloc = true → (t.state.segs i).nattch = t.state.attached i) ∧
      (∀ call, Sound t.state call → Room info t.state call →
        ∃ answer s', shmCall info t.state call = .ok (answer, s') ∧
          ∀ i, (t.state.segs i).mode.alloc = true →
            (Freed (t.state.segs i) (s'.segs i) ↔
              ((t.state.segs i).mode.dest = true ∨ Marks info t.state i call) ∧ s'.attached i = 0) ∧
            ((s'.segs i).mode.alloc = false → Freed (t.state.segs i) (s'.segs i))) ∧
      ∀ p cred uap kva id t' calls' t'', RoomyStep info t (.shmget p cred uap kva) t' →
        shmget info t.state p cred uap kva = (.ok id, t'.state) →
          Run (RoomyStep info) t' calls' t'' →
        t'.frees (shmSlot id) < t''.frees (shmSlot id) →
          t''.frees (shmSlot id) < t'.frees (shmSlot id) + 65536 →
        shmvalid info t''.state id = false := by
  have inv := shmInv_run run (shmInv_init initial unfreed)
  refine ⟨fun i => (inv.counted i).nattch, fun call sound room => ?_, ?_⟩
  · obtain ⟨answer, s', done, counted, evolves⟩ := shmCall_spec inv.counted sound room
    exact ⟨answer, s', done, fun i => freed_iff (counted i) (evolves i)⟩
  · intro p cred uap kva id t' calls' t'' step got later freed few
    exact shmvalid_later inv step got later freed few

def shminfoDefault : Shminfo := ⟨512 * 4096, 1, 32, 8, 512, by decide⟩

def shmBoot :
    ShmTrail := ⟨⟨fun _ => ⟨0, 0, 0, 0, .zero, 0, 0, 0, 0, 0, 0, none⟩, [none], 0⟩, fun _ => 0⟩

theorem shmBoot_init : Shminit shmBoot.state := ⟨fun _ => ⟨rfl, rfl, rfl⟩, by decide⟩

def attach (k : Nat) :
    ShmCall := .shmat 0 ⟨0, [0]⟩ ⟨0, 0, false, false⟩ (.ok (0x1000000 + 4096 * k))

def shmTrail (info : Shminfo) (t : ShmTrail) (call : ShmCall) : Option ShmTrail :=
  match shmCall info t.state call with
  | .error _ => none
  | .ok (_, s') =>
    if Sound t.state call then
      some ⟨s', fun i => t.frees i +
        if (t.state.segs i).mode.alloc = true ∧ (s'.segs i).mode.alloc = false then 1 else 0⟩
    else none

theorem shmTrail_step {call : ShmCall} (found : shmTrail info t call = some t') :
    ShmStep info t call t' := by
  unfold shmTrail at found
  split at found
  · cases found
  · rename_i answer s' done
    split at found
    · rename_i sound
      cases found
      exact ⟨sound, ⟨answer, done⟩, fun _ => rfl⟩
    · cases found

def half : List ShmCall :=
  [.shmget 0 ⟨0, [0]⟩ ⟨7, 4096, true, false, 0o600⟩ (some 0), attach 0, attach 1,
    .shmctl ⟨0, [0]⟩ 0 .rmid, .shmdt 0 0x1000000 (.ok 0)]

/-- A test of `Room`, which asks too much of `shmfork`. -/
def roomy (s : ShmState) : ShmCall → Bool
  | .shmat _ _ uap _ => s.attached (shmSlot uap.shmid) < 32767
  | .shmdt p _ _ => (s.table p).isSome
  | .shmfork _ => false
  | _ => true

theorem roomy_room {call : ShmCall} (fine : roomy s call = true) : Room info s call := by
  cases call with
  | shmat p cred uap uva => exact fun _ _ => decide_eq_true_iff.mp fine
  | shmdt p shmaddr left => exact Option.isSome_iff_ne_none.mp fine
  | shmfork p => cases fine
  | shmget | shmctl | shmexit => trivial

theorem shm_counted_half : ∃ t, Run (RoomyStep shminfoDefault) shmBoot half t ∧
    (t.state.segs 0).mode.dest = true ∧ (t.state.segs 0).nattch = 1 ∧ t.state.attached 0 = 1 := by
  have found :
      ((replay (fun t call => if roomy t.state call then shmTrail shminfoDefault t call else none)
      shmBoot half).any
      fun t => (t.state.segs 0).mode.alloc && (t.state.segs 0).mode.dest &&
        decide (t.state.attached 0 = 1)) = true := by
    decide +kernel
  obtain ⟨t, replayed, counts⟩ := (Option.any_eq_true _ _).mp found
  have run : Run (RoomyStep shminfoDefault) shmBoot half t := by
    apply replay_run _ replayed
    intro t call t' found
    split at found
    · rename_i fine
      exact ⟨shmTrail_step found, roomy_room fine⟩
    · cases found
  simp only [Bool.and_eq_true, decide_eq_true_eq] at counts
  obtain ⟨⟨used, dest⟩, one⟩ := counts
  have counted := (shm_counted shmBoot_init rfl run).1 0 used
  exact ⟨t, run, dest, by omega, one⟩

theorem shmreference_wraps {segs : Nat → ShmidDs} {table : List Shmdesc} {i : Nat} {x : Int}
    (before : (segs i).nattch = wrap16 x) :
    (shmreference segs table i).nattch = wrap16 (x + tally (live i) table) ∧
      (shmreference segs table i).mode = (segs i).mode := by
  rw [shmreference_at]
  refine ⟨?_, rfl⟩
  dsimp only
  by_cases only : tally (live i) table = 0
  · rw [if_pos only, only, before]
    exact congrArg wrap16 (Int.add_zero x).symm
  · rw [if_neg only, before, wrap16_add]

def eight : List ShmCall :=
  .shmget 0 ⟨0, [0]⟩ ⟨7, 4096, true, false, 0o600⟩ (some 0) :: (List.range 8).map attach

/-- Segment 0 with eight attachments in each of `n` processes. -/
def Crowded (table : List Shmdesc) (n : Nat) (t : ShmTrail) : Prop :=
  t.state.table 0 = some table ∧ tally (live 0) table = 8 ∧ t.state.attached 0 = 8 * n ∧
    (t.state.segs 0).mode.alloc = true ∧ (t.state.segs 0).nattch = wrap16 (8 * n : Nat)

theorem forks_crowd {table : List Shmdesc} (n : Nat) (crowded : Crowded table 1 t) :
    ∃ calls t', Run (ShmStep info) t calls t' ∧ Crowded table (n + 1) t' := by
  induction n with
  | zero => exact ⟨[], t, .nil t, crowded⟩
  | succ n ih =>
    obtain ⟨calls, t', run, there, few, attached, used, nattch⟩ := ih
    obtain ⟨nattch', mode⟩ := @shmreference_wraps t'.state.segs table 0 _ nattch
    have step := @shmTrail_step info t' _ (.shmfork 0) rfl
    refine ⟨calls ++ [.shmfork 0], _, run.append (.cons step (.nil _)), ?_⟩
    simp only [Crowded, shmfork, there]
    refine ⟨?_, few, ?_, by rw [mode]; exact used, ?_⟩
    · rw [← there]
      have place := table_eq there
      simp only [ShmState.table]
      rw [List.getElem?_append_left (List.getElem?_eq_some_iff.mp place).1]
    · have more : tally (inTable 0) (t'.state.procs ++ [some table]) =
          t'.state.attached 0 + tally (live 0) table := by
        simp [ShmState.attached, inTable]
      rw [ShmState.attached, more]
      omega
    · rw [nattch', few]
      congr 1

/-- Eight attachments in each of 4096 processes are more than a `short` counts. -/
theorem shm_uncounted : ¬ ∀ (info : Shminfo) (start t : ShmTrail) (calls : List ShmCall),
    Shminit start.state →
    start.frees = (fun _ => 0) → Run (ShmStep info) start calls t →
    ∀ i, (t.state.segs i).mode.alloc = true → (t.state.segs i).nattch = t.state.attached i := by
  intro claim
  have found : ((replay (shmTrail shminfoDefault) shmBoot eight).any fun t =>
      decide ((t.state.table 0).any (fun table => tally (live 0) table = 8)) &&
        decide (t.state.attached 0 = 8) &&
        (t.state.segs 0).mode.alloc && decide ((t.state.segs 0).nattch = 8)) = true := by
    decide +kernel
  obtain ⟨t, replayed, counts⟩ := (Option.any_eq_true _ _).mp found
  have run : Run (ShmStep shminfoDefault) shmBoot eight t :=
    replay_run (fun _ _ _ => shmTrail_step) replayed
  simp only [Bool.and_eq_true, decide_eq_true_eq] at counts
  obtain ⟨⟨⟨table, attached⟩, used⟩, nattch⟩ := counts
  obtain ⟨table, there, few⟩ := (Option.any_eq_true _ _).mp table
  have crowded : Crowded table 1 t := ⟨there, of_decide_eq_true few, attached, used, nattch⟩
  obtain ⟨calls, t', more, -, -, attached', used', nattch'⟩ :=
    @forks_crowd shminfoDefault t table 4095 crowded
  have counted := claim shminfoDefault shmBoot t' (eight ++ calls) shmBoot_init rfl
    (run.append more) 0 used'
  rw [nattch', attached'] at counted
  exact absurd counted (by decide)

end Runs

end FreeBsd.Kern
