import FreeBsd.Kern.SysvShm
import FreeBsd.Lib.Extents
import Mathlib.Algebra.BigOperators.Ring.Finset

/-! Calls of `shmget` that sleep while others go on, and the limit on shared memory. -/
namespace FreeBsd.Kern

open FreeBsd.Lib

section Model

/-- `shmget` up to the call of `malloc`: an answer, or the slot of the new segment. -/
def shmbegin (info : Shminfo) (s : ShmState) (cred : Ucred) (uap : ShmgetArgs) :
    Except ShmErrno Int ⊕ Nat :=
  let found := if uap.key = 0 then none
    else (List.range info.shmmni).find? fun i => (s.segs i).mode.alloc ∧ (s.segs i).key = uap.key
  match found with
  | none =>
    if uap.creat = false then .inl (.error .enoent)
    else if uap.size < info.shmmin ∨ uap.size > info.shmmax then .inl (.error .einval)
    else
      match (List.range info.shmmni).find? fun i => ¬ (s.segs i).mode.alloc with
      | none => .inl (.error .enospc)
      | some i => if s.shmtot + shmPages uap.size > info.shmall then .inl (.error .enomem) else .inr
        i
  | some i =>
    let shp := s.segs i
    if shp.mode.dest then .inl (.error .ebusy)
    else if ¬ ipcaccess shp (uap.perms &&& 0o777) cred then .inl (.error .eacces)
    else if uap.size ≠ 0 ∧ uap.size > shp.segsz then .inl (.error .einval)
    else if uap.creat ∧ uap.excl then .inl (.error .eexist)
    else .inl (.ok (shp.seq * SHMMMNI + i))

def shmmark (s : ShmState) (i : Nat) (uap : ShmgetArgs) : ShmState :=
  s.setSeg i { s.segs i with mode := ⟨0, true, true⟩, key := uap.key }

/-- A call of `shmget` that sleeps, and the address in `shm_map` that `vm_mmap` has found for it. -/
structure Creation where
  p : Nat
  cred : Ucred
  uap : ShmgetArgs
  kva : Option Nat

structure ShmMap (info : Shminfo) where
  room : Extent
  whole : (room.length : Int) = 4096 * info.shmall

structure ShmRace where
  state : ShmState
  pending : Nat → Option Creation

def shmExtent (kva : Nat) (size : Int) : Extent := ⟨kva, 4096 * (shmPages size).toNat⟩

def ShmRace.held (r : ShmRace) (i : Nat) : Extent :=
  match (r.state.segs i).handle with
  | some kva => shmExtent kva (r.state.segs i).segsz
  | none =>
    match r.pending i with
    | some ⟨_, _, uap, some kva⟩ => shmExtent kva uap.size
    | _ => ⟨0, 0⟩

inductive ShmEvent where
  | begin (p : Nat) (cred : Ucred) (uap : ShmgetArgs)
  /-- `vm_mmap` finds memory. -/
  | mapped (i kva : Nat)
  | finish (i : Nat)
  /-- `vm_mmap` fails. -/
  | fail (i : Nat)
  /-- A call that does not sleep before it changes a segment. -/
  | call (call : ShmCall)

def ShmCall.sleeps : ShmCall → Bool
  | .shmget _ _ _ _ => true
  | .shmctl _ _ _ | .shmat _ _ _ _ | .shmdt _ _ _ | .shmfork _ | .shmexit _ => false

def raceStep (info : Shminfo) (map : ShmMap info) (r : ShmRace) : ShmEvent → Option ShmRace
  | .begin p cred uap =>
    match shmbegin info r.state cred uap with
    | .inl _ => some r
    | .inr i => some ⟨shmmark r.state i uap, Function.update r.pending i (some ⟨p, cred, uap,
      none⟩)⟩
  | .mapped i kva =>
    match r.pending i with
    | some ⟨p, cred, uap, none⟩ =>
      if (shmExtent kva uap.size).Within map.room ∧ ∀ j < SHMMMNI, (shmExtent kva uap.size).Apart
        (r.held j) then
        some ⟨r.state, Function.update r.pending i (some ⟨p, cred, uap, some kva⟩)⟩
      else none
    | _ => none
  | .finish i =>
    match r.pending i with
    | some ⟨p, cred, uap, some kva⟩ =>
      some ⟨(shmcreate r.state p cred uap i (some kva)).2, Function.update r.pending i none⟩
    | _ => none
  | .fail i =>
    match r.pending i with
    | some ⟨p, cred, uap, none⟩ => some ⟨(shmcreate r.state p cred uap i none).2,
      Function.update r.pending i none⟩
    | _ => none
  | .call call =>
    if call.sleeps then none
    else
      match shmCall info r.state call with
      | .error _ => none
      | .ok (_, s) => some ⟨s, r.pending⟩

variable {info : Shminfo} {s : ShmState} {p i : Nat} {cred : Ucred} {uap : ShmgetArgs}

theorem shmget_eq (kva : Option Nat) : shmget info s p cred uap kva =
    match shmbegin info s cred uap with
    | .inl answer => (answer, s)
    | .inr i => shmcreate s p cred uap i kva := by
  unfold shmget shmbegin
  dsimp only
  generalize (if uap.key = 0 then none
    else (List.range info.shmmni).find? fun i => (s.segs i).mode.alloc ∧ (s.segs i).key = uap.key) =
      found
  generalize ((List.range info.shmmni).find? fun i => ¬ (s.segs i).mode.alloc) = free
  cases found with
  | none =>
    cases free with
    | none =>
      dsimp only
      split
      · rfl
      · split
        · rfl
        · rfl
    | some i =>
      dsimp only
      split
      · rfl
      · split
        · rfl
        · split
          · rfl
          · rfl
  | some i =>
    dsimp only
    split
    · rfl
    · split
      · rfl
      · split
        · rfl
        · split
          · rfl
          · rfl

theorem shmcreate_mark (kva : Option Nat) :
    shmcreate (shmmark s i uap) p cred uap i kva = shmcreate s p cred uap i kva := by
  have mark :
    (shmmark s i uap).segs i = { s.segs i with mode := ⟨0, true, true⟩, key := uap.key } :=
    Function.update_self ..
  unfold shmcreate
  rw [mark]
  cases kva with
  | none => simp [shmmark, ShmState.setSeg]
  | some kva => simp [shmmark, ShmState.setSeg]

end Model

section Limit

variable {info : Shminfo} {map : ShmMap info} {s s' s'' : ShmState} {r r' : ShmRace} {i j p k : Nat}
    {cred : Ucred}
  {uap : ShmgetArgs}

def madePages (shp : ShmidDs) : Int := if shp.handle ≠ none then shmPages shp.segsz else 0

def ShmState.madePages (s : ShmState) : Int := ∑ i ∈ Finset.range SHMMMNI, Kern.madePages (s.segs i)

def Keeps (shp shp' : ShmidDs) : Prop :=
  shp'.segsz = shp.segsz ∧
    (shp'.handle = shp.handle ∧ shp'.mode.alloc = shp.mode.alloc ∨
      shp.handle ≠ none ∧ shp'.handle = none ∧ shp'.mode.alloc = false)

/-- Segments are kept or freed, and `shmtot` goes with them. -/
structure Spares (s s' : ShmState) : Prop where
  segs : ∀ i, Keeps (s.segs i) (s'.segs i)
  total : s'.shmtot - s'.madePages = s.shmtot - s.madePages

theorem Keeps.refl (shp : ShmidDs) : Keeps shp shp := ⟨rfl, .inl ⟨rfl, rfl⟩⟩

theorem Keeps.trans {shp shp' shp'' : ShmidDs} (first : Keeps shp shp')
    (second : Keeps shp' shp'') : Keeps shp shp'' := by
  obtain ⟨size, first⟩ := first
  obtain ⟨size', second⟩ := second
  refine ⟨size'.trans size, ?_⟩
  rcases first with ⟨handle, alloc⟩ | ⟨some, none, unused⟩
  · rw [← handle, ← alloc]
    exact second
  · rcases second with ⟨handle, alloc⟩ | ⟨some', -⟩
    · exact .inr ⟨some, handle.trans none, alloc.trans unused⟩
    · exact absurd none some'

theorem Keeps.pages {shp shp' : ShmidDs} (size : shp'.segsz = shp.segsz)
    (handle : shp'.handle = shp.handle) :
    madePages shp' = madePages shp := by
  rw [madePages, madePages, size, handle]

theorem Spares.refl (s : ShmState) : Spares s s := ⟨fun _ => .refl _, rfl⟩

theorem Spares.trans (first : Spares s s') (second : Spares s' s'') : Spares s s'' :=
  ⟨fun i => (first.segs i).trans (second.segs i), second.total.trans first.total⟩

theorem madePages_setSeg (below : i < SHMMMNI) (shp : ShmidDs) :
    (s.setSeg i shp).madePages + madePages (s.segs i) = s.madePages + madePages shp := by
  unfold ShmState.madePages
  have member : i ∈ Finset.range SHMMMNI := Finset.mem_range.mpr below
  have others : ∑ j ∈ (Finset.range SHMMMNI).erase i, madePages ((s.setSeg i shp).segs j) =
      ∑ j ∈ (Finset.range SHMMMNI).erase i, madePages (s.segs j) := by
    apply Finset.sum_congr rfl
    intro j inside
    rw [setSeg_segs, if_neg (Finset.ne_of_mem_erase inside)]
  rw [← Finset.add_sum_erase _ _ member, ← Finset.add_sum_erase _ (fun j => madePages (s.segs j))
    member, others, setSeg_segs, if_pos rfl]
  omega

theorem shmSlot_lt (id : Int) : shmSlot id < SHMMMNI := by
  unfold shmSlot SHMMMNI
  omega

theorem Spares.setSeg {shp : ShmidDs} (below : i < SHMMMNI) (size : shp.segsz = (s.segs i).segsz)
    (handle : shp.handle = (s.segs i).handle) (alloc : shp.mode.alloc = (s.segs i).mode.alloc) :
      Spares s (s.setSeg i shp) := by
  constructor
  · intro j
    rw [setSeg_segs]
    split
    · rename_i here
      rw [here]
      exact ⟨size, .inl ⟨handle, alloc⟩⟩
    · exact .refl _
  · have pages := @madePages_setSeg s i below shp
    rw [Keeps.pages size handle] at pages
    have same : (s.setSeg i shp).shmtot = s.shmtot := rfl
    omega

theorem Spares.setTable (s : ShmState) (p : Nat) (table : Option (List Shmdesc)) :
    Spares s (s.setTable p table) :=
  ⟨fun _ => .refl _, rfl⟩

theorem shmfree_spares (below : i < SHMMMNI) (done : shmfree s i = .ok s') : Spares s s' := by
  unfold shmfree at done
  dsimp only at done
  split at done
  · cases done
  · rename_i kva handle
    cases done
    have some : (s.segs i).handle ≠ none := by
      rw [handle]
      exact (by rintro ⟨⟩)
    constructor
    · intro j
      dsimp only
      rw [setSeg_segs]
      split
      · rename_i here
        rw [here]
        exact ⟨rfl, .inr ⟨some, rfl, rfl⟩⟩
      · exact .refl _
    · have pages := @madePages_setSeg s i below
        { s.segs i with handle := none, mode := .zero, seq := nextSeq (s.segs i).seq }
      have before : madePages (s.segs i) = shmPages (s.segs i).segsz := if_pos some
      have after :
        madePages { s.segs i with handle := none, mode := .zero, seq := nextSeq (s.segs i).seq } =
        0 :=
        if_neg (not_not.mpr rfl)
      rw [before, after] at pages
      unfold ShmState.madePages at pages ⊢
      dsimp only at pages ⊢
      omega

theorem shmufree_spares {table : List Shmdesc} {shmd : Shmdesc}
    (done : shmufree s p table k shmd = .ok s') : Spares s s' := by
  have slot := shmSlot_lt shmd.id
  unfold shmufree at done
  generalize shmSlot shmd.id = i at *
  dsimp only at done
  have first : Spares s ((s.setTable p (some (table.set k ⟨0, 0⟩))).setSeg i
      { s.segs i with nattch := wrap16 ((s.segs i).nattch - 1) }) :=
    (Spares.setTable s p _).trans (.setSeg slot rfl rfl rfl)
  split at done
  · exact first.trans (shmfree_spares slot done)
  · cases done
    exact first

theorem shmdetach_spares (n : Nat) (done : shmdetach s p k n = .ok s') : Spares s s' := by
  induction n generalizing s k with
  | zero =>
    cases done
    exact .refl _
  | succ n ih =>
    rw [shmdetach] at done
    split at done
    · cases done
    · split at done
      · exact ih done
      · split at done
        · split at done
          · cases done
          · rename_i freed
            exact (shmufree_spares freed).trans (ih done)
        · exact ih done

theorem shmexit_spares (done : shmexit s p = .ok s') : Spares s s' := by
  unfold shmexit at done
  split at done
  · cases done
    exact .refl _
  · rename_i table _
    split at done
    · cases done
    · rename_i detached
      cases done
      exact (shmdetach_spares table.length detached).trans (.setTable _ p none)

theorem shmdt_spares {shmaddr : Nat} {left answer : Except ShmErrno Int}
    (done : shmdt s p shmaddr left = .ok (answer, s')) :
    Spares s s' := by
  unfold shmdt at done
  split at done
  · cases done
  · split at done
    · cases done
      exact .refl _
    · split at done
      · cases done
        exact .refl _
      · split at done
        · cases done
        · rename_i freed
          cases done
          exact (shmufree_spares freed).trans (.setSeg (shmSlot_lt 0) rfl rfl rfl)

theorem shmctl_spares {shmid : Int} {cmd : ShmCmd} {answer : Except ShmErrno Int}
    (done : shmctl info s cred shmid cmd = .ok (answer, s')) : Spares s s' := by
  have slot := shmSlot_lt shmid
  unfold shmctl at done
  split at done
  · cases done
    exact .refl _
  · generalize shmSlot shmid = i at *
    dsimp only at done
    cases cmd with
    | stat copied =>
      dsimp only at done
      split at done
      · cases done
        exact .refl _
      · cases done
        exact .refl _
    | set copied =>
      dsimp only at done
      split at done
      · cases done
        exact .refl _
      · split at done
        · cases done
          exact .refl _
        · cases done
          exact .setSeg slot rfl rfl rfl
    | rmid =>
      have marked :
        Spares s (s.setSeg i { s.segs i with key := 0,
                                             mode := { (s.segs i).mode with dest := true } }) :=
        .setSeg slot rfl rfl rfl
      dsimp only at done
      split at done
      · cases done
        exact .refl _
      · split at done
        · split at done
          · cases done
          · rename_i freed
            cases done
            exact marked.trans (shmfree_spares slot freed)
        · cases done
          exact marked
    | other =>
      cases done
      exact .refl _

theorem shmat_spares {uap : ShmatArgs} {uva : Except ShmErrno Nat} {answer : Except ShmErrno Int}
    (done : shmat info s p cred uap uva = .ok (answer, s')) : Spares s s' := by
  have slot := shmSlot_lt uap.shmid
  unfold shmat at done
  dsimp only at done
  generalize shmSlot uap.shmid = i at *
  generalize (s.table p).getD (List.replicate info.shmseg ⟨0, 0⟩) = table at *
  generalize (if uap.rdonly = true then (0o400 : BitVec 16) else 0o600) = mode at done
  have first : Spares s (s.setTable p (some table)) := .setTable s p _
  split at done
  · cases done
    exact first
  · split at done
    · cases done
    · split at done
      · cases done
        exact first
      · split at done
        · cases done
          exact first
        · split at done
          · cases done
            exact first
          · split at done
            · cases done
              exact first
            · cases done
              exact (first.trans (.setTable _ p _)).trans (.setSeg slot rfl rfl rfl)

theorem shmreference_segs (segs : Nat → ShmidDs) (table : List Shmdesc) (i : Nat) :
    ∃ nattch, shmreference segs table i = { segs i with nattch := nattch } := by
  induction table generalizing segs with
  | nil => exact ⟨(segs i).nattch, rfl⟩
  | cons shmd rest ih =>
    rw [shmreference]
    dsimp only
    split
    · obtain ⟨nattch, same⟩ := ih (Function.update segs (shmSlot shmd.id)
        { segs (shmSlot shmd.id) with nattch := wrap16 ((segs (shmSlot shmd.id)).nattch + 1) })
      rw [same]
      by_cases here : i = shmSlot shmd.id
      · rw [here, Function.update_self]
        exact ⟨nattch, rfl⟩
      · rw [Function.update_of_ne here]
        exact ⟨nattch, rfl⟩
    · exact ih segs

theorem shmfork_spares (s : ShmState) (p : Nat) : Spares s (shmfork s p) := by
  unfold shmfork
  split
  · exact ⟨fun _ => .refl _, rfl⟩
  · rename_i table _
    refine ⟨fun i => ?_, ?_⟩
    · obtain ⟨nattch, same⟩ := shmreference_segs s.segs table i
      dsimp only
      rw [same]
      exact ⟨rfl, .inl ⟨rfl, rfl⟩⟩
    · have same : ∀ i ∈ Finset.range SHMMMNI, madePages (shmreference s.segs table i) =
          madePages (s.segs i) := by
        intro i _
        obtain ⟨nattch, same⟩ := shmreference_segs s.segs table i
        rw [same]
        exact Keeps.pages rfl rfl
      unfold ShmState.madePages
      rw [Finset.sum_congr rfl same]

theorem shmCall_spares {call : ShmCall} {answer : Except ShmErrno Int} (other : ¬ call.sleeps)
    (done : shmCall info s call = .ok (answer, s')) : Spares s s' := by
  cases call with
  | shmget p cred uap kva => exact absurd rfl other
  | shmctl cred shmid cmd => exact shmctl_spares done
  | shmat p cred uap uva => exact shmat_spares done
  | shmdt p shmaddr left => exact shmdt_spares done
  | shmfork p =>
    cases done
    exact shmfork_spares s p
  | shmexit p =>
    unfold shmCall at done
    dsimp only at done
    split at done
    · cases done
    · rename_i exited
      cases done
      exact shmexit_spares exited

theorem shmbegin_free (found : shmbegin info s cred uap = .inr i) :
    i < SHMMMNI ∧ (s.segs i).mode.alloc = false := by
  unfold shmbegin at found
  dsimp only at found
  split at found
  · split at found
    · cases found
    · split at found
      · cases found
      · split at found
        · cases found
        · rename_i i free
          split at found
          · cases found
          · cases found
            have below := List.mem_range.mp (List.mem_of_find?_eq_some free)
            have unused := List.find?_some free
            exact ⟨below.trans_le info.few, Bool.eq_false_iff.mpr (of_decide_eq_true unused)⟩
  · split at found
    · cases found
    · split at found
      · cases found
      · split at found
        · cases found
        · split at found
          · cases found
          · cases found

/-- `shmtot` counts the finished segments. Of a slot only the handle or a sleeping call has memory,
and no memory is held twice. -/
structure RaceInv (map : ShmMap info) (r : ShmRace) : Prop where
  total : r.state.shmtot = r.state.madePages
  unused : ∀ i, (r.state.segs i).mode.alloc = false → (r.state.segs i).handle = none ∧
    r.pending i = none
  asleep : ∀ i, r.pending i ≠ none → i < SHMMMNI ∧ (r.state.segs i).handle = none
  made : ∀ i, (r.state.segs i).mode.alloc = true → r.pending i = none →
    (r.state.segs i).handle ≠ none
  within : ∀ i, (r.held i).Within map.room
  apart : ∀ i < SHMMMNI, ∀ j < SHMMMNI, i ≠ j → (r.held i).Apart (r.held j)

theorem held_of_made {kva : Nat} (handle : (r.state.segs i).handle = some kva) :
    r.held i = shmExtent kva (r.state.segs i).segsz := by
  rw [ShmRace.held, handle]

theorem held_of_none (handle : (r.state.segs i).handle = none) (pending : r.pending i = none) :
    r.held i = ⟨0, 0⟩ := by
  rw [ShmRace.held, handle, pending]

theorem held_of_pending {kva : Nat} (handle : (r.state.segs i).handle = none)
    (pending : r.pending i = some ⟨p, cred, uap, some kva⟩) :
    r.held i = shmExtent kva uap.size := by
  rw [ShmRace.held, handle, pending]

theorem held_of_asleep (handle : (r.state.segs i).handle = none)
    (pending : r.pending i = some ⟨p, cred, uap, none⟩) :
    r.held i = ⟨0, 0⟩ := by
  rw [ShmRace.held, handle, pending]

theorem held_congr (segs : r'.state.segs i = r.state.segs i)
    (pending : r'.pending i = r.pending i) : r'.held i = r.held i := by
  rw [ShmRace.held, segs, pending]
  rfl

theorem within_empty (room : Extent) : (⟨0, 0⟩ : Extent).Within room := .inl rfl

theorem apart_empty (x : Extent) : (⟨0, 0⟩ : Extent).Apart x := .inl rfl

theorem RaceInv.at (inv : RaceInv map r) (i : Nat)
    (segs : ∀ j, j ≠ i → r'.state.segs j = r.state.segs j)
    (pending : ∀ j, j ≠ i → r'.pending j = r.pending j)
    (total : r'.state.shmtot = r'.state.madePages)
    (unused : (r'.state.segs i).mode.alloc = false → (r'.state.segs i).handle = none ∧
    r'.pending i = none)
    (asleep : r'.pending i ≠ none → i < SHMMMNI ∧ (r'.state.segs i).handle = none)
    (made : (r'.state.segs i).mode.alloc = true → r'.pending i = none →
      (r'.state.segs i).handle ≠ none)
    (within : (r'.held i).Within map.room)
    (apart : ∀ j < SHMMMNI, j ≠ i → (r'.held i).Apart (r.held j)) : RaceInv map r' := by
  have others : ∀ j, j ≠ i → r'.held j = r.held j :=
    fun j other => held_congr (segs j other) (pending j other)
  refine ⟨total, fun j => ?_, fun j => ?_, fun j => ?_, fun j => ?_, fun j inJ k inK other => ?_⟩
  · by_cases here : j = i
    · rw [here]
      exact unused
    · rw [segs j here, pending j here]
      exact inv.unused j
  · by_cases here : j = i
    · rw [here]
      exact asleep
    · rw [segs j here, pending j here]
      exact inv.asleep j
  · by_cases here : j = i
    · rw [here]
      exact made
    · rw [segs j here, pending j here]
      exact inv.made j
  · by_cases here : j = i
    · rw [here]
      exact within
    · rw [others j here]
      exact inv.within j
  · by_cases first : j = i
    · rw [first] at other ⊢
      rw [others k (Ne.symm other)]
      exact apart k inK (Ne.symm other)
    · rw [others j first]
      by_cases second : k = i
      · rw [second]
        exact (apart j inJ first).symm
      · rw [others k second]
        exact inv.apart j inJ k inK other

theorem madePages_same {shp : ShmidDs} (below : i < SHMMMNI)
    (same : madePages shp = madePages (s.segs i)) :
    (s.setSeg i shp).madePages = s.madePages := by
  have pages := @madePages_setSeg s i below shp
  omega

theorem begun_inv (inv : RaceInv map r) (found : shmbegin info r.state cred uap = .inr i) :
    RaceInv map ⟨shmmark r.state i uap, Function.update r.pending i (some ⟨p, cred, uap,
      none⟩)⟩ := by
  obtain ⟨below, alloc⟩ := shmbegin_free found
  obtain ⟨handle, pending⟩ := inv.unused i alloc
  have here : (shmmark r.state i uap).segs i = { r.state.segs i with mode := ⟨0, true, true⟩,
                                                                     key := uap.key } :=
    Function.update_self ..
  have empty : (⟨shmmark r.state i uap, Function.update r.pending i (some ⟨p, cred, uap, none⟩)⟩ :
      ShmRace).held i = ⟨0, 0⟩ := by
    apply held_of_asleep
    · dsimp only
      rw [here]
      exact handle
    · exact Function.update_self ..
  apply inv.at i
  · exact fun j other => Function.update_of_ne other _ _
  · exact fun j other => Function.update_of_ne other _ _
  · have same := @madePages_same r.state i { r.state.segs i with mode := ⟨0, true, true⟩,
                                                                 key := uap.key } below
      (Keeps.pages rfl rfl)
    exact inv.total.trans same.symm
  · intro unused
    dsimp only at unused
    rw [here] at unused
    cases unused
  · intro _
    dsimp only
    rw [here]
    exact ⟨below, handle⟩
  · intro _ none
    dsimp only at none
    rw [Function.update_self] at none
    cases none
  · rw [empty]
    exact within_empty _
  · rw [empty]
    exact fun j _ _ => apart_empty _

theorem mapped_inv {kva : Nat} (inv : RaceInv map r)
    (pending : r.pending i = some ⟨p, cred, uap, none⟩)
    (within : (shmExtent kva uap.size).Within map.room)
    (apart : ∀ j < SHMMMNI, (shmExtent kva uap.size).Apart (r.held j)) :
    RaceInv map ⟨r.state, Function.update r.pending i (some ⟨p, cred, uap, some kva⟩)⟩ := by
  obtain ⟨below, handle⟩ := inv.asleep i (by rw [pending]; exact (by rintro ⟨⟩))
  have memory :
      (⟨r.state, Function.update r.pending i (some ⟨p, cred, uap, some kva⟩)⟩ : ShmRace).held i =
      shmExtent kva uap.size := held_of_pending handle (Function.update_self ..)
  apply inv.at i
  · exact fun _ _ => rfl
  · exact fun j other => Function.update_of_ne other _ _
  · exact inv.total
  · intro unused
    have none := (inv.unused i unused).2
    rw [pending] at none
    cases none
  · exact fun _ => ⟨below, handle⟩
  · intro _ none
    dsimp only at none
    rw [Function.update_self] at none
    cases none
  · rw [memory]
    exact within
  · rw [memory]
    exact fun j inJ _ => apart j inJ

theorem finish_inv {kva : Nat} (inv : RaceInv map r)
    (pending : r.pending i = some ⟨p, cred, uap, some kva⟩) :
    RaceInv map ⟨(shmcreate r.state p cred uap i (some kva)).2,
      Function.update r.pending i none⟩ := by
  obtain ⟨below, handle⟩ := inv.asleep i (by rw [pending]; exact (by rintro ⟨⟩))
  have before := held_of_pending handle pending
  obtain ⟨shp, segs, new, size, alloc⟩ : ∃ shp, (shmcreate r.state p cred uap i (some kva)).2.segs =
      Function.update r.state.segs i shp ∧ shp.handle = some kva ∧ shp.segsz = uap.size ∧
        shp.mode.alloc = true :=
    ⟨_, rfl, rfl, rfl, rfl⟩
  have shmtot : (shmcreate r.state p cred uap i (some kva)).2.shmtot =
      r.state.shmtot + shmPages uap.size := rfl
  have here : (shmcreate r.state p cred uap i (some kva)).2.segs i = shp := by
    rw [segs]
    exact Function.update_self ..
  have after : (⟨(shmcreate r.state p cred uap i (some kva)).2, Function.update r.pending i none⟩ :
      ShmRace).held i =
      shmExtent kva uap.size := by
    have made := @held_of_made ⟨(shmcreate r.state p cred uap i (some kva)).2,
      Function.update r.pending i none⟩ i kva
    dsimp only at made
    rw [here] at made
    rw [made new, size]
  apply inv.at i
  · intro j other
    dsimp only
    rw [segs]
    exact Function.update_of_ne other _ _
  · exact fun j other => Function.update_of_ne other _ _
  · have pages := @madePages_setSeg r.state i below shp
    have old : madePages (r.state.segs i) = 0 := if_neg (not_not.mpr handle)
    have got : madePages shp = shmPages uap.size := by
      rw [madePages, new, size, if_pos (by rintro ⟨⟩)]
    have same : (shmcreate r.state p cred uap i (some kva)).2.madePages =
        (r.state.setSeg i shp).madePages := by
      unfold ShmState.madePages
      rw [segs]
      rfl
    have total := inv.total
    dsimp only
    rw [shmtot, same]
    lia
  · intro unused
    dsimp only at unused
    rw [here, alloc] at unused
    cases unused
  · intro pending
    dsimp only at pending
    rw [Function.update_self] at pending
    exact absurd rfl pending
  · intro _ _
    dsimp only
    rw [here, new]
    exact (by rintro ⟨⟩)
  · rw [after, ← before]
    exact inv.within i
  · rw [after, ← before]
    exact fun j inJ other => inv.apart i below j inJ (Ne.symm other)

theorem fail_inv (inv : RaceInv map r) (pending : r.pending i = some ⟨p, cred, uap, none⟩) :
    RaceInv map ⟨(shmcreate r.state p cred uap i none).2, Function.update r.pending i none⟩ := by
  obtain ⟨below, handle⟩ := inv.asleep i (by rw [pending]; exact (by rintro ⟨⟩))
  have here : (shmcreate r.state p cred uap i none).2.segs i =
    { r.state.segs i with key := uap.key, mode := .zero } :=
    Function.update_self ..
  have empty :
      (⟨(shmcreate r.state p cred uap i none).2, Function.update r.pending i none⟩ : ShmRace).held
      i = ⟨0, 0⟩ := by
    apply held_of_none
    · dsimp only
      rw [here]
      exact handle
    · exact Function.update_self ..
  apply inv.at i
  · exact fun j other => Function.update_of_ne other _ _
  · exact fun j other => Function.update_of_ne other _ _
  · have same := @madePages_same r.state i { r.state.segs i with key := uap.key, mode := .zero }
      below (Keeps.pages rfl rfl)
    exact inv.total.trans same.symm
  · intro _
    dsimp only
    rw [here]
    exact ⟨handle, Function.update_self ..⟩
  · intro pending
    dsimp only at pending
    rw [Function.update_self] at pending
    exact absurd rfl pending
  · intro used
    dsimp only at used
    rw [here] at used
    cases used
  · rw [empty]
    exact within_empty _
  · rw [empty]
    exact fun j _ _ => apart_empty _

theorem call_inv (inv : RaceInv map r) (spares : Spares r.state s) :
    RaceInv map ⟨s, r.pending⟩ := by
  have total : s.shmtot = s.madePages := by
    have same := spares.total
    have before := inv.total
    omega
  -- a slot has its memory still, or it was freed
  have held : ∀ j, (⟨s, r.pending⟩ : ShmRace).held j = r.held j ∨
      (⟨s, r.pending⟩ : ShmRace).held j = ⟨0, 0⟩ := by
    intro j
    obtain ⟨size, ⟨handle, -⟩ | ⟨some, none, -⟩⟩ := spares.segs j
    · left
      unfold ShmRace.held
      dsimp only
      rw [handle, size]
    · right
      apply held_of_none none
      by_contra pending
      exact some (inv.asleep j pending).2
  refine ⟨total, fun j => ?_, fun j => ?_, fun j => ?_, fun j => ?_, fun j inJ k inK other => ?_⟩
  · obtain ⟨-, ⟨handle, alloc⟩ | ⟨some, none, -⟩⟩ := spares.segs j
    · dsimp only
      rw [handle, alloc]
      exact inv.unused j
    · refine fun _ => ⟨none, ?_⟩
      by_contra pending
      exact some (inv.asleep j pending).2
  · obtain ⟨-, ⟨handle, alloc⟩ | ⟨some, none, -⟩⟩ := spares.segs j
    · dsimp only
      rw [handle]
      exact inv.asleep j
    · exact fun pending => ⟨(inv.asleep j pending).1, none⟩
  · obtain ⟨-, ⟨handle, alloc⟩ | ⟨some, none, unused⟩⟩ := spares.segs j
    · dsimp only
      rw [handle, alloc]
      exact inv.made j
    · dsimp only
      rw [unused]
      exact (by rintro ⟨⟩)
  · rcases held j with same | empty
    · rw [same]
      exact inv.within j
    · rw [empty]
      exact within_empty _
  · rcases held j with same | empty
    · rw [same]
      rcases held k with same | empty
      · rw [same]
        exact inv.apart j inJ k inK other
      · rw [empty]
        exact (apart_empty _).symm
    · rw [empty]
      exact apart_empty _

theorem raceStep_inv {event : ShmEvent} (inv : RaceInv map r)
    (step : raceStep info map r event = some r') : RaceInv map r' := by
  cases event with
  | begin p cred uap =>
    rw [raceStep] at step
    split at step
    · cases step
      exact inv
    · rename_i i found
      cases step
      exact begun_inv inv found
  | mapped i kva =>
    rw [raceStep] at step
    split at step
    · rename_i p cred uap pending
      split at step
      · rename_i fits
        cases step
        exact mapped_inv inv pending fits.1 fits.2
      · cases step
    · cases step
  | finish i =>
    rw [raceStep] at step
    split at step
    · rename_i pending
      cases step
      exact finish_inv inv pending
    · cases step
  | fail i =>
    rw [raceStep] at step
    split at step
    · rename_i pending
      cases step
      exact fail_inv inv pending
    · cases step
  | call call =>
    rw [raceStep] at step
    split at step
    · cases step
    · rename_i other
      split at step
      · cases step
      · rename_i done
        cases step
        exact call_inv inv (shmCall_spares other done)

structure RaceInit (r : ShmRace) : Prop where
  start : Shminit r.state
  shmtot : r.state.shmtot = 0
  pending : ∀ i, r.pending i = none

theorem raceInit_inv (initial : RaceInit r) : RaceInv map r := by
  have handle : ∀ i, (r.state.segs i).handle = none := fun i => (initial.start.1 i).2.2
  have empty : ∀ i, r.held i = ⟨0, 0⟩ := fun i => held_of_none (handle i) (initial.pending i)
  refine ⟨?_, fun i _ => ⟨handle i, initial.pending i⟩,
    fun i pending => absurd (initial.pending i) pending, fun i used => ?_, fun i => ?_,
    fun i _ j _ _ => ?_⟩
  · rw [initial.shmtot, ShmState.madePages, Finset.sum_eq_zero]
    exact fun i _ => if_neg (not_not.mpr (handle i))
  · rw [(initial.start.1 i).1] at used
    cases used
  · rw [empty]
    exact within_empty _
  · rw [empty]
    exact apart_empty _

def ShmRace.created (r : ShmRace) : Finset Nat :=
  (Finset.range SHMMMNI).filter fun i => (r.state.segs i).mode.alloc = true ∧ r.pending i = none

theorem madePages_created (inv : RaceInv map r) :
    r.state.madePages = ∑ i ∈ r.created, shmPages (r.state.segs i).segsz := by
  rw [ShmState.madePages, ShmRace.created, Finset.sum_filter]
  apply Finset.sum_congr rfl
  intro i _
  unfold madePages
  congr 1
  apply propext
  constructor
  · intro some
    cases used : (r.state.segs i).mode.alloc with
    | false => exact absurd (inv.unused i used).1 some
    | true =>
      refine ⟨rfl, ?_⟩
      by_contra pending
      exact some (inv.asleep i pending).2
  · exact fun created => inv.made i created.1 created.2

theorem madePages_le (inv : RaceInv map r) : r.state.madePages ≤ info.shmall := by
  have room := Extent.sum_length_le (Finset.range SHMMMNI) r.held (fun i _ => inv.within i)
    (fun i inI j inJ other => inv.apart i (Finset.mem_range.mp inI) j (Finset.mem_range.mp inJ)
      other)
  have each : ∀ i ∈ Finset.range SHMMMNI, 4096 * madePages (r.state.segs i) ≤
      ((r.held i).length : Int) := by
    intro i _
    unfold madePages
    cases handle : (r.state.segs i).handle with
    | none =>
      rw [if_neg (not_not.mpr rfl)]
      lia
    | some kva =>
      rw [if_pos (by rintro ⟨⟩), held_of_made handle]
      unfold shmExtent
      dsimp only
      lia
  have total := Finset.sum_le_sum each
  have whole := map.whole
  rw [← Finset.mul_sum, ← Nat.cast_sum] at total
  unfold ShmState.madePages
  lia

/-- In every run, whatever sleeps and wakes, `shmtot` is the sum over the finished segments, and the
limit holds. -/
theorem shm_limit {start : ShmRace} {events : List ShmEvent} (initial : RaceInit start)
    (run : Run (fun r event r' => raceStep info map r event = some r') start events r) :
    r.state.shmtot = ∑ i ∈ r.created, shmPages (r.state.segs i).segsz ∧
      r.state.shmtot ≤ info.shmall := by
  have steps : ∀ r event r', True → RaceInv map r → raceStep info map r event = some r' →
      RaceInv map r' := fun r event r' _ inv step => raceStep_inv inv step
  have inv : RaceInv map r := @Run.invariant _ _ _ (RaceInv map) (fun _ => True) steps _ _ _ run
    (fun _ _ => trivial) (raceInit_inv initial)
  rw [inv.total]
  exact ⟨madePages_created inv, madePages_le inv⟩

def shmMapDefault : ShmMap shminfoDefault := ⟨⟨0xf0000000, 0x200000⟩, by decide⟩

def crossing : List ShmEvent :=
  [.begin 0 ⟨0, [0]⟩ ⟨7, 0x100000, true, false, 0o600⟩, .begin 0 ⟨0, [0]⟩ ⟨8, 0x180000, true, false,
    0o600⟩, .mapped 1 0xf0080000, .finish 1, .fail 0]

theorem shm_limit_crossing :
    ∃ r, Run (fun r event r' => raceStep shminfoDefault shmMapDefault r event = some r')
    ⟨shmBoot.state, fun _ => none⟩ crossing r ∧ (r.state.segs 1).mode.alloc = true ∧
      r.state.shmtot ≤ 512 := by
  have found :
      ((replay (raceStep shminfoDefault shmMapDefault) ⟨shmBoot.state, fun _ => none⟩ crossing).any
      fun r =>
      (r.state.segs 1).mode.alloc) = true := by
    decide +kernel
  obtain ⟨r, replayed, used⟩ := (Option.any_eq_true _ _).mp found
  have run : Run (fun r event r' => raceStep shminfoDefault shmMapDefault r event = some r')
      ⟨shmBoot.state, fun _ => none⟩
      crossing r := replay_run (fun _ _ _ step => step) replayed
  exact ⟨r, run, used, (shm_limit ⟨shmBoot_init, rfl, fun _ => rfl⟩ run).2⟩

end Limit

end FreeBsd.Kern
