import FreeBsd.Kern.SysvShm

/-! Which segments `shmdt` touches. -/
namespace FreeBsd.Kern

open FreeBsd.Lib

section Detach

variable {s s' : ShmState} {p i j k shmaddr : Nat} {table : List Shmdesc} {shmd : Shmdesc}
  {left : Except ShmErrno Int}

/-- The descriptor that `shmdt` takes for an address, the first with it. -/
def ShmState.attachedAt (s : ShmState) (p shmaddr : Nat) : Option Shmdesc :=
  ((s.table p).getD []).find? fun shmd => shmd.uva ≠ 0 ∧ shmd.uva = shmaddr

def LastDetach (shp : ShmidDs) : Prop := wrap16 (shp.nattch - 1) ≤ 0 ∧ shp.mode.dest

instance (shp : ShmidDs) : Decidable (LastDetach shp) := inferInstanceAs (Decidable (_ ∧ _))

/-- One attachment less, by process `p`: the segment is freed, or `p` was the last to use it. -/
def Released (p : Nat) (shp shp' : ShmidDs) : Prop :=
  if LastDetach shp then
    ∃ lpid, shp' = { shp with nattch := wrap16 (shp.nattch - 1), handle := none, mode := .zero,
                              seq := nextSeq shp.seq, lpid := lpid }
  else shp' = { shp with nattch := wrap16 (shp.nattch - 1), lpid := p }

/-- A detachment at an address touches the segment attached there, or is refused and touches none.
What it answers after a detachment is not said. -/
def DetachesOnly (s : ShmState) (p shmaddr : Nat) (left : Except ShmErrno Int) : Prop :=
  match s.attachedAt p shmaddr with
  | none => shmdt s p shmaddr left = .ok (.error .einval, s)
  | some shmd =>
    ∃ answer s', shmdt s p shmaddr left = .ok (answer, s') ∧
      Released p (s.segs (shmSlot shmd.id)) (s'.segs (shmSlot shmd.id)) ∧
      ∀ j, j ≠ shmSlot shmd.id → s'.segs j = s.segs j

theorem attachedAt_some (there : s.table p = some table)
    (attached : s.attachedAt p shmaddr = some shmd) :
    ∃ k, table.findIdx? (fun shmd => shmd.uva ≠ 0 ∧ shmd.uva = shmaddr) = some k ∧
      table[k]? = some shmd := by
  unfold ShmState.attachedAt at attached
  rw [there, Option.getD_some] at attached
  obtain ⟨found, k, inside, rfl, before⟩ := List.find?_eq_some_iff_getElem.mp attached
  refine ⟨k, List.findIdx?_eq_some_iff_getElem.mpr ⟨inside, found, fun j below => ?_⟩,
    List.getElem?_eq_getElem inside⟩
  have early := before j below
  rw [Bool.not_eq_true'] at early
  rw [early]
  exact Bool.false_ne_true

theorem attachedAt_none (there : s.table p = some table) (free : s.attachedAt p shmaddr = none) :
    table.findIdx? (fun shmd => shmd.uva ≠ 0 ∧ shmd.uva = shmaddr) = none := by
  unfold ShmState.attachedAt at free
  rw [there, Option.getD_some] at free
  rw [List.findIdx?_eq_none_iff]
  intro shmd member
  rw [← Bool.not_eq_true]
  exact List.find?_eq_none.mp free shmd member

theorem shmdt_attached (there : s.table p = some table)
    (attached : s.attachedAt p shmaddr = some shmd) :
    ∃ k, shmdt s p shmaddr left =
      match shmufree s p table k shmd with
      | .error e => .error e
      | .ok s => .ok (left, s.setSeg 0 { s.segs 0 with lpid := p }) := by
  obtain ⟨k, found, here⟩ := attachedAt_some there attached
  refine ⟨k, ?_⟩
  unfold shmdt
  rw [there]
  dsimp only
  rw [found]
  dsimp only
  rw [here]
  rfl

def given (shp : ShmidDs) : ShmidDs :=
  if LastDetach shp then
    { shp with nattch := wrap16 (shp.nattch - 1), handle := none, mode := .zero,
               seq := nextSeq shp.seq }
  else { shp with nattch := wrap16 (shp.nattch - 1) }

theorem given_last {shp : ShmidDs} (last : LastDetach shp) : given shp =
    { shp with nattch := wrap16 (shp.nattch - 1), handle := none, mode := .zero,
               seq := nextSeq shp.seq } :=
  if_pos last

theorem given_more {shp : ShmidDs} (more : ¬ LastDetach shp) :
    given shp = { shp with nattch := wrap16 (shp.nattch - 1) } :=
  if_neg more

theorem shmufree_given (owned : LastDetach (s.segs (shmSlot shmd.id)) →
    (s.segs (shmSlot shmd.id)).handle ≠ none) :
    ∃ s', shmufree s p table k shmd = .ok s' ∧
      ∀ j, s'.segs j = if j = shmSlot shmd.id then given (s.segs (shmSlot shmd.id)) else s.segs
        j := by
  unfold shmufree
  generalize shmSlot shmd.id = i at *
  dsimp only
  split
  · rename_i last
    obtain ⟨kva, handle⟩ := Option.ne_none_iff_exists'.mp (owned last)
    rw [given_last last]
    simp only [shmfree, setSeg_segs, if_true, handle]
    refine ⟨_, rfl, fun j => ?_⟩
    by_cases here : j = i
    · simp [here]
    · simp [here]
  · rename_i more
    rw [given_more more]
    refine ⟨_, rfl, fun j => ?_⟩
    rw [setSeg_segs, setTable_segs]

theorem shmufree_panics (last : LastDetach (s.segs (shmSlot shmd.id)))
    (lost : (s.segs (shmSlot shmd.id)).handle = none) :
    shmufree s p table k shmd = .error .shmfree := by
  unfold shmufree
  unfold LastDetach at last
  dsimp only
  rw [if_pos last, shmfree, setSeg_segs, if_pos rfl]
  dsimp only
  rw [lost]

/-- Without its last user, a segment that is given up is released only in these cases. -/
theorem released_iff {shp : ShmidDs} : Released p shp (given shp) ↔ LastDetach shp ∨
    shp.lpid = p := by
  unfold Released
  by_cases last : LastDetach shp
  · rw [if_pos last, given_last last]
    exact ⟨fun _ => .inl last, fun _ => ⟨shp.lpid, rfl⟩⟩
  · rw [if_neg last, given_more last, or_iff_right last]
    constructor
    · exact fun same => congrArg ShmidDs.lpid same
    · rintro rfl
      rfl

theorem released_set (shp : ShmidDs) : Released p shp { given shp with lpid := p } := by
  unfold Released
  by_cases last : LastDetach shp
  · rw [if_pos last, given_last last]
    exact ⟨p, by dsimp only⟩
  · rw [if_neg last, given_more last]

/-- `shmdt` touches the segment it should and no other, if and only if the process has a table of
descriptors, and where the address is attached, what it writes to segment 0 happens to be right. -/
theorem detach_only_iff (s : ShmState) (p shmaddr : Nat) (left : Except ShmErrno Int) :
    DetachesOnly s p shmaddr left ↔
    s.table p ≠ none ∧ ∀ shmd ∈ s.attachedAt p shmaddr,
      (LastDetach (s.segs (shmSlot shmd.id)) → (s.segs (shmSlot shmd.id)).handle ≠ none) ∧
      (shmSlot shmd.id = 0 ∨ (s.segs 0).lpid = p ∧
        (LastDetach (s.segs (shmSlot shmd.id)) ∨ (s.segs (shmSlot shmd.id)).lpid = p)) := by
  unfold DetachesOnly
  cases there : s.table p with
  | none =>
    have none : s.attachedAt p shmaddr = none := by
      rw [ShmState.attachedAt, there]
      rfl
    rw [none, shmdt, there]
    constructor
    · rintro ⟨⟩
    · exact fun some => absurd rfl some.1
  | some table =>
    cases attached : s.attachedAt p shmaddr with
    | none =>
      refine ⟨fun _ => ⟨(by rintro ⟨⟩ _), (by rintro _ ⟨⟩)⟩, fun _ => ?_⟩
      dsimp only
      rw [shmdt, there]
      dsimp only
      rw [attachedAt_none there attached]
    | some shmd =>
      obtain ⟨k, run⟩ := @shmdt_attached _ _ _ _ _ left there attached
      have only (P : Shmdesc → Prop) : (∀ d ∈ some shmd, P d) ↔ P shmd :=
        ⟨fun all => all shmd rfl, fun holds d member => by
          cases member
          exact holds⟩
      rw [only]
      dsimp only
      rw [run]
      by_cases owned : LastDetach (s.segs (shmSlot shmd.id)) →
        (s.segs (shmSlot shmd.id)).handle ≠ none
      · obtain ⟨s', freed, segs⟩ := @shmufree_given s p k table shmd owned
        rw [freed]
        generalize shmSlot shmd.id = i at *
        by_cases first : i = 0
        · subst first
          refine ⟨fun _ => ⟨(by rintro ⟨⟩), owned, .inl rfl⟩,
            fun _ => ⟨_, _, rfl, ?_, fun j other => ?_⟩⟩
          · rw [setSeg_segs, if_pos rfl, segs, if_pos rfl]
            exact released_set _
          · rw [setSeg_segs, if_neg other, segs, if_neg other]
        · constructor
          · rintro ⟨answer, s'', same, released, others⟩
            cases same
            have zero := others 0 (Ne.symm first)
            rw [setSeg_segs, if_pos rfl, segs, if_neg (Ne.symm first)] at zero
            rw [setSeg_segs, if_neg first, segs, if_pos rfl] at released
            exact ⟨(by rintro ⟨⟩), owned, .inr ⟨(congrArg ShmidDs.lpid zero).symm,
              released_iff.mp released⟩⟩
          · rintro ⟨-, -, zero | ⟨user, last⟩⟩
            · exact absurd zero first
            · refine ⟨_, _, rfl, ?_, fun j other => ?_⟩
              · rw [setSeg_segs, if_neg first, segs, if_pos rfl]
                exact released_iff.mpr last
              · rw [setSeg_segs, segs, segs, if_neg (Ne.symm first)]
                split
                · rename_i here
                  rw [here, ← user]
                · rfl
      · obtain ⟨last, lost⟩ := Classical.not_imp.mp owned
        rw [shmufree_panics last (not_not.mp lost)]
        constructor
        · rintro ⟨answer, s', same, -⟩
          cases same
        · exact fun fine => absurd fine.2.1 owned

/-- Two segments, the second of which is attached by a process that did not make them. -/
def second : List ShmCall :=
  [.shmget 0 ⟨0, [0]⟩ ⟨7, 4096, true, false, 0o600⟩ (some 0), .shmget 0 ⟨0, [0]⟩ ⟨8, 4096, true,
    false, 0o600⟩ (some 4096), .shmfork 0, .shmat 1 ⟨0, [0]⟩ ⟨1, 0, false, false⟩ (.ok 0x1000000)]

/-- Its detachment is entered in the first segment. -/
theorem detach_touches_first : ¬ ∀ (info : Shminfo) (start t : ShmTrail) (calls : List ShmCall),
    Shminit start.state →
    Run (ShmStep info) start calls t → ∀ p shmaddr left, p < t.state.procs.length →
      DetachesOnly t.state p shmaddr left := by
  intro claim
  have found : ((replay (shmTrail shminfoDefault) shmBoot second).any fun t =>
      decide (1 < t.state.procs.length) && (t.state.attachedAt 1 0x1000000).any fun shmd =>
        decide (shmSlot shmd.id = 1) &&
          match shmdt t.state 1 0x1000000 (.ok 0) with
          | .ok (_, s') => decide ((s'.segs 0).lpid ≠ (t.state.segs 0).lpid)
          | .error _ => false) = true := by
    decide +kernel
  obtain ⟨t, replayed, facts⟩ := (Option.any_eq_true _ _).mp found
  have run : Run (ShmStep shminfoDefault) shmBoot second t :=
    replay_run (fun _ _ _ => shmTrail_step) replayed
  rw [Bool.and_eq_true, decide_eq_true_iff] at facts
  obtain ⟨present, facts⟩ := facts
  obtain ⟨shmd, attached, facts⟩ := (Option.any_eq_true _ _).mp facts
  rw [Bool.and_eq_true, decide_eq_true_iff] at facts
  obtain ⟨slot, facts⟩ := facts
  have only := claim shminfoDefault shmBoot t second shmBoot_init run 1 0x1000000 (.ok 0) present
  unfold DetachesOnly at only
  rw [attached] at only
  obtain ⟨answer, s', done, -, others⟩ := only
  rw [done] at facts
  rw [slot] at others
  exact of_decide_eq_true facts (congrArg ShmidDs.lpid (others 0 (by decide)))

end Detach

end FreeBsd.Kern
