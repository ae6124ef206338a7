import FreeBsd.Lib.Trace
import FreeBsd.Vm.KernLockRun

/-! What the sleep lock promises in all runs, and a run without care. -/
namespace FreeBsd.Vm

open FreeBsd.Lib

section Waiting

variable {s : LockState} {t : Nat} {th : Thread}

def Said (s : LockState) : Prop := s.lock.waiting = true → ∃ th ∈ s.threads, th.asleep = true

theorem Said.sleep (there : s.threads[t]? = some th) {th' : Thread} : Said (s.sleep t th') := by
  intro _
  exact ⟨{ th' with asleep := true }, List.mem_set (List.getElem?_eq_some_iff.mp there).1 _, rfl⟩

theorem Said.put {l : Lock} {th' : Thread} (said : Said s) (there : s.threads[t]? = some th)
    (awake : th.asleep = false) (same : l.waiting = s.lock.waiting) : Said (s.put l t th') := by
  intro waiting
  obtain ⟨b, member, asleep⟩ := said (same ▸ waiting)
  obtain ⟨j, found⟩ := List.mem_iff_getElem?.mp member
  have other : j ≠ t := by
    rintro rfl
    obtain rfl := Option.some.inj (there.symm.trans found)
    rw [awake] at asleep
    cases asleep
  exact ⟨b, List.mem_of_getElem? ((put_get_of_ne other).trans found), asleep⟩

theorem Said.wakeup : Said s.wakeup := by
  intro waiting
  unfold LockState.wakeup at waiting
  split at waiting
  · cases waiting
  · exact absurd waiting ‹_›

theorem waitWrite_said (said : Said s) (there : s.threads[t]? = some th)
    (awake : th.asleep = false) :
    Said (waitWrite s t th).1 := by
  unfold waitWrite drain
  split
  · exact .sleep there
  · split
    · exact .sleep there
    · exact said.put there awake rfl

theorem waitRead_said (said : Said s) (there : s.threads[t]? = some th)
    (awake : th.asleep = false) :
    Said (waitRead s t th).1 := by
  unfold waitRead
  split
  · exact .sleep there
  · exact said.put there awake rfl

theorem waitUpgrade_said {l : Lock} {th' : Thread} {trying : Bool} (said : Said s)
    (there : s.threads[t]? = some th) (awake : th.asleep = false)
    (same : l.waiting = s.lock.waiting) :
    Said (waitUpgrade { s with lock := l } t th' trying).1 := by
  unfold waitUpgrade
  split
  · exact .sleep there
  · exact said.put there awake same

theorem resume_said (said : Said s) (there : s.threads[t]? = some th) (awake : th.asleep = false) :
    Said (resume s t th).1 := by
  unfold resume
  split
  · exact said
  · exact waitWrite_said said there awake
  · unfold drain
    split
    · exact .sleep there
    · exact said.put there awake rfl
  · exact waitRead_said said there awake
  · exact waitUpgrade_said said there awake rfl

theorem lockCall_said {op : LockOp} (said : Said s) (there : s.threads[t]? = some th)
    (awake : th.asleep = false) :
    Said (lockCall s t th op).1 := by
  cases op with
  | lockWrite =>
    change Said (lockWrite s t th).1
    unfold lockWrite
    split
    · exact said.put there awake rfl
    · exact waitWrite_said said there awake
  | lockRead =>
    change Said (lockRead s t th).1
    unfold lockRead
    split
    · exact said.put there awake rfl
    · exact waitRead_said said there awake
  | lockDone => exact .wakeup
  | lockReadToWrite =>
    change Said (lockReadToWrite s t th).1
    unfold lockReadToWrite
    dsimp only
    split
    · exact said.put there awake rfl
    · split
      · exact .wakeup
      · exact waitUpgrade_said said there awake rfl
  | lockWriteToRead => exact .wakeup
  | lockTryWrite =>
    change Said (lockTryWrite s t th).1
    unfold lockTryWrite
    split
    · exact said.put there awake rfl
    · split
      · exact said
      · exact said.put there awake rfl
  | lockTryRead =>
    change Said (lockTryRead s t th).1
    unfold lockTryRead
    split
    · exact said.put there awake rfl
    · split
      · exact said
      · exact said.put there awake rfl
  | lockTryReadToWrite =>
    change Said (lockTryReadToWrite s t th).1
    unfold lockTryReadToWrite
    dsimp only
    split
    · exact said.put there awake rfl
    · split
      · exact said
      · exact waitUpgrade_said said there awake rfl
  | lockSetRecursive =>
    change Said (lockSetRecursive s t th).1
    unfold lockSetRecursive
    split
    · exact said
    · exact said.put there awake rfl
  | lockClearRecursive =>
    change Said (lockClearRecursive s t th).1
    unfold lockClearRecursive
    split
    · exact said
    · refine said.put there awake ?_
      split
      · rfl
      · rfl

end Waiting

section Promises

variable {s s' : LockState} {t n : Nat} {th : Thread} {event : LockEvent} {answer : Option Bool}

def CarefulEvent (s : LockState) : LockEvent → Prop
  | .call t op => ∀ th ∈ s.threads[t]?, Careful s t th op
  | .resume _ => True

/-- What holds at any time: one that writes excludes all others, reads are counted, and without
holds the lock is as it was initialized, or the way is free for a thread that waits. -/
structure Sound (s : LockState) : Prop where
  excludes : ∀ (i j : Nat) a b, i ≠ j → s.threads[i]? = some a → s.threads[j]? = some b → a.writes →
    b.holds = []
  counts : s.lock.readCount = tally Thread.reads s.threads
  calm : s.panicked = false
  free : (∀ th ∈ s.threads, th.holds = [] ∧ th.phase = .running) → s.lock = lockInit
  taken : (∀ th ∈ s.threads, th.holds = []) → (∃ th ∈ s.threads, th.phase ≠ .running) →
    ∃ th ∈ s.threads, th.phase ≠ .running ∧ th.asleep = false ∧ ¬ Blocked s.lock th.phase

def Failing (s : LockState) (s' : LockState) (answer : Option Bool) : LockEvent → Prop
  | .call t .lockReadToWrite => answer = some true → ∀ th ∈ s'.threads[t]?, th.holds = []
  | .call t .lockTryWrite | .call t .lockTryRead | .call t .lockTryReadToWrite => answer =
    some false →
      (s'.threads[t]?).map Thread.holds = (s.threads[t]?).map Thread.holds
  | .call _ _ => True
  | .resume t => ∀ th ∈ s.threads[t]?, ∀ trying, th.phase = .upgrade trying →
    answer ≠ some (!trying)

theorem Locked.steady (locked : Locked s) (idle : ∀ th ∈ s.threads, th.holds = [])
    (none : ∀ th ∈ s.threads, th.upgrading = false) : s.lock.wantUpgrade = false := by
  have zero : tally Thread.upgrades s.threads = 0 := by
    refine tally_eq_zero.mpr fun th member => ?_
    simp [Thread.upgrades, idle th member, none th member]
  have counted := locked.books.upgrades
  rw [zero] at counted
  cases set : s.lock.wantUpgrade with
  | false => rfl
  | true => simp [set] at counted

theorem Locked.unclaimed (locked : Locked s) (idle : ∀ th ∈ s.threads, th.holds = [])
    (none : ∀ th ∈ s.threads, th.draining = false) : s.lock.wantWrite = false := by
  have zero : tally Thread.claims s.threads = 0 := by
    refine tally_eq_zero.mpr fun th member => ?_
    simp [Thread.claims, idle th member, none th member]
  have counted := locked.books.claims
  rw [zero] at counted
  cases set : s.lock.wantWrite with
  | false => rfl
  | true => simp [set] at counted

theorem Locked.unread_count (locked : Locked s) (idle : ∀ th ∈ s.threads, th.holds = []) :
    s.lock.readCount = 0 := by
  have zero : tally Thread.reads s.threads = 0 := by
    refine tally_eq_zero.mpr fun th member => ?_
    simp [Thread.reads, idle th member]
  rw [locked.books.reads, zero]
  rfl

/-- With no holds and nobody on the way to one, nothing is left in the fields. -/
theorem Locked.free (locked : Locked s) (said : Said s)
    (idle : ∀ th ∈ s.threads, th.holds = [] ∧ th.phase = .running) :
    s.lock = lockInit := by
  have nil : ∀ th ∈ s.threads, th.holds = [] := fun th member => (idle th member).1
  have upgrade := locked.steady nil fun th member => by rw [Thread.upgrading, (idle th member).2]
  have write := locked.unclaimed nil fun th member => by rw [Thread.draining, (idle th member).2]
  have reads := locked.unread_count nil
  have depth : s.lock.recursionDepth = 0 := by
    rw [locked.books.deeps]
    refine tally_eq_zero.mpr fun th member => ?_
    simp [Thread.deeps, nil th member]
  have owner : s.lock.thread = none := by
    cases known : s.lock.thread with
    | none => rfl
    | some t =>
      obtain ⟨th, there, some, -⟩ := locked.owned.owner t known
      exact absurd (nil th (List.mem_of_getElem? there)) some
  have waiting : s.lock.waiting = false := by
    cases waits : s.lock.waiting with
    | false => rfl
    | true =>
      obtain ⟨th, member, asleep⟩ := said waits
      have blocked := (locked.sleeping th member asleep).2
      rw [(idle th member).2] at blocked
      exact blocked.elim
  cases lock : s.lock with
  | mk wantWrite wantUpgrade waits readCount thread recursionDepth =>
    rw [lock] at upgrade write reads depth owner waiting
    dsimp only at upgrade write reads depth owner waiting
    subst upgrade write reads depth owner waiting
    rfl

theorem Locked.goes (locked : Locked s) {th : Thread} (member : th ∈ s.threads)
    (free : ¬ Blocked s.lock th.phase) :
    th.asleep = false := by
  cases asleep : th.asleep with
  | false => rfl
  | true => exact absurd (locked.sleeping th member asleep).2 free

/-- With no holds an upgrade goes on first, then who has the claim to write, then all others. -/
theorem Locked.taken (locked : Locked s) (nil : ∀ th ∈ s.threads, th.holds = [])
    (some : ∃ th ∈ s.threads, th.phase ≠ .running) :
    ∃ th ∈ s.threads, th.phase ≠ .running ∧ th.asleep = false ∧ ¬ Blocked s.lock th.phase := by
  have reads := locked.unread_count nil
  by_cases upgrade : ∃ th ∈ s.threads, th.upgrading = true
  · obtain ⟨th, member, waits⟩ := upgrade
    obtain ⟨trying, phase⟩ : ∃ trying, th.phase = .upgrade trying := by
      unfold Thread.upgrading at waits
      split at waits
      · exact ⟨_, ‹_›⟩
      · cases waits
    have free : ¬ Blocked s.lock th.phase := by
      rw [phase]
      exact not_not.mpr reads
    exact ⟨th, member, by rw [phase]; rintro ⟨⟩, locked.goes member free, free⟩
  have steady : s.lock.wantUpgrade = false := by
    refine locked.steady nil fun th member => Bool.eq_false_iff.mpr fun waits => ?_
    exact upgrade ⟨th, member, waits⟩
  by_cases claimed : ∃ th ∈ s.threads, th.draining = true
  · obtain ⟨th, member, waits⟩ := claimed
    have phase : th.phase = .drain := by
      unfold Thread.draining at waits
      split at waits
      · rename_i phase
        exact phase
      · cases waits
    have free : ¬ Blocked s.lock th.phase := by
      rw [phase]
      simp [Blocked, reads, steady]
    exact ⟨th, member, by rw [phase]; rintro ⟨⟩, locked.goes member free, free⟩
  have write : s.lock.wantWrite = false := by
    refine locked.unclaimed nil fun th member => Bool.eq_false_iff.mpr fun waits => ?_
    exact claimed ⟨th, member, waits⟩
  obtain ⟨th, member, waits⟩ := some
  have free : ¬ Blocked s.lock th.phase := by
    cases phase : th.phase <;> simp [Blocked, reads, steady, write]
  exact ⟨th, member, waits, locked.goes member free, free⟩

theorem Locked.sound (locked : Locked s) (said : Said s) : Sound s where
  excludes := fun i j a b other first second => (locked.books.apart i j a b other first second).1
  counts := locked.books.reads
  calm := locked.owned.calm
  free := locked.free said
  taken := locked.taken

theorem lockReadToWrite_failed (careful : s.lock.thread ≠ some t → s.lock.wantUpgrade = true →
    th.holds.length = 1)
    (failed : (lockReadToWrite s t th).2 = some true) :
      ∀ b ∈ (lockReadToWrite s t th).1.threads[t]?, b.holds = [] := by
  unfold lockReadToWrite waitUpgrade at *
  dsimp only at *
  by_cases known : s.lock.thread = some t
  · rw [if_pos known] at failed
    cases failed
  rw [if_neg known] at *
  by_cases asked : s.lock.wantUpgrade = true
  · rw [if_pos asked] at *
    have one := careful known asked
    have nil : th.holds.tail = [] := List.length_eq_zero_iff.mp (by rw [List.length_tail, one])
    intro b found
    have kept (c : Thread) (same : (s.put { s.lock with readCount := s.lock.readCount - 1 } t
        { th with holds := th.holds.tail }).threads[t]? = some c) : c.holds = [] := by
      change (s.threads.set t _)[t]? = some c at same
      rw [List.getElem?_set, if_pos rfl] at same
      split at same
      · obtain rfl := Option.some.inj same
        exact nil
      · cases same
    by_cases waiting : s.lock.waiting = true
    · obtain ⟨c, there, rfl⟩ :=
        @wakeup_get (s.put { s.lock with readCount := s.lock.readCount - 1 } t
          { th with holds := th.holds.tail }) t b waiting found
      exact kept c there
    · rw [LockState.wakeup, if_neg (by exact waiting)] at found
      exact kept b found
  · rw [if_neg asked] at failed
    split at failed
    · cases failed
    · cases failed

theorem failing (step : lockStep s event = some (s', answer)) (careful : CarefulEvent s event) :
    Failing s s' answer event := by
  cases event with
  | resume t =>
    intro th there trying phase wrong
    simp only [lockStep, Option.mem_def.mp there, phase, resume] at step
    split at step
    · have same := congrArg Prod.snd (Option.some.inj step)
      dsimp only at same
      subst wrong
      unfold waitUpgrade at same
      split at same
      · cases same
      · cases trying <;> cases same
    · cases step
  | call t op =>
    unfold lockStep at step
    dsimp only at step
    split at step
    · cases step
    rename_i th there
    split at step
    case isFalse => cases step
    have same := Option.some.inj step
    have careful := careful th there
    cases op with
    | lockReadToWrite =>
      intro failed
      have result := lockReadToWrite_failed careful.2 ((congrArg Prod.snd same).trans failed)
      rw [show lockReadToWrite s t th = (s', answer) from same] at result
      exact result
    | lockTryWrite =>
      intro failed
      subst failed
      change lockTryWrite s t th = _ at same
      unfold lockTryWrite at same
      split at same
      · cases same
      · split at same
        · cases same
          rfl
        · cases same
    | lockTryRead =>
      intro failed
      subst failed
      change lockTryRead s t th = _ at same
      unfold lockTryRead at same
      split at same
      · cases same
      · split at same
        · cases same
          rfl
        · cases same
    | lockTryReadToWrite =>
      intro failed
      subst failed
      change lockTryReadToWrite s t th = _ at same
      unfold lockTryReadToWrite waitUpgrade at same
      dsimp only at same
      split at same
      · cases same
      · split at same
        · cases same
          rfl
        · split at same
          · cases same
          · cases same
    | lockWrite => trivial
    | lockRead => trivial
    | lockDone => trivial
    | lockWriteToRead => trivial
    | lockSetRecursive => trivial
    | lockClearRecursive => trivial

end Promises

section Runs

variable {s s' : LockState} {t n : Nat} {event : LockEvent} {events : List LockEvent}

def CarefulStep (s : LockState) (event : LockEvent) (s' : LockState) : Prop :=
  CarefulEvent s event ∧ ∃ answer, lockStep s event = some (s', answer)

theorem start_locked : Locked (.start n) := by
  have zero (f : Thread → Nat) (none : f ⟨[], .running, false, false⟩ = 0) :
      tally f (LockState.start n).threads = 0 := by
    refine tally_eq_zero.mpr fun th member => ?_
    rw [List.eq_of_mem_replicate member]
    exact none
  have fresh (i : Nat) (a : Thread) (found : (LockState.start n).threads[i]? = some a) :
      a = ⟨[], .running, false, false⟩ := List.eq_of_mem_replicate (List.mem_of_getElem? found)
  refine ⟨⟨?_, ?_, ?_, ?_, ?_, ?_⟩, ⟨(by rintro _ ⟨⟩), ?_, ?_, rfl⟩, ?_⟩
  · exact (congrArg Nat.cast (zero Thread.reads rfl)).symm
  · exact (zero Thread.deeps rfl).symm
  · exact (zero Thread.upgrades rfl).symm
  · exact (zero Thread.claims rfl).symm
  · intro i j a b _ first second
    obtain rfl := fresh i a first
    exact ⟨fun wrong => absurd wrong (not_writes rfl), (by rintro ⟨⟩)⟩
  · intro th member
    rw [List.eq_of_mem_replicate member]
    exact .nil
  · intro i a found deep
    obtain rfl := fresh i a found
    cases deep
  · intro i a found set
    obtain rfl := fresh i a found
    cases set
  · intro th member asleep
    rw [List.eq_of_mem_replicate member] at asleep
    cases asleep

theorem CarefulStep.locked (step : CarefulStep s event s') (locked : Locked s) (said : Said s) :
    Locked s' ∧ Said s' := by
  obtain ⟨careful, answer, step⟩ := step
  cases event with
  | call t op =>
    unfold lockStep at step
    dsimp only at step
    split at step
    · cases step
    rename_i th there
    split at step
    case isFalse => cases step
    rename_i may
    have awake := locked.sleeping.awake there may.1
    rw [show s' = (lockCall s t th op).1 from (congrArg Prod.fst (Option.some.inj step)).symm]
    exact ⟨lockCall_locked locked there may.1 may.2 (careful th there),
      lockCall_said said there awake⟩
  | resume t =>
    unfold lockStep at step
    dsimp only at step
    split at step
    · cases step
    rename_i th there
    split at step
    case isFalse => cases step
    rename_i may
    rw [show s' = (resume s t th).1 from (congrArg Prod.fst (Option.some.inj step)).symm]
    exact ⟨resume_locked locked there, resume_said said there may.2⟩

/-- Threads that are careful find the lock sound at all times, and a routine that fails does what it
says. -/
theorem kern_lock_sound (run : Run CarefulStep (.start n) events s) : Sound s ∧
    ∀ event s' answer, CarefulEvent s event → lockStep s event = some (s', answer) →
      Failing s s' answer event := by
  have kept : Locked s ∧ Said s := by
    have steps (s : LockState) (event : LockEvent) (s' : LockState) (_ : True) (before : Locked s ∧
        Said s)
        (step : CarefulStep s event s') : Locked s' ∧ Said s' := step.locked before.1 before.2
    exact run.invariant steps (fun _ _ => trivial) ⟨start_locked, (by rintro ⟨⟩)⟩
  exact ⟨kept.1.sound kept.2, fun event s' answer careful step => failing step careful⟩

/-- One thread writes while another one waits to read, which it then does. -/
theorem kern_lock_sound_handover :
    Sound ((replay (fun s event => (lockStep s event).map Prod.fst) (.start 2)
      [.call 0 .lockWrite, .call 1 .lockRead, .call 0 .lockDone, .resume 1]).getD (.start 2)) := by
  refine (@kern_lock_sound _ 2 [.call 0 .lockWrite, .call 1 .lockRead, .call 0 .lockDone,
    .resume 1] ?_).1
  refine .cons ⟨?_, none, rfl⟩ (.cons ⟨?_, none, rfl⟩ (.cons ⟨?_, none, rfl⟩ (.cons ⟨trivial, none,
    rfl⟩ (.nil _))))
  · intro th there known
    cases known
  · exact fun _ _ => trivial
  · intro th there
    obtain rfl := Option.some.inj there
    exact ⟨fun _ _ _ => rfl, fun _ => (by rintro ⟨⟩)⟩

/-- A write hold above a read hold takes the read away with it when it is released. -/
theorem kern_lock_read_dropped : ¬ ∀ (n : Nat) (events : List LockEvent) (s : LockState),
    Run (fun s event s' => ∃ answer, lockStep s event = some (s', answer)) (.start n) events s →
      s.lock.readCount = tally Thread.reads s.threads := by
  intro all
  have counts := all 1 [.call 0 .lockWrite, .call 0 .lockSetRecursive, .call 0 .lockRead,
    .call 0 .lockWrite, .call 0 .lockDone] _
    (.cons ⟨none, rfl⟩ (.cons ⟨none, rfl⟩ (.cons ⟨none, rfl⟩ (.cons ⟨none, rfl⟩
      (.cons ⟨none, rfl⟩ (.nil _))))))
  cases counts

end Runs

end FreeBsd.Vm
