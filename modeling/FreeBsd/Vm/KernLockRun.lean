import FreeBsd.Vm.KernLock

/-! Whole runs of threads that use a sleep lock: who holds it, what its fields count, and that it is
free, or free to be taken, when nobody does. -/
namespace FreeBsd.Vm

open FreeBsd.Lib

section Threads

variable {holds rest : List Hold} {h : Hold} {a b th : Thread} {l : Lock}

def Thread.reads (th : Thread) : Nat := th.holds.count .read
def Thread.deeps (th : Thread) : Nat := th.holds.count .deep

def Thread.upgrading (th : Thread) : Bool := match th.phase with
  | .upgrade _ => true
  | _ => false

def Thread.upgrades (th : Thread) : Nat := th.holds.count .upgrade + th.upgrading.toNat

def Thread.draining (th : Thread) : Bool := match th.phase with
  | .drain => true
  | _ => false

/-- Holds by `want_write`, and the wait for readers to finish. -/
def Thread.claims (th : Thread) : Nat := th.holds.count .write + th.draining.toNat

/-- Levels of recursion are above an upgrade, and this above a hold by `want_write`; they are above
one. -/
def Ordered (holds : List Hold) : Prop := ∃ d u w, (holds.filter (· ≠ .read)) =
  List.replicate d .deep ++ (List.replicate u .upgrade ++ List.replicate w .write) ∧
    (0 < d → 0 < u + w)

/-- A thread that writes, or is about to by an upgrade, beside another one. -/
def Apart (a b : Thread) : Prop := (a.writes → b.holds = []) ∧ (a.upgrading → ¬ b.writes)

def Blocked (l : Lock) : Phase → Prop
  | .running => False
  | .lockWrite => l.wantWrite = true
  | .drain => l.readCount ≠ 0 ∨ l.wantUpgrade = true
  | .lockRead => l.wantWrite = true ∨ l.wantUpgrade = true
  | .upgrade _ => l.readCount ≠ 0

theorem Ordered.nil : Ordered [] := ⟨0, 0, 0, rfl, fun wrong => absurd wrong (Nat.lt_irrefl 0)⟩

theorem Ordered.read (ordered : Ordered holds) : Ordered (.read :: holds) := by
  obtain ⟨d, u, w, eq, base⟩ := ordered
  exact ⟨d, u, w, eq, base⟩

theorem Ordered.of_read (ordered : Ordered (.read :: holds)) : Ordered holds := ordered

theorem Ordered.deep (ordered : Ordered holds) (writes : ∃ h ∈ holds, h ≠ .read) :
    Ordered (.deep :: holds) := by
  obtain ⟨d, u, w, eq, base⟩ := ordered
  refine ⟨d + 1, u, w, ?_, fun _ => ?_⟩
  · rw [List.filter_cons_of_pos (by decide), eq]
    rfl
  · by_contra none
    obtain ⟨h, member, other⟩ := writes
    have inside : h ∈ holds.filter (· ≠ .read) := List.mem_filter.mpr ⟨member, decide_eq_true other⟩
    have some : 0 < d := by
      by_contra wrong
      have zero : d = 0 ∧ u = 0 ∧ w = 0 := by omega
      rw [eq, zero.1, zero.2.1, zero.2.2] at inside
      cases inside
    exact none (base some)

theorem Ordered.counts {d u w : Nat} (eq : holds.filter (· ≠ .read) =
    List.replicate d .deep ++ (List.replicate u .upgrade ++ List.replicate w .write)) :
    holds.count .deep = d ∧ holds.count .upgrade = u ∧ holds.count .write = w := by
  have kept (k : Hold) (other : k ≠ .read) : holds.count k = (holds.filter (· ≠ .read)).count k :=
    (List.count_filter (by simpa using other)).symm
  rw [kept .deep (by rintro ⟨⟩), kept .upgrade (by rintro ⟨⟩), kept .write (by rintro ⟨⟩), eq]
  simp [List.count_replicate]

theorem Ordered.no_deep (ordered : Ordered holds) (upgrade : holds.count .upgrade = 0)
    (write : holds.count .write = 0) :
    ∀ h ∈ holds, h = .read := by
  obtain ⟨d, u, w, eq, base⟩ := ordered
  obtain ⟨-, counted, claimed⟩ := Ordered.counts eq
  have zero : d = 0 ∧ u = 0 ∧ w = 0 := by lia
  rw [zero.1, zero.2.1, zero.2.2] at eq
  intro h member
  by_contra other
  have inside : h ∈ holds.filter (· ≠ .read) := List.mem_filter.mpr ⟨member, decide_eq_true other⟩
  rw [eq] at inside
  cases inside

/-- The hold for writing that was got last is by recursion if there is any, and else by an upgrade.
-/
theorem Ordered.release (ordered : Ordered (h :: holds)) (other : h ≠ .read) : Ordered holds ∧
    (0 < (h :: holds).count .deep → h = .deep) ∧
    ((h :: holds).count .deep = 0 → 0 < (h :: holds).count .upgrade → h = .upgrade) ∧
    ((h :: holds).count .deep = 0 → (h :: holds).count .upgrade = 0 → h = .write) := by
  obtain ⟨d, u, w, eq, base⟩ := ordered
  obtain ⟨deep, upgrade, write⟩ := Ordered.counts eq
  rw [deep, upgrade]
  rw [List.filter_cons_of_pos (by simpa using other)] at eq
  cases d with
  | succ d =>
    obtain ⟨rfl, tail⟩ := List.cons.inj eq
    exact ⟨⟨d, u, w, tail, fun _ => base (Nat.succ_pos d)⟩, fun _ => rfl, (by rintro ⟨⟩),
      (by rintro ⟨⟩)⟩
  | zero =>
    cases u with
    | succ u =>
      obtain ⟨rfl, tail⟩ := List.cons.inj eq
      exact ⟨⟨0, u, w, tail, fun wrong => absurd wrong (Nat.lt_irrefl 0)⟩,
        fun wrong => absurd wrong (Nat.lt_irrefl 0), fun _ _ => rfl, (by rintro _ ⟨⟩)⟩
    | zero =>
      cases w with
      | succ w =>
        obtain ⟨rfl, tail⟩ := List.cons.inj eq
        exact ⟨⟨0, 0, w, tail, fun wrong => absurd wrong (Nat.lt_irrefl 0)⟩,
          fun wrong => absurd wrong (Nat.lt_irrefl 0), fun _ wrong =>
          absurd wrong (Nat.lt_irrefl 0), fun _ _ => rfl⟩
      | zero => cases eq

end Threads

section Invariant

variable {s s' : LockState} {t i j : Nat} {th th' a b : Thread} {l : Lock}

structure Books (s : LockState) : Prop where
  reads : s.lock.readCount = tally Thread.reads s.threads
  deeps : s.lock.recursionDepth = tally Thread.deeps s.threads
  upgrades : s.lock.wantUpgrade.toNat = tally Thread.upgrades s.threads
  claims : s.lock.wantWrite.toNat = tally Thread.claims s.threads
  apart : ∀ (i j : Nat) a b, i ≠ j → s.threads[i]? = some a → s.threads[j]? = some b → Apart a b
  ordered : ∀ th ∈ s.threads, Ordered th.holds

/-- The thread that the lock knows has holds, and only it has levels of recursion. -/
structure Owned (s : LockState) : Prop where
  owner : ∀ t, s.lock.thread = some t → ∃ th, s.threads[t]? = some th ∧ th.holds ≠ [] ∧
    th.phase = .running
  deep : ∀ (t : Nat) th, s.threads[t]? = some th → .deep ∈ th.holds → s.lock.thread = some t
  recursive : ∀ (t : Nat) th, s.threads[t]? = some th → th.recursive = true → s.lock.thread = some t
  calm : s.panicked = false

def Sleeping (s : LockState) : Prop :=
  ∀ th ∈ s.threads, th.asleep = true → s.lock.waiting = true ∧ Blocked s.lock th.phase

theorem Books.put (books : Books s) (there : s.threads[t]? = some th)
    (reads : l.readCount + th.reads = s.lock.readCount + th'.reads)
    (deeps : l.recursionDepth + th.deeps = s.lock.recursionDepth + th'.deeps)
    (upgrades : l.wantUpgrade.toNat + th.upgrades = s.lock.wantUpgrade.toNat + th'.upgrades)
    (claims : l.wantWrite.toNat + th.claims = s.lock.wantWrite.toNat + th'.claims)
    (apart : ∀ (j : Nat) b, j ≠ t → s.threads[j]? = some b → Apart th' b ∧ Apart b th')
    (ordered : Ordered th'.holds) :
    Books (s.put l t th') := by
  have within := (List.getElem?_eq_some_iff.mp there).1
  constructor
  · have changed := @tally_set _ Thread.reads _ _ _ th' there
    have before := books.reads
    change l.readCount = tally Thread.reads (s.threads.set t th')
    lia
  · have changed := @tally_set _ Thread.deeps _ _ _ th' there
    have before := books.deeps
    change l.recursionDepth = tally Thread.deeps (s.threads.set t th')
    lia
  · have changed := @tally_set _ Thread.upgrades _ _ _ th' there
    have before := books.upgrades
    change l.wantUpgrade.toNat = tally Thread.upgrades (s.threads.set t th')
    lia
  · have changed := @tally_set _ Thread.claims _ _ _ th' there
    have before := books.claims
    change l.wantWrite.toNat = tally Thread.claims (s.threads.set t th')
    lia
  · intro i j a b other first second
    change (s.threads.set t th')[i]? = some a at first
    change (s.threads.set t th')[j]? = some b at second
    rw [List.getElem?_set] at first second
    by_cases here : t = i
    · rw [if_pos here, if_pos (here ▸ within)] at first
      rw [if_neg (here ▸ other)] at second
      obtain rfl := Option.some.inj first
      exact (apart j b (fun same => other (here ▸ same.symm)) second).1
    · rw [if_neg here] at first
      by_cases there : t = j
      · rw [if_pos there, if_pos (there ▸ within)] at second
        obtain rfl := Option.some.inj second
        exact (apart i a (Ne.symm here) first).2
      · rw [if_neg there] at second
        exact books.apart i j a b other first second
  · intro b member
    rcases List.mem_or_eq_of_mem_set member with old | rfl
    · exact books.ordered b old
    · exact ordered

theorem put_get (there : s.threads[t]? = some th) : (s.put l t th').threads[t]? = some th' := by
  change (s.threads.set t th')[t]? = _
  rw [List.getElem?_set, if_pos rfl, if_pos (List.getElem?_eq_some_iff.mp there).1]

theorem put_get_of_ne (other : j ≠ t) : (s.put l t th').threads[j]? = s.threads[j]? := by
  change (s.threads.set t th')[j]? = _
  rw [List.getElem?_set, if_neg other.symm]

theorem put_put {l' : Lock} : (s.put l t th).put l' t th' = s.put l' t th' := by
  unfold LockState.put
  rw [List.set_set]

theorem Owned.put (owned : Owned s) (there : s.threads[t]? = some th)
    (same : l.thread = s.lock.thread) (owner : s.lock.thread = some t → th'.holds ≠ [] ∧
      th'.phase = .running)
    (deep : .deep ∈ th'.holds → s.lock.thread = some t)
    (recursive : th'.recursive = true → th.recursive = true) :
    Owned (s.put l t th') := by
  constructor
  · intro u known
    have was : s.lock.thread = some u := same.symm.trans known
    by_cases here : u = t
    · subst here
      exact ⟨th', put_get there, owner was⟩
    · obtain ⟨b, found, rest⟩ := owned.owner u was
      exact ⟨b, (put_get_of_ne here).trans found, rest⟩
  · intro u b found inside
    refine same.trans ?_
    by_cases here : u = t
    · subst here
      obtain rfl := Option.some.inj ((put_get there).symm.trans found)
      exact deep inside
    · exact owned.deep u b ((put_get_of_ne here).symm.trans found) inside
  · intro u b found set
    refine same.trans ?_
    by_cases here : u = t
    · subst here
      obtain rfl := Option.some.inj ((put_get there).symm.trans found)
      exact owned.recursive u th there (recursive set)
    · exact owned.recursive u b ((put_get_of_ne here).symm.trans found) set
  · exact owned.calm

theorem Sleeping.put (sleeping : Sleeping s) (waiting : s.lock.waiting = true → l.waiting = true)
    (mine : th'.asleep = true → l.waiting = true ∧ Blocked l th'.phase)
    (kept : ∀ (j : Nat) b, j ≠ t → s.threads[j]? = some b → b.asleep = true →
      Blocked s.lock b.phase → Blocked l b.phase) :
    Sleeping (s.put l t th') := by
  intro b member asleep
  obtain ⟨j, found⟩ := List.mem_iff_getElem?.mp member
  by_cases here : j = t
  · subst here
    have within := (List.getElem?_eq_some_iff.mp found).1
    change j < (s.threads.set j th').length at within
    rw [List.length_set] at within
    obtain rfl := Option.some.inj ((put_get (List.getElem?_eq_getElem within)).symm.trans found)
    exact mine asleep
  · have found := (put_get_of_ne here).symm.trans found
    have before := sleeping b (List.mem_of_getElem? found) asleep
    exact ⟨waiting before.1, kept j b here found asleep before.2⟩

theorem wakeup_awake (waiting : s.lock.waiting = true) : s.wakeup =
    ⟨{ s.lock with waiting := false }, s.threads.map fun th => { th with asleep := false },
      s.panicked⟩ := if_pos waiting

theorem wakeup_get (waiting : s.lock.waiting = true) (found : s.wakeup.threads[t]? = some th') :
    ∃ th, s.threads[t]? = some th ∧ th' = { th with asleep := false } := by
  rw [wakeup_awake waiting] at found
  dsimp only at found
  rw [List.getElem?_map] at found
  obtain ⟨th, there, rfl⟩ := Option.map_eq_some_iff.mp found
  exact ⟨th, there, rfl⟩

theorem Books.wakeup (books : Books s) : Books s.wakeup := by
  by_cases waiting : s.lock.waiting = true
  · have awake (f : Thread → Nat) (same : ∀ th : Thread, f { th with asleep := false } = f th) :
        tally f s.wakeup.threads = tally f s.threads := by
      rw [wakeup_awake waiting]
      exact tally_map same
    have same : s.wakeup.lock = { s.lock with waiting := false } := by rw [wakeup_awake waiting]
    constructor
    · rw [same, awake _ fun _ => rfl]
      exact books.reads
    · rw [same, awake _ fun _ => rfl]
      exact books.deeps
    · rw [same, awake _ fun _ => rfl]
      exact books.upgrades
    · rw [same, awake _ fun _ => rfl]
      exact books.claims
    · intro i j a b other first second
      obtain ⟨a, left, rfl⟩ := wakeup_get waiting first
      obtain ⟨b, right, rfl⟩ := wakeup_get waiting second
      exact books.apart i j a b other left right
    · intro th member
      obtain ⟨t, found⟩ := List.mem_iff_getElem?.mp member
      obtain ⟨b, old, rfl⟩ := wakeup_get waiting found
      exact books.ordered b (List.mem_of_getElem? old)
  · rw [LockState.wakeup, if_neg waiting]
    exact books

theorem Owned.wakeup (owned : Owned s) : Owned s.wakeup := by
  by_cases waiting : s.lock.waiting = true
  · constructor
    · intro t known
      have known : s.lock.thread = some t := by
        rw [wakeup_awake waiting] at known
        exact known
      obtain ⟨th, there, rest⟩ := owned.owner t known
      refine ⟨{ th with asleep := false }, ?_, rest⟩
      rw [wakeup_awake waiting]
      dsimp only
      rw [List.getElem?_map, there]
      rfl
    · intro t th found inside
      obtain ⟨b, old, rfl⟩ := wakeup_get waiting found
      rw [wakeup_awake waiting]
      exact owned.deep t b old inside
    · intro t th found set
      obtain ⟨b, old, rfl⟩ := wakeup_get waiting found
      rw [wakeup_awake waiting]
      exact owned.recursive t b old set
    · rw [wakeup_awake waiting]
      exact owned.calm
  · rw [LockState.wakeup, if_neg waiting]
    exact owned

theorem wakeup_sleeping (said : ∀ th ∈ s.threads, th.asleep = true → s.lock.waiting = true) :
    Sleeping s.wakeup := by
  intro th member asleep
  obtain ⟨t, found⟩ := List.mem_iff_getElem?.mp member
  by_cases waiting : s.lock.waiting = true
  · obtain ⟨b, -, rfl⟩ := wakeup_get waiting found
    cases asleep
  · rw [LockState.wakeup, if_neg waiting] at member
    exact absurd (said th member asleep) waiting

structure Locked (s : LockState) : Prop where
  books : Books s
  owned : Owned s
  sleeping : Sleeping s

/-- Other threads that would write, or that wait for an upgrade, are seen in the fields. -/
theorem Books.no_writer (books : Books s) (write : s.lock.wantWrite = false)
    (upgrade : s.lock.wantUpgrade = false) :
    ∀ th ∈ s.threads, (∀ h ∈ th.holds, h = .read) ∧ th.upgrading = false := by
  intro th member
  have none := books.claims
  rw [write] at none
  have free := books.upgrades
  rw [upgrade] at free
  have claims := tally_eq_zero.mp none.symm th member
  have upgrades := tally_eq_zero.mp free.symm th member
  unfold Thread.claims at claims
  unfold Thread.upgrades at upgrades
  refine ⟨(books.ordered th member).no_deep (by lia) (by lia), ?_⟩
  cases waits : th.upgrading with
  | false => rfl
  | true => simp [waits] at upgrades

theorem Books.no_reader (books : Books s) (none : s.lock.readCount = 0) :
    ∀ th ∈ s.threads, .read ∉ th.holds := by
  intro th member
  have count := books.reads
  rw [none] at count
  have zero := tally_eq_zero.mp (Int.natCast_eq_zero.mp count.symm) th member
  exact List.count_eq_zero.mp zero

theorem writes_iff : th.writes ↔ ¬ ∀ h ∈ th.holds, h = .read := by
  unfold Thread.writes
  push Not
  rfl

/-- A thread that waits beside the holds it has already does nothing to the others. -/
theorem Locked.sleep (locked : Locked s) (there : s.threads[t]? = some th)
    (waits : th.phase ≠ .running) (blocked : Blocked s.lock th.phase) : Locked (s.sleep t th) := by
  obtain ⟨books, owned, sleeping⟩ := locked
  refine ⟨?_, ?_, ?_⟩
  · refine books.put there rfl rfl rfl rfl (fun j b other found => ⟨?_, ?_⟩)
      (books.ordered th (List.mem_of_getElem? there))
    · exact books.apart t j th b other.symm there found
    · exact books.apart j t b th other found there
  · refine owned.put there rfl (fun known => ?_) (owned.deep t th there) id
    obtain ⟨b, found, -, running⟩ := owned.owner t known
    obtain rfl := Option.some.inj (there.symm.trans found)
    exact absurd running waits
  · exact sleeping.put (fun _ => rfl) (fun _ => ⟨rfl, blocked⟩) fun j b _ _ _ blocked => by
      cases phase : b.phase <;> rw [phase] at blocked <;> exact blocked

end Invariant

section Loops

variable {s : LockState} {t : Nat} {th : Thread}

theorem holds_nil {holds : List Hold} (reads : ∀ h ∈ holds, h = .read) (none : .read ∉ holds) :
    holds = [] :=
  List.eq_nil_iff_forall_not_mem.mpr fun h member => none (reads h member ▸ member)

theorem Thread.phase_self {p : Phase} (phase : th.phase = p) : { th with phase := p } = th := by
  subst phase
  rfl

theorem not_writes (nil : th.holds = []) : ¬ th.writes := by
  rintro ⟨h, member, -⟩
  rw [nil] at member
  cases member

theorem drain_locked (locked : Locked s) (there : s.threads[t]? = some th)
    (phase : th.phase = .drain) :
    Locked (drain s t th).1 := by
  unfold drain
  rw [th.phase_self phase]
  split
  · rename_i blocked
    exact locked.sleep there (by rw [phase]; rintro ⟨⟩) (by rw [phase]; exact blocked)
  · rename_i through
    obtain ⟨books, owned, sleeping⟩ := locked
    obtain ⟨count, free⟩ := not_or.mp through
    have count := not_not.mp count
    have upgrades := books.upgrades
    rw [Bool.eq_false_iff.mpr free] at upgrades
    have upgrades := tally_eq_zero.mp upgrades.symm
    have mine : th.claims = th.holds.count .write + 1 := by
      rw [Thread.claims, Thread.draining, phase]
      rfl
    have claimed : tally Thread.claims s.threads ≤ 1 := by
      rw [← books.claims]
      exact Bool.toNat_le _
    have empty (b : Thread) (member : b ∈ s.threads) (write : b.holds.count .write = 0) :
        b.holds = [] := by
      have upgrade := upgrades b member
      unfold Thread.upgrades at upgrade
      exact holds_nil ((books.ordered b member).no_deep (by lia) write)
        (books.no_reader count b member)
    have here := List.mem_of_getElem? there
    have nil : th.holds = [] := by
      refine empty th here ?_
      have own := @le_tally _ Thread.claims _ _ _ there
      lia
    have others (j : Nat) (b : Thread) (other : j ≠ t) (found : s.threads[j]? = some b) :
        b.holds = [] ∧ b.upgrading = false := by
      have member := List.mem_of_getElem? found
      constructor
      · refine empty b member ?_
        have both := @add_le_tally _ Thread.claims _ _ _ _ _ other found there
        unfold Thread.claims at *
        lia
      · have upgrade := upgrades b member
        cases waits : b.upgrading with
        | false => rfl
        | true => simp [Thread.upgrades, waits] at upgrade
    refine ⟨?_, ?_, ?_⟩
    · refine books.put there ?_ ?_ ?_ ?_ (fun j b other found => ?_) ?_
      · simp [Thread.reads, Thread.takes, nil]
      · simp [Thread.deeps, Thread.takes, nil]
      · simp [Thread.upgrades, Thread.upgrading, Thread.takes, nil, phase]
      · simp [Thread.claims, Thread.draining, Thread.takes, nil, phase]
      · obtain ⟨none, steady⟩ := others j b other found
        exact ⟨⟨fun _ => none, (by rintro ⟨⟩)⟩, fun wrong => absurd wrong (not_writes none),
          fun wrong => by simp [steady] at wrong⟩
      · rw [Thread.takes, nil]
        exact ⟨0, 0, 1, rfl, fun wrong => absurd wrong (Nat.lt_irrefl 0)⟩
    · refine owned.put there rfl (fun _ => ⟨List.cons_ne_nil _ _, rfl⟩) (fun wrong => ?_) id
      rw [Thread.takes, nil] at wrong
      simp at wrong
    · exact sleeping.put id (by rintro ⟨⟩) fun _ _ _ _ _ blocked => blocked

theorem drain_put {l : Lock} {p : Phase} {asleep : Bool} : drain { s with lock := l } t th =
    drain (s.put l t { th with phase := p, asleep := asleep }) t { th with phase := p,
                                                                           asleep := asleep } := by
  simp only [drain, LockState.sleep, put_put]
  rfl

theorem waitWrite_put {p : Phase} {asleep : Bool} : waitWrite s t th =
    waitWrite (s.put s.lock t { th with phase := p, asleep := asleep }) t { th with phase := p,
                                                                                    asleep := asleep } := by
  simp only [waitWrite, drain, LockState.sleep, LockState.put, List.set_set]
  rfl

theorem waitRead_put {p : Phase} {asleep : Bool} : waitRead s t th =
    waitRead (s.put s.lock t { th with phase := p, asleep := asleep }) t { th with phase := p,
                                                                                   asleep := asleep } := by
  simp only [waitRead, LockState.sleep, LockState.put, List.set_set]
  rfl

theorem waitUpgrade_put {l : Lock} {trying asleep : Bool} {p : Phase} :
    waitUpgrade { s with lock := l } t th trying =
    waitUpgrade (s.put l t { th with phase := p, asleep := asleep }) t { th with phase := p,
                                                                                 asleep := asleep }
                                                                                 trying := by
  simp only [waitUpgrade, LockState.sleep, LockState.put, List.set_set]
  rfl

theorem Owned.waits (owned : Owned s) (there : s.threads[t]? = some th)
    (waits : th.phase ≠ .running) :
    s.lock.thread ≠ some t := by
  intro known
  obtain ⟨b, found, -, running⟩ := owned.owner t known
  obtain rfl := Option.some.inj (there.symm.trans found)
  exact waits running

theorem Books.readCount_nonneg (books : Books s) : 0 ≤ s.lock.readCount := by
  rw [books.reads]
  exact Int.natCast_nonneg _

theorem waitWrite_locked (locked : Locked s) (there : s.threads[t]? = some th)
    (phase : th.phase = .lockWrite) :
    Locked (waitWrite s t th).1 := by
  unfold waitWrite
  split
  · rename_i blocked
    rw [th.phase_self phase]
    exact locked.sleep there (by rw [phase]; rintro ⟨⟩) (by rw [phase]; exact blocked)
  · rename_i free
    obtain ⟨books, owned, sleeping⟩ := locked
    have free := Bool.eq_false_iff.mpr free
    have unknown := owned.waits there (by rw [phase]; rintro ⟨⟩)
    rw [@drain_put s t th _ .drain false]
    refine drain_locked ⟨?_, ?_, ?_⟩ (put_get there) rfl
    · refine books.put there rfl rfl ?_ ?_ (fun j b other found => ⟨?_, ?_⟩)
        (books.ordered th (List.mem_of_getElem? there))
      · simp [Thread.upgrades, Thread.upgrading, phase]
      · simp [Thread.claims, Thread.draining, phase, free]
        omega
      · exact ⟨(books.apart t j th b other.symm there found).1, (by rintro ⟨⟩)⟩
      · exact books.apart j t b th other found there
    · exact owned.put there rfl (fun known => absurd known unknown) (owned.deep t th there) id
    · refine sleeping.put id (by rintro ⟨⟩) fun j b _ _ _ blocked => ?_
      cases phase : b.phase <;> rw [phase] at blocked <;> simp_all [Blocked]

theorem waitRead_locked (locked : Locked s) (there : s.threads[t]? = some th)
    (phase : th.phase = .lockRead) :
    Locked (waitRead s t th).1 := by
  unfold waitRead
  rw [th.phase_self phase]
  split
  · rename_i blocked
    exact locked.sleep there (by rw [phase]; rintro ⟨⟩) (by rw [phase]; exact blocked)
  · rename_i through
    obtain ⟨books, owned, sleeping⟩ := locked
    obtain ⟨write, upgrade⟩ := not_or.mp through
    have none := books.no_writer (Bool.eq_false_iff.mpr write) (Bool.eq_false_iff.mpr upgrade)
    have still := books.readCount_nonneg
    obtain ⟨own, -⟩ := none th (List.mem_of_getElem? there)
    have reader : ¬ (th.takes .read).writes :=
      fun wrong => writes_iff.mp wrong (List.forall_mem_cons.mpr ⟨rfl, own⟩)
    refine ⟨?_, ?_, ?_⟩
    · refine books.put there ?_ ?_ ?_ ?_ (fun j b other found => ?_)
        (books.ordered th (List.mem_of_getElem? there)).read
      · simp [Thread.reads, Thread.takes]
        omega
      · simp [Thread.deeps, Thread.takes]
      · simp [Thread.upgrades, Thread.upgrading, Thread.takes, phase]
      · simp [Thread.claims, Thread.draining, Thread.takes, phase]
      · obtain ⟨reads, steady⟩ := none b (List.mem_of_getElem? found)
        refine ⟨⟨fun wrong => absurd wrong reader, (by rintro ⟨⟩)⟩, fun wrong => ?_,
          fun wrong => ?_⟩
        · exact absurd reads (writes_iff.mp wrong)
        · rw [steady] at wrong
          cases wrong
    · refine owned.put there rfl (fun _ => ⟨List.cons_ne_nil _ _, rfl⟩)
        (fun deep => owned.deep t th there ?_) id
      exact (List.mem_cons.mp deep).resolve_left (by rintro ⟨⟩)
    · refine sleeping.put id (by rintro ⟨⟩) fun j b _ _ _ blocked => ?_
      cases phase : b.phase <;> rw [phase] at blocked <;> simp_all [Blocked] <;> omega

theorem Ordered.upgrade {holds : List Hold} (ordered : Ordered holds) (deep : .deep ∉ holds)
    (upgrade : holds.count .upgrade = 0) : Ordered (.upgrade :: holds) := by
  obtain ⟨d, u, w, eq, -⟩ := ordered
  obtain ⟨counted, upgrades, -⟩ := Ordered.counts eq
  rw [List.count_eq_zero.mpr deep] at counted
  rw [upgrade] at upgrades
  subst counted upgrades
  refine ⟨0, 1, w, ?_, fun wrong => absurd wrong (Nat.lt_irrefl 0)⟩
  rw [List.filter_cons_of_pos (by decide), eq]
  rfl

theorem waitUpgrade_locked {trying : Bool} (locked : Locked s) (there : s.threads[t]? = some th)
    (phase : th.phase = .upgrade trying) : Locked (waitUpgrade s t th trying).1 := by
  unfold waitUpgrade
  rw [th.phase_self phase]
  split
  · rename_i blocked
    exact locked.sleep there (by rw [phase]; rintro ⟨⟩) (by rw [phase]; exact blocked)
  · rename_i through
    obtain ⟨books, owned, sleeping⟩ := locked
    have count := not_not.mp through
    have here := List.mem_of_getElem? there
    have waits : th.upgrading = true := by rw [Thread.upgrading, phase]
    have unknown := owned.waits there (by rw [phase]; rintro ⟨⟩)
    have mine : th.upgrades = th.holds.count .upgrade + 1 := by
      rw [Thread.upgrades, waits]
      rfl
    have claimed : tally Thread.upgrades s.threads ≤ 1 := by
      rw [← books.upgrades]
      exact Bool.toNat_le _
    have own := @le_tally _ Thread.upgrades _ _ _ there
    have others (j : Nat) (b : Thread) (other : j ≠ t) (found : s.threads[j]? = some b) :
        b.holds = [] ∧ b.upgrading = false := by
      constructor
      · have silent := (books.apart t j th b other.symm there found).2 waits
        rw [writes_iff, not_not] at silent
        exact holds_nil silent (books.no_reader count b (List.mem_of_getElem? found))
      · have both := @add_le_tally _ Thread.upgrades _ _ _ _ _ other found there
        cases steady : b.upgrading with
        | false => rfl
        | true =>
          simp only [Thread.upgrades, steady, Bool.toNat_true] at both mine
          lia
    refine ⟨?_, ?_, ?_⟩
    · refine books.put there ?_ ?_ ?_ ?_ (fun j b other found => ?_) ?_
      · simp [Thread.reads, Thread.takes]
      · simp [Thread.deeps, Thread.takes]
      · simp [Thread.upgrades, Thread.upgrading, Thread.takes, phase]
      · simp [Thread.claims, Thread.draining, Thread.takes, phase]
      · obtain ⟨none, steady⟩ := others j b other found
        exact ⟨⟨fun _ => none, (by rintro ⟨⟩)⟩, fun wrong => absurd wrong (not_writes none),
          fun wrong => by simp [steady] at wrong⟩
      · exact (books.ordered th here).upgrade (fun deep => unknown (owned.deep t th there deep))
          (by lia)
    · refine owned.put there rfl (fun _ => ⟨List.cons_ne_nil _ _, rfl⟩)
        (fun deep => owned.deep t th there ?_) id
      exact (List.mem_cons.mp deep).resolve_left (by rintro ⟨⟩)
    · exact sleeping.put id (by rintro ⟨⟩) fun _ _ _ _ _ blocked => blocked

end Loops

section Calls

variable {s : LockState} {t : Nat} {th : Thread} {h : Hold} {rest : List Hold}

theorem Sleeping.awake (sleeping : Sleeping s) (there : s.threads[t]? = some th)
    (running : th.phase = .running) :
    th.asleep = false := by
  cases asleep : th.asleep with
  | false => rfl
  | true =>
    have blocked := (sleeping th (List.mem_of_getElem? there) asleep).2
    rw [running] at blocked
    exact blocked.elim

theorem Locked.enter {p : Phase} (locked : Locked s) (there : s.threads[t]? = some th)
    (running : th.phase = .running) (unknown : s.lock.thread ≠ some t)
    (first : p = .lockWrite ∨ p = .lockRead) :
    Locked (s.put s.lock t { th with phase := p, asleep := false }) := by
  obtain ⟨books, owned, sleeping⟩ := locked
  refine ⟨?_, ?_, ?_⟩
  · refine books.put there rfl rfl ?_ ?_ (fun j b other found => ⟨?_, ?_⟩)
      (books.ordered th (List.mem_of_getElem? there))
    · rcases first with rfl | rfl <;> simp [Thread.upgrades, Thread.upgrading, running]
    · rcases first with rfl | rfl <;> simp [Thread.claims, Thread.draining, running]
    · refine ⟨(books.apart t j th b other.symm there found).1, ?_⟩
      rcases first with rfl | rfl
      · rintro ⟨⟩
      · rintro ⟨⟩
    · exact books.apart j t b th other found there
  · exact owned.put there rfl (fun known => absurd known unknown) (owned.deep t th there) id
  · exact sleeping.put id (by rintro ⟨⟩) fun _ _ _ _ _ blocked => blocked

theorem Locked.recurse (locked : Locked s) (there : s.threads[t]? = some th)
    (running : th.phase = .running) (known : s.lock.thread = some t) (writes : th.writes) :
    Locked (s.put { s.lock with recursionDepth := s.lock.recursionDepth + 1 }
      t (th.takes .deep)) := by
  obtain ⟨books, owned, sleeping⟩ := locked
  refine ⟨?_, ?_, ?_⟩
  · refine books.put there ?_ ?_ ?_ ?_ (fun j b other found => ⟨?_, ?_⟩) ?_
    · simp [Thread.reads, Thread.takes]
    · simp [Thread.deeps, Thread.takes]
      omega
    · simp [Thread.upgrades, Thread.upgrading, Thread.takes, running]
    · simp [Thread.claims, Thread.draining, Thread.takes, running]
    · exact ⟨fun _ => (books.apart t j th b other.symm there found).1 writes, (by rintro ⟨⟩)⟩
    · obtain ⟨silent, steady⟩ := books.apart j t b th other found there
      refine ⟨fun wrong => ?_, fun wrong => absurd writes (steady wrong)⟩
      exact absurd (silent wrong) fun nil => not_writes nil writes
    · exact (books.ordered th (List.mem_of_getElem? there)).deep writes
  · exact owned.put there rfl (fun _ => ⟨List.cons_ne_nil _ _, rfl⟩) (fun _ => known) id
  · exact sleeping.put id (by rintro ⟨⟩) fun j b _ _ _ blocked => by
      cases phase : b.phase <;> rw [phase] at blocked <;> exact blocked

theorem Locked.reread (locked : Locked s) (there : s.threads[t]? = some th)
    (running : th.phase = .running) (known : s.lock.thread = some t) :
    Locked (s.put { s.lock with readCount := s.lock.readCount + 1 } t (th.takes .read)) := by
  obtain ⟨books, owned, sleeping⟩ := locked
  have still := books.readCount_nonneg
  have some : th.holds ≠ [] := by
    obtain ⟨b, found, holds, -⟩ := owned.owner t known
    obtain rfl := Option.some.inj (there.symm.trans found)
    exact holds
  have same : (th.takes .read).writes → th.writes := by
    rintro ⟨h, member, other⟩
    exact ⟨h, (List.mem_cons.mp member).resolve_left other, other⟩
  refine ⟨?_, ?_, ?_⟩
  · refine books.put there ?_ ?_ ?_ ?_ (fun j b other found => ⟨?_, ?_⟩) ?_
    · simp [Thread.reads, Thread.takes]
      omega
    · simp [Thread.deeps, Thread.takes]
    · simp [Thread.upgrades, Thread.upgrading, Thread.takes, running]
    · simp [Thread.claims, Thread.draining, Thread.takes, running]
    · exact ⟨fun writes => (books.apart t j th b other.symm there found).1 (same writes),
        (by rintro ⟨⟩)⟩
    · obtain ⟨silent, steady⟩ := books.apart j t b th other found there
      exact ⟨fun wrong => absurd (silent wrong) some,
        fun wrong writes => steady wrong (same writes)⟩
    · exact (books.ordered th (List.mem_of_getElem? there)).read
  · refine owned.put there rfl (fun _ => ⟨List.cons_ne_nil _ _, rfl⟩)
      (fun deep => owned.deep t th there ?_) id
    exact (List.mem_cons.mp deep).resolve_left (by rintro ⟨⟩)
  · refine sleeping.put id (by rintro ⟨⟩) fun j b _ _ _ blocked => ?_
    cases phase : b.phase <;> rw [phase] at blocked <;> simp_all [Blocked] <;> omega

theorem tally_pos {α : Type} {f : α → Nat} {l : List α} (some : tally f l ≠ 0) :
    ∃ (j : Nat) (a : α), l[j]? = Option.some a ∧ f a ≠ 0 := by
  by_contra none
  refine some (tally_eq_zero.mpr fun a member => ?_)
  obtain ⟨j, found⟩ := List.mem_iff_getElem?.mp member
  by_contra wrong
  exact none ⟨j, a, found, wrong⟩

theorem release_counts (books : Books s) (there : s.threads[t]? = some th)
    (running : th.phase = .running) (holds : th.holds = h :: rest) (other : h ≠ .read) (c : Int) :
    Lock.release { s.lock with readCount := c } =
      { s.lock with
        readCount := c
        recursionDepth := s.lock.recursionDepth - if h = .deep then 1 else 0
        wantUpgrade := if h = .upgrade then false else s.lock.wantUpgrade
        wantWrite := if h = .write then false else s.lock.wantWrite } ∧
      (h = .deep → 0 < s.lock.recursionDepth) ∧ (h = .upgrade → s.lock.wantUpgrade = true) ∧
      (h = .write → s.lock.wantWrite = true) := by
  have writes : th.writes := ⟨h, by rw [holds]; exact List.mem_cons_self, other⟩
  have some : th.holds ≠ [] := by simp [holds]
  have ordered := books.ordered th (List.mem_of_getElem? there)
  rw [holds] at ordered
  obtain ⟨-, deep, upgrade, write⟩ := ordered.release other
  rw [← holds] at deep upgrade write
  -- whoever else would write has this one without holds
  have alone (j : Nat) (b : Thread) (found : s.threads[j]? = Option.some b) (busy : b.writes ∨
      b.upgrading = true) : j = t := by
    by_contra apart
    obtain ⟨silent, steady⟩ := books.apart j t b th apart found there
    rcases busy with busy | busy
    · exact some (silent busy)
    · exact steady busy writes
  have depth : s.lock.recursionDepth ≠ 0 → 0 < th.holds.count .deep := by
    rw [books.deeps]
    intro positive
    obtain ⟨j, b, found, count⟩ := tally_pos positive
    have member : .deep ∈ b.holds := List.count_pos_iff.mp (Nat.pos_of_ne_zero count)
    obtain rfl := alone j b found (.inl ⟨.deep, member, (by rintro ⟨⟩)⟩)
    obtain rfl := Option.some.inj (there.symm.trans found)
    exact Nat.pos_of_ne_zero count
  have upgraded : s.lock.wantUpgrade = true → 0 < th.holds.count .upgrade := by
    intro set
    have counted := books.upgrades
    rw [set] at counted
    have positive : tally Thread.upgrades s.threads ≠ 0 := by
      rw [← counted]
      decide
    obtain ⟨j, b, found, count⟩ := tally_pos positive
    have busy : b.writes ∨ b.upgrading = true := by
      cases waits : b.upgrading with
      | true => exact .inr rfl
      | false =>
        simp only [Thread.upgrades, waits, Bool.toNat_false, Nat.add_zero] at count
        exact .inl ⟨.upgrade, List.count_pos_iff.mp (Nat.pos_of_ne_zero count), (by rintro ⟨⟩)⟩
    obtain rfl := alone j b found busy
    obtain rfl := Option.some.inj (there.symm.trans found)
    simp only [Thread.upgrades, Thread.upgrading, running, Bool.toNat_false, Nat.add_zero] at count
    exact Nat.pos_of_ne_zero count
  have deeps : th.holds.count .deep ≤ s.lock.recursionDepth := by
    rw [books.deeps]
    exact @le_tally _ Thread.deeps _ _ _ there
  have upgrades : th.upgrades ≤ s.lock.wantUpgrade.toNat := by
    rw [books.upgrades]
    exact le_tally there
  have claims : th.claims ≤ s.lock.wantWrite.toNat := by
    rw [books.claims]
    exact le_tally there
  have inside (k : Hold) (same : h = k) : 0 < th.holds.count k := by
    rw [holds, same]
    exact List.count_pos_iff.mpr List.mem_cons_self
  unfold Lock.release
  dsimp only
  by_cases level : s.lock.recursionDepth = 0
  · rw [if_neg (not_not.mpr level)]
    have flat : th.holds.count .deep = 0 := by omega
    cases set : s.lock.wantUpgrade with
    | true =>
      obtain rfl := upgrade flat (upgraded set)
      simp
    | false =>
      rw [set] at upgrades
      have none : th.holds.count .upgrade = 0 := by
        unfold Thread.upgrades at upgrades
        exact Nat.eq_zero_of_le_zero (Nat.le_trans (Nat.le_add_right _ _) upgrades)
      obtain rfl := write flat none
      have claimed := inside .write rfl
      cases wanted : s.lock.wantWrite with
      | true => simp
      | false =>
        rw [wanted] at claims
        unfold Thread.claims at claims
        exact absurd (Nat.lt_of_lt_of_le claimed (Nat.le_trans (Nat.le_add_right _ _) claims))
          (Nat.lt_irrefl 0)
  · rw [if_pos level]
    obtain rfl := deep (depth level)
    simp [Nat.pos_of_ne_zero level]

theorem Books.apart_less {th' : Thread} (books : Books s) (there : s.threads[t]? = some th)
    (running : th'.phase = .running) (writes : th'.writes → th.writes)
    (nil : th.holds = [] → th'.holds = []) (j : Nat) (b : Thread) (other : j ≠ t)
    (found : s.threads[j]? = some b) : Apart th' b ∧ Apart b th' := by
  have one := books.apart t j th b other.symm there found
  have two := books.apart j t b th other found there
  refine ⟨⟨fun busy => one.1 (writes busy), fun wrong => ?_⟩, fun busy => nil (two.1 busy),
    fun waits busy => ?_⟩
  · simp [Thread.upgrading, running] at wrong
  · exact two.2 waits (writes busy)

theorem writes_tail (holds : th.holds = h :: rest) : Thread.writes { th with holds := rest } →
    th.writes := by
  rintro ⟨k, member, other⟩
  exact ⟨k, by rw [holds]; exact List.mem_cons_of_mem h member, other⟩

theorem Locked.unread (locked : Locked s) (there : s.threads[t]? = some th)
    (running : th.phase = .running) (holds : th.holds = .read :: rest)
    (last : rest = [] → s.lock.thread ≠ some t) :
    Locked (s.put { s.lock with readCount := s.lock.readCount - 1 }
      t { th with holds := rest }).wakeup := by
  obtain ⟨books, owned, sleeping⟩ := locked
  have awake := sleeping.awake there running
  refine ⟨Books.wakeup ?_, Owned.wakeup ?_, wakeup_sleeping ?_⟩
  · refine books.put there ?_ ?_ ?_ ?_
      (books.apart_less there running (writes_tail holds) fun nil => ?_) ?_
    · simp [Thread.reads, holds]
    · simp [Thread.deeps, holds]
    · simp [Thread.upgrades, Thread.upgrading, holds, running]
    · simp [Thread.claims, Thread.draining, holds, running]
    · simp [holds] at nil
    · have ordered := books.ordered th (List.mem_of_getElem? there)
      rw [holds] at ordered
      exact ordered.of_read
  · refine owned.put there rfl (fun known => ⟨fun nil => last nil known, running⟩)
      (fun deep => owned.deep t th there ?_) id
    rw [holds]
    exact List.mem_cons_of_mem _ deep
  · intro b member asleep
    rcases List.mem_or_eq_of_mem_set member with old | rfl
    · exact (sleeping b old asleep).1
    · exact absurd asleep (by simp [awake])

theorem lockDone_locked (locked : Locked s) (there : s.threads[t]? = some th)
    (running : th.phase = .running) (holds : th.holds = h :: rest)
    (count : h ≠ .read → s.lock.readCount = 0) (last : rest = [] → s.lock.thread ≠ some t) :
    Locked (lockDone s t th).1 := by
  unfold lockDone
  dsimp only
  rw [holds, List.tail_cons]
  by_cases read : h = .read
  · subst read
    have some : s.lock.readCount ≠ 0 := by
      have own := @le_tally _ Thread.reads _ _ _ there
      have one : 0 < th.reads := List.count_pos_iff.mpr (by rw [holds]; exact List.mem_cons_self)
      rw [locked.books.reads]
      lia
    rw [if_pos some]
    exact locked.unread there running holds last
  · obtain ⟨books, owned, sleeping⟩ := locked
    have awake := sleeping.awake there running
    rw [if_neg (not_not.mpr (count read))]
    obtain ⟨released, deep, upgrade, write⟩ :=
      release_counts books there running holds read s.lock.readCount
    change Lock.release s.lock = _ at released
    rw [released]
    refine ⟨Books.wakeup ?_, Owned.wakeup ?_, wakeup_sleeping ?_⟩
    · refine books.put there ?_ ?_ ?_ ?_
        (books.apart_less there running (writes_tail holds) fun nil => ?_) ?_
      · simp [Thread.reads, holds, read]
      · by_cases kind : h = .deep
        · have some := deep kind
          simp [Thread.deeps, holds, kind]
          lia
        · simp [Thread.deeps, holds, kind]
      · by_cases kind : h = .upgrade
        · simp [Thread.upgrades, Thread.upgrading, holds, running, kind, upgrade kind]
          lia
        · simp [Thread.upgrades, Thread.upgrading, holds, running, kind, List.count_cons_of_ne kind]
      · by_cases kind : h = .write
        · simp [Thread.claims, Thread.draining, holds, running, kind, write kind]
          lia
        · simp [Thread.claims, Thread.draining, holds, running, kind, List.count_cons_of_ne kind]
      · simp [holds] at nil
      · have ordered := books.ordered th (List.mem_of_getElem? there)
        rw [holds] at ordered
        exact (ordered.release read).1
    · refine owned.put there rfl (fun known => ⟨fun nil => last nil known, running⟩)
        (fun deep => owned.deep t th there ?_) id
      rw [holds]
      exact List.mem_cons_of_mem _ deep
    · intro b member asleep
      rcases List.mem_or_eq_of_mem_set member with old | rfl
      · exact (sleeping b old asleep).1
      · exact absurd asleep (by simp [awake])

theorem lockWriteToRead_locked (locked : Locked s) (there : s.threads[t]? = some th)
    (running : th.phase = .running) (holds : th.holds = h :: rest) (other : h ≠ .read) :
      Locked (lockWriteToRead s t th).1 := by
  obtain ⟨books, owned, sleeping⟩ := locked
  have awake := sleeping.awake there running
  obtain ⟨released, deep, upgrade, write⟩ :=
    release_counts books there running holds other (s.lock.readCount + 1)
  have ordered := books.ordered th (List.mem_of_getElem? there)
  rw [holds] at ordered
  unfold lockWriteToRead
  dsimp only
  rw [released, holds, List.tail_cons]
  refine ⟨Books.wakeup ?_, Owned.wakeup ?_, wakeup_sleeping ?_⟩
  · refine books.put there ?_ ?_ ?_ ?_ (books.apart_less there running ?_ fun nil => ?_)
      (ordered.release other).1.read
    · simp [Thread.reads, holds, List.count_cons_of_ne other]
      lia
    · by_cases kind : h = .deep
      · have some := deep kind
        simp [Thread.deeps, holds, kind]
        lia
      · simp [Thread.deeps, holds, kind]
    · by_cases kind : h = .upgrade
      · simp [Thread.upgrades, Thread.upgrading, holds, running, kind, upgrade kind]
        lia
      · simp [Thread.upgrades, Thread.upgrading, holds, running, kind, List.count_cons_of_ne kind]
    · by_cases kind : h = .write
      · simp [Thread.claims, Thread.draining, holds, running, kind, write kind]
        lia
      · simp [Thread.claims, Thread.draining, holds, running, kind, List.count_cons_of_ne kind]
    · rintro ⟨k, member, writes⟩
      refine ⟨k, ?_, writes⟩
      rw [holds]
      exact List.mem_cons_of_mem h ((List.mem_cons.mp member).resolve_left writes)
    · simp [holds] at nil
  · refine owned.put there rfl (fun _ => ⟨List.cons_ne_nil _ _, running⟩)
      (fun deep => owned.deep t th there ?_) id
    rw [holds]
    exact List.mem_cons_of_mem _ ((List.mem_cons.mp deep).resolve_left (by rintro ⟨⟩))
  · intro b member asleep
    rcases List.mem_or_eq_of_mem_set member with old | rfl
    · exact (sleeping b old asleep).1
    · exact absurd asleep (by simp [awake])

theorem Locked.deepen (locked : Locked s) (there : s.threads[t]? = some th)
    (running : th.phase = .running) (holds : th.holds = .read :: rest)
    (known : s.lock.thread = some t) (writes : th.writes) :
    Locked (s.put { s.lock with readCount := s.lock.readCount - 1,
                                recursionDepth := s.lock.recursionDepth + 1 } t
      (Thread.takes { th with holds := rest } .deep)) := by
  obtain ⟨books, owned, sleeping⟩ := locked
  have ordered := books.ordered th (List.mem_of_getElem? there)
  have below : ∃ k ∈ rest, k ≠ .read := by
    obtain ⟨k, member, other⟩ := writes
    rw [holds] at member
    exact ⟨k, (List.mem_cons.mp member).resolve_left other, other⟩
  refine ⟨?_, ?_, ?_⟩
  · refine books.put there ?_ ?_ ?_ ?_ (books.apart_less there rfl (fun _ => writes) fun nil => ?_)
      ?_
    · simp [Thread.reads, Thread.takes, holds]
    · simp [Thread.deeps, Thread.takes, holds]
      lia
    · simp [Thread.upgrades, Thread.upgrading, Thread.takes, holds, running]
    · simp [Thread.claims, Thread.draining, Thread.takes, holds, running]
    · simp [holds] at nil
    · rw [holds] at ordered
      exact ordered.of_read.deep below
  · exact owned.put there rfl (fun _ => ⟨List.cons_ne_nil _ _, rfl⟩) (fun _ => known) id
  · refine sleeping.put id (by rintro ⟨⟩) fun j b other found _ blocked => ?_
    cases phase : b.phase with
    | running => rw [phase] at blocked; exact blocked.elim
    | lockWrite => rw [phase] at blocked; exact blocked
    | lockRead => rw [phase] at blocked; exact blocked
    | upgrade trying =>
      exact absurd writes
        ((books.apart j t b th other found there).2 (by rw [Thread.upgrading, phase]))
    | drain =>
      -- the thread writes by an upgrade, since another one has `want_write`
      refine .inr ?_
      have both := @add_le_tally _ Thread.claims _ _ _ _ _ other found there
      rw [← books.claims] at both
      have one := Bool.toNat_le s.lock.wantWrite
      simp only [Thread.claims, Thread.draining, phase, running, Bool.toNat_true,
        Bool.toNat_false] at both
      have upgrades := @le_tally _ Thread.upgrades _ _ _ there
      rw [← books.upgrades] at upgrades
      cases set : s.lock.wantUpgrade with
      | true => rfl
      | false =>
        rw [set] at upgrades
        simp only [Thread.upgrades, Bool.toNat_false] at upgrades
        exact absurd (ordered.no_deep (by lia) (by lia)) (writes_iff.mp writes)

theorem Locked.ask {trying : Bool} (locked : Locked s) (there : s.threads[t]? = some th)
    (running : th.phase = .running) (holds : th.holds = .read :: rest)
    (unknown : s.lock.thread ≠ some t) (free : s.lock.wantUpgrade = false) :
    Locked (waitUpgrade { s with lock := { s.lock with readCount := s.lock.readCount - 1,
                                                       wantUpgrade := true } } t
      { th with holds := rest } trying).1 := by
  obtain ⟨books, owned, sleeping⟩ := locked
  have ordered := books.ordered th (List.mem_of_getElem? there)
  have steady (b : Thread) (member : b ∈ s.threads) : b.upgrading = false := by
    have none := books.upgrades
    rw [free] at none
    have zero := tally_eq_zero.mp none.symm b member
    cases waits : b.upgrading with
    | false => rfl
    | true => simp [Thread.upgrades, waits] at zero
  rw [@waitUpgrade_put s t _ _ trying false (.upgrade trying)]
  refine waitUpgrade_locked ⟨?_, ?_, ?_⟩ (put_get there) rfl
  · refine books.put there ?_ ?_ ?_ ?_ (fun j b other found => ?_) ?_
    · simp [Thread.reads, holds]
    · simp [Thread.deeps, holds]
    · simp [Thread.upgrades, Thread.upgrading, holds, running, free]
      omega
    · simp [Thread.claims, Thread.draining, holds, running]
    · have one := books.apart t j th b other.symm there found
      have two := books.apart j t b th other found there
      refine ⟨⟨fun writes => one.1 (writes_tail holds writes), fun _ writes => ?_⟩,
        fun writes => ?_, fun waits => ?_⟩
      · exact absurd (two.1 writes) (by simp [holds])
      · exact absurd (two.1 writes) (by simp [holds])
      · rw [steady b (List.mem_of_getElem? found)] at waits
        cases waits
    · rw [holds] at ordered
      exact ordered.of_read
  · refine owned.put there rfl (fun known => absurd known unknown)
      (fun deep => owned.deep t th there ?_) id
    rw [holds]
    exact List.mem_cons_of_mem _ deep
  · refine sleeping.put id (by rintro ⟨⟩) fun j b other found _ blocked => ?_
    have steady := steady b (List.mem_of_getElem? found)
    cases phase : b.phase with
    | running => rw [phase] at blocked; exact blocked.elim
    | lockWrite => rw [phase] at blocked; exact blocked
    | lockRead => exact .inr rfl
    | drain => exact .inr rfl
    | upgrade trying => simp [Thread.upgrading, phase] at steady

theorem lockSetRecursive_locked (locked : Locked s) (there : s.threads[t]? = some th)
    (running : th.phase = .running) (held : .write ∈ th.holds) :
      Locked (lockSetRecursive s t th).1 := by
  obtain ⟨books, owned, sleeping⟩ := locked
  have writes : th.writes := ⟨.write, held, (by rintro ⟨⟩)⟩
  have some : th.holds ≠ [] := List.ne_nil_of_mem held
  have want : s.lock.wantWrite ≠ false := by
    intro wrong
    have own := @le_tally _ Thread.claims _ _ _ there
    rw [← books.claims, wrong] at own
    have one : 0 < th.holds.count .write := List.count_pos_iff.mpr held
    simp only [Thread.claims, Bool.toNat_false] at own
    omega
  -- nobody else is known to the lock, or has any holds
  have alone (u : Nat) (b : Thread) (found : s.threads[u]? = Option.some b) (holds : b.holds ≠ []) :
      u = t := by
    by_contra other
    exact holds ((books.apart t u th b (Ne.symm other) there found).1 writes)
  unfold lockSetRecursive
  rw [if_neg want]
  refine ⟨?_, ⟨?_, ?_, ?_, owned.calm⟩, ?_⟩
  · exact books.put there rfl rfl rfl rfl (books.apart_less there running id id)
      (books.ordered th (List.mem_of_getElem? there))
  · intro u known
    obtain rfl : t = u := Option.some.inj known
    exact ⟨{ th with recursive := true }, put_get there, some, running⟩
  · intro u b found deep
    by_cases here : u = t
    · exact congrArg Option.some here.symm
    · have found := (put_get_of_ne here).symm.trans found
      exact absurd (alone u b found (List.ne_nil_of_mem deep)) here
  · intro u b found set
    by_cases here : u = t
    · exact congrArg Option.some here.symm
    · have found := (put_get_of_ne here).symm.trans found
      obtain ⟨b', same, holds, -⟩ := owned.owner u (owned.recursive u b found set)
      exact absurd (alone u b' same holds) here
  · exact sleeping.put id (sleeping th (List.mem_of_getElem? there)) fun _ _ _ _ _ blocked =>
      blocked

theorem lockClearRecursive_locked (locked : Locked s) (there : s.threads[t]? = some th)
    (running : th.phase = .running) (set : th.recursive = true) :
      Locked (lockClearRecursive s t th).1 := by
  obtain ⟨books, owned, sleeping⟩ := locked
  have known := owned.recursive t th there set
  obtain ⟨b, found, holds, -⟩ := owned.owner t known
  obtain rfl := Option.some.inj (there.symm.trans found)
  unfold lockClearRecursive
  rw [if_neg (not_not.mpr known)]
  dsimp only
  by_cases flat : s.lock.recursionDepth = 0
  · rw [if_pos flat]
    have none := books.deeps
    rw [flat] at none
    have zero := tally_eq_zero.mp none.symm
    refine ⟨?_, ⟨(by rintro _ ⟨⟩), ?_, ?_, owned.calm⟩, ?_⟩
    · exact books.put there rfl rfl rfl rfl (books.apart_less there running id id)
        (books.ordered th (List.mem_of_getElem? there))
    · intro u c found deep
      obtain ⟨d, member, same⟩ : ∃ d ∈ s.threads, d.holds = c.holds := by
        by_cases here : u = t
        · subst here
          obtain rfl := Option.some.inj ((put_get there).symm.trans found)
          exact ⟨th, List.mem_of_getElem? there, rfl⟩
        · exact ⟨c, List.mem_of_getElem? ((put_get_of_ne here).symm.trans found), rfl⟩
      have count := zero d member
      rw [Thread.deeps, same] at count
      exact absurd deep (List.count_eq_zero.mp count)
    · intro u c found set
      by_cases here : u = t
      · subst here
        obtain rfl := Option.some.inj ((put_get there).symm.trans found)
        cases set
      · have found := (put_get_of_ne here).symm.trans found
        exact absurd (Option.some.inj ((owned.recursive u c found set).symm.trans known)) here
    · exact sleeping.put id (sleeping th (List.mem_of_getElem? there)) fun _ _ _ _ _ blocked =>
        blocked
  · rw [if_neg flat]
    refine ⟨?_, ?_, ?_⟩
    · exact books.put there rfl rfl rfl rfl (books.apart_less there running id id)
        (books.ordered th (List.mem_of_getElem? there))
    · exact owned.put there rfl (fun _ => ⟨holds, running⟩) (owned.deep t th there) (by rintro ⟨⟩)
    · exact sleeping.put id (sleeping th (List.mem_of_getElem? there)) fun _ _ _ _ _ blocked =>
        blocked

end Calls

section Runs

variable {s : LockState} {t : Nat} {th : Thread}

/-- What a thread asks for so that the fields go on to tell its holds apart: as the one that the
lock knows it asks for writing only beside writing; it releases a hold for writing only where it has
none for reading, and its last hold only when the lock does not know it any more; and with further
holds it asks for no upgrade that fails. -/
def Careful (s : LockState) (t : Nat) (th : Thread) : LockOp → Prop
  | .lockWrite | .lockTryWrite | .lockTryReadToWrite => s.lock.thread = some t → th.writes
  | .lockReadToWrite => (s.lock.thread = some t → th.writes) ∧
      (s.lock.thread ≠ some t → s.lock.wantUpgrade = true → th.holds.length = 1)
  | .lockDone => (∀ h ∈ th.holds.head?, h ≠ .read → s.lock.readCount = 0) ∧
      (th.holds.length = 1 → s.lock.thread ≠ some t)
  | .lockRead | .lockTryRead | .lockWriteToRead | .lockSetRecursive | .lockClearRecursive => True

theorem lockWrite_locked (locked : Locked s) (there : s.threads[t]? = some th)
    (running : th.phase = .running) (careful : s.lock.thread = some t → th.writes) :
      Locked (lockWrite s t th).1 := by
  unfold lockWrite
  split
  · rename_i known
    exact locked.recurse there running known (careful known)
  · rename_i unknown
    rw [@waitWrite_put s t th .lockWrite false]
    exact waitWrite_locked (locked.enter there running unknown (.inl rfl)) (put_get there) rfl

theorem lockRead_locked (locked : Locked s) (there : s.threads[t]? = some th)
    (running : th.phase = .running) :
    Locked (lockRead s t th).1 := by
  unfold lockRead
  split
  · rename_i known
    exact locked.reread there running known
  · rename_i unknown
    rw [@waitRead_put s t th .lockRead false]
    exact waitRead_locked (locked.enter there running unknown (.inr rfl)) (put_get there) rfl

theorem lockTryWrite_locked (locked : Locked s) (there : s.threads[t]? = some th)
    (running : th.phase = .running) (careful : s.lock.thread = some t → th.writes) :
      Locked (lockTryWrite s t th).1 := by
  have asked := lockWrite_locked locked there running careful
  unfold lockTryWrite
  unfold lockWrite at asked
  split
  · rename_i known
    rw [if_pos known] at asked
    exact asked
  · rename_i unknown
    split
    · exact locked
    · rename_i free
      obtain ⟨write, upgrade, read⟩ : ¬ s.lock.wantWrite = true ∧ ¬ s.lock.wantUpgrade = true ∧
          ¬ s.lock.readCount ≠ 0 := by
        simpa [not_or] using free
      rw [if_neg unknown, waitWrite, if_neg write, drain,
        if_neg (not_or.mpr ⟨read, upgrade⟩)] at asked
      exact asked

theorem lockTryRead_locked (locked : Locked s) (there : s.threads[t]? = some th)
    (running : th.phase = .running) :
    Locked (lockTryRead s t th).1 := by
  have asked := lockRead_locked locked there running
  unfold lockTryRead
  unfold lockRead at asked
  split
  · rename_i known
    rw [if_pos known] at asked
    exact asked
  · rename_i unknown
    split
    · exact locked
    · rename_i free
      rw [if_neg unknown, waitRead, if_neg free] at asked
      exact asked

theorem lockReadToWrite_locked {rest : List Hold} (locked : Locked s)
    (there : s.threads[t]? = some th) (running : th.phase = .running)
    (holds : th.holds = .read :: rest) (careful : s.lock.thread = some t → th.writes) :
    Locked (lockReadToWrite s t th).1 := by
  unfold lockReadToWrite
  dsimp only
  rw [holds, List.tail_cons]
  split
  · rename_i known
    exact locked.deepen there running holds known (careful known)
  · rename_i unknown
    split
    · exact locked.unread there running holds fun _ => unknown
    · rename_i free
      exact locked.ask there running holds unknown (Bool.eq_false_iff.mpr free)

theorem lockTryReadToWrite_locked {rest : List Hold} (locked : Locked s)
    (there : s.threads[t]? = some th) (running : th.phase = .running)
    (holds : th.holds = .read :: rest) (careful : s.lock.thread = some t → th.writes) :
    Locked (lockTryReadToWrite s t th).1 := by
  unfold lockTryReadToWrite
  dsimp only
  rw [holds, List.tail_cons]
  split
  · rename_i known
    exact locked.deepen there running holds known (careful known)
  · rename_i unknown
    split
    · exact locked
    · rename_i free
      exact locked.ask there running holds unknown (Bool.eq_false_iff.mpr free)

theorem resume_locked (locked : Locked s) (there : s.threads[t]? = some th) :
    Locked (resume s t th).1 := by
  unfold resume
  cases phase : th.phase with
  | running => exact locked
  | lockWrite => exact waitWrite_locked locked there phase
  | drain => exact drain_locked locked there phase
  | lockRead => exact waitRead_locked locked there phase
  | upgrade trying => exact waitUpgrade_locked locked there phase

theorem lockCall_locked {op : LockOp} (locked : Locked s) (there : s.threads[t]? = some th)
    (running : th.phase = .running) (permits : th.permits op) (careful : Careful s t th op) :
    Locked (lockCall s t th op).1 := by
  cases op with
  | lockWrite => exact lockWrite_locked locked there running careful
  | lockRead => exact lockRead_locked locked there running
  | lockDone =>
    obtain ⟨h, rest, holds⟩ := List.exists_cons_of_ne_nil permits.1
    refine lockDone_locked locked there running holds (careful.1 h (by rw [holds]; rfl)) fun nil =>
      careful.2 ?_
    rw [holds, nil]
    rfl
  | lockReadToWrite =>
    obtain ⟨rest, holds⟩ := List.head?_eq_some_iff.mp permits.1
    exact lockReadToWrite_locked locked there running holds careful.1
  | lockWriteToRead =>
    obtain ⟨h, first, other⟩ := permits
    obtain ⟨rest, holds⟩ := List.head?_eq_some_iff.mp first
    exact lockWriteToRead_locked locked there running holds other
  | lockTryWrite => exact lockTryWrite_locked locked there running careful
  | lockTryRead => exact lockTryRead_locked locked there running
  | lockTryReadToWrite =>
    obtain ⟨rest, holds⟩ := List.head?_eq_some_iff.mp permits.1
    exact lockTryReadToWrite_locked locked there running holds careful
  | lockSetRecursive => exact lockSetRecursive_locked locked there running permits
  | lockClearRecursive => exact lockClearRecursive_locked locked there running permits

end Runs

end FreeBsd.Vm
