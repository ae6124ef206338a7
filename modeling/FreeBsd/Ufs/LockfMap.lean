import FreeBsd.Ufs.LockfRun

/-! The lock list as a byte map. The list invariant holds along every run whose
requests name a range that `lf_advlock` can represent, and under it a granted request
and an unlock are the two updates of the map. -/
namespace FreeBsd.Ufs

open FreeBsd.Lib (Run wrap32 wrap32_eq)

section Conflict

variable {ι : Type}

def Compatible (a b : Lockf ι) : Prop :=
  Before a b ∨ Before b a ∨ a.type = .rdlck ∧ b.type = .rdlck

theorem Compatible.symm {a b : Lockf ι} (compatible : Compatible a b) : Compatible b a := by
  unfold Compatible at *
  tauto

theorem Compatible.piece {p q a b : Lockf ι} (compatible : Compatible a b) (left : Piece p a)
    (right : Piece q b) : Compatible p q := by
  rcases compatible with order | order | ⟨readA, readB⟩
  · exact .inl (right.after (left.before order))
  · exact .inr (.inl (left.after (right.before order)))
  · exact .inr (.inr ⟨left.type.trans readA, right.type.trans readB⟩)

structure LockInv (list : List (Lockf ι)) : Prop where
  sorted : Sorted list
  valid : ∀ l ∈ list, l.Valid
  compatible : ∀ a ∈ list, ∀ b ∈ list, a.id ≠ b.id → Compatible a b

theorem LockInv.edited {sources new : List (Lockf ι)} {covers : ι → Int → LockType → Prop}
    (edit : Edited sources new covers)
    (compatible : ∀ a ∈ sources, ∀ b ∈ sources, a.id ≠ b.id → Compatible a b) : LockInv new := by
  refine ⟨edit.sorted, edit.valid, ?_⟩
  intro p memberP q memberQ differ
  obtain ⟨a, memberA, left⟩ := edit.piece p memberP
  obtain ⟨b, memberB, right⟩ := edit.piece q memberQ
  have owners : a.id ≠ b.id := by rwa [← left.id, ← right.id]
  exact (compatible a memberA b memberB owners).piece left right

theorem LockInv.map {list : List (Lockf ι)} (inv : LockInv list) (f : Lockf ι → Lockf ι)
    (like : ∀ l, Like (f l) l) : LockInv (list.map f) := by
  refine ⟨?_, ?_, ?_⟩
  · unfold Sorted
    rw [List.pairwise_map]
    refine List.Pairwise.imp ?_ inv.sorted
    intro a b order same
    rw [(like a).id, (like b).id] at same
    simpa only [Before, (like a).last, (like b).start] using order same
  · intro l member
    obtain ⟨a, old, rfl⟩ := List.mem_map.mp member
    simpa only [Lockf.Valid, (like a).start, (like a).last] using inv.valid a old
  · intro p memberP q memberQ differ
    obtain ⟨a, oldA, rfl⟩ := List.mem_map.mp memberP
    obtain ⟨b, oldB, rfl⟩ := List.mem_map.mp memberQ
    rw [(like a).id, (like b).id] at differ
    simpa only [Compatible, Before, (like a).start, (like a).last, (like a).type, (like b).start,
      (like b).last, (like b).type] using inv.compatible a oldA b oldB differ

variable [DecidableEq ι]

theorem findOverlap_others (lock : Lockf ι) (list : List (Lockf ι)) :
    list = (findOverlap .others lock list).1 ++ (findOverlap .others lock list).2.2 ∧
    (∀ p ∈ (findOverlap .others lock list).1, p.id ≠ lock.id → Before p lock ∨ Before lock p) ∧
    (((findOverlap .others lock list).2 = (.none, [])) ∨
      ∃ h t, (findOverlap .others lock list).2 = (ovcase h lock, h :: t) ∧ h.id ≠ lock.id ∧
        ovcase h lock ≠ .none) := by
  induction list with
  | nil => exact ⟨rfl, by simp [findOverlap], .inl rfl⟩
  | cons lf rest ih =>
    obtain ⟨split, passed, found⟩ := ih
    by_cases skip : lf.id = lock.id ∨ ovcase lf lock = .none
    · have here : findOverlap .others lock (lf :: rest) =
          (lf :: (findOverlap .others lock rest).1, (findOverlap .others lock rest).2) := by
        rcases skip with own | clear
        · simp [findOverlap, Search.skips, own]
        · simp [findOverlap, Search.skips, clear]
      rw [here]
      refine ⟨by rw [List.cons_append, ← split], ?_, found⟩
      intro p member differ
      rcases List.mem_cons.mp member with rfl | member
      · rcases skip with own | clear
        · exact absurd own differ
        · exact ovcase_none clear
      · exact passed p member differ
    · rw [not_or] at skip
      have here : findOverlap .others lock (lf :: rest) = ([], ovcase lf lock, lf :: rest) := by
        have own := skip.1
        cases c : ovcase lf lock <;> simp [findOverlap, Search.skips, own, c]
        exact absurd c skip.2
      rw [here]
      exact ⟨rfl, by simp, .inr ⟨lf, rest, rfl, skip.1, skip.2⟩⟩

theorem getBlockLoop_none {lock : Lockf ι} (fuel : Nat) (list : List (Lockf ι))
    (enough : list.length < fuel) (none : getBlockLoop lock fuel list = none) :
    ∀ l ∈ list, l.id ≠ lock.id → Compatible lock l := by
  induction fuel generalizing list with
  | zero => omega
  | succ fuel ih =>
    obtain ⟨split, passed, found⟩ := findOverlap_others lock list
    rw [getBlockLoop] at none
    generalize findOverlap .others lock list = result at split passed found none
    obtain ⟨skip, c, rest⟩ := result
    simp only at split passed found none
    subst split
    have front : ∀ l ∈ skip, l.id ≠ lock.id → Compatible lock l := by
      intro l member differ
      rcases passed l member differ with before | after
      · exact .inr (.inl before)
      · exact .inl after
    rcases found with finish | ⟨h, t, hit, other, overlap⟩
    · cases finish
      simpa using front
    · cases hit
      have shorter : t.length < fuel := by
        simp only [List.length_append, List.length_cons] at enough
        omega
      have go : ¬ (lock.type = .wrlck ∨ h.type = .wrlck) ∧
        getBlockLoop lock fuel t = Option.none := by
        cases c : ovcase h lock with
        | none => exact absurd c overlap
        | _ =>
          simp only [c] at none
          split_ifs at none with conflict
          exact ⟨conflict, none⟩
      obtain ⟨share, rest⟩ := go
      have later := ih t shorter rest
      have readers : lock.type = .rdlck ∧ h.type = .rdlck := by
        cases first : lock.type <;> cases second : h.type <;> simp_all
      intro l member differ
      rcases List.mem_append.mp member with member | member
      · exact front l member differ
      · rcases List.mem_cons.mp member with rfl | member
        · exact .inr (.inr readers)
        · exact later l member differ

theorem getBlock_none {lock : Lockf ι} {list : List (Lockf ι)} (none : getBlock lock list = none) :
    ∀ l ∈ list, l.id ≠ lock.id → Compatible lock l :=
  getBlockLoop_none _ list (Nat.lt_succ_self _) none

theorem getBlockLoop_some {lock block : Lockf ι} (fuel : Nat) (list : List (Lockf ι))
    (found : getBlockLoop lock fuel list = some block) : block ∈ list ∧ block.id ≠ lock.id := by
  induction fuel generalizing list with
  | zero => cases found
  | succ fuel ih =>
    obtain ⟨split, _, hit⟩ := findOverlap_others lock list
    rw [getBlockLoop] at found
    generalize findOverlap .others lock list = result at split hit found
    obtain ⟨skip, c, rest⟩ := result
    simp only at split hit found
    subst split
    rcases hit with finish | ⟨h, t, hit, other, overlap⟩
    · cases finish
      cases found
    · cases hit
      have go : (if lock.type = .wrlck ∨ h.type = .wrlck then some h
          else getBlockLoop lock fuel t) = some block := by
        cases c : ovcase h lock with
        | none => exact absurd c overlap
        | _ => simpa only [c] using found
      split_ifs at go with conflict
      · cases go
        exact ⟨by simp, other⟩
      · obtain ⟨member, differ⟩ := ih t go
        exact ⟨by simp [member], differ⟩

theorem getBlock_some {lock block : Lockf ι} {list : List (Lockf ι)}
    (found : getBlock lock list = some block) : block ∈ list ∧ block.id ≠ lock.id :=
  getBlockLoop_some _ list found

theorem LockInv.granted {list : List (Lockf ι)} (inv : LockInv list) {lock : Lockf ι}
    (free : getBlock lock list = none) :
    ∀ a ∈ lock :: list, ∀ b ∈ lock :: list, a.id ≠ b.id → Compatible a b := by
  have open_ := getBlock_none free
  intro a memberA b memberB differ
  rcases List.mem_cons.mp memberA with rfl | oldA
  · rcases List.mem_cons.mp memberB with rfl | oldB
    · exact absurd rfl differ
    · exact open_ b oldB differ.symm
  · rcases List.mem_cons.mp memberB with rfl | oldB
    · exact (open_ a oldA differ).symm
    · exact inv.compatible a oldA b oldB differ

theorem LockInv.insert {list : List (Lockf ι)} (inv : LockInv list) {lock : Lockf ι}
    (ok : lock.Valid) (room : SetRoom lock list) (free : getBlock lock list = none) (fresh : Nat) :
    ∃ e, insertLock fresh lock list = some e ∧ LockInv e.list ∧
      ∀ o x t, Covers e.list o x t ↔ Assigned list lock o x t := by
  obtain ⟨e, insert, edit⟩ := insertLock_spec fresh ok inv.sorted inv.valid room
  exact ⟨e, insert, .edited edit (inv.granted free), edit.covers⟩

theorem LockInv.clear {list : List (Lockf ι)} (inv : LockInv list) {unlock : Lockf ι}
    (ok : unlock.Valid) (room : Room unlock list) (fresh : Nat) :
    ∃ e, clearLock fresh unlock list = some e ∧ LockInv e.list ∧
      ∀ o x t, Covers e.list o x t ↔ Cleared list unlock o x t := by
  obtain ⟨e, clear, edit⟩ := clearLock_spec fresh ok inv.sorted inv.valid room
  exact ⟨e, clear, .edited edit inv.compatible, edit.covers⟩

end Conflict

abbrev LockMap : Type := Owner → Int → Option LockType

def LockMap.set (m : LockMap) (owner : Owner) (inside : Int → Prop) [DecidablePred inside]
    (type : LockType) : LockMap :=
  fun o x => if o = owner ∧ inside x then some type else m o x

def LockMap.clear (m : LockMap) (owner : Owner) (inside : Int → Prop) [DecidablePred inside] :
    LockMap :=
  fun o x => if o = owner ∧ inside x then none else m o x

def held (list : List (Lockf Owner)) : LockMap :=
  fun o x => (list.find? fun l => l.id = o ∧ l.Contains x).map (·.type)

theorem held_some {list : List (Lockf Owner)} (sorted : Sorted list) {o : Owner} {x : Int}
    {t : LockType} : held list o x = some t ↔ Covers list o x t := by
  have covered : ∀ u, held list o x = some u → Covers list o x u := by
    intro u same
    unfold held at same
    rw [Option.map_eq_some_iff] at same
    obtain ⟨l, found, rfl⟩ := same
    have here := List.find?_some found
    rw [decide_eq_true_eq] at here
    exact ⟨l, List.mem_of_find?_eq_some found, here.1, here.2, rfl⟩
  constructor
  · exact covered t
  · intro covers
    cases same : held list o x with
    | some u => rw [covers_unique sorted (covered u same) covers]
    | none =>
      unfold held at same
      rw [Option.map_eq_none_iff, List.find?_eq_none] at same
      obtain ⟨l, member, own, inside, _⟩ := covers
      have absent := same l member
      simp only [own, inside, and_self, decide_true, not_true] at absent

theorem held_eq {list : List (Lockf Owner)} (sorted : Sorted list) {m : LockMap}
    (agree : ∀ o x t, Covers list o x t ↔ m o x = some t) : held list = m := by
  funext o x
  apply Option.ext
  intro t
  rw [held_some sorted, agree]

theorem held_set {old new : List (Lockf Owner)} {lock : Lockf Owner} (before : Sorted old)
    (after : Sorted new) (covers : ∀ o x t, Covers new o x t ↔ Assigned old lock o x t) :
    held new = (held old).set lock.id lock.Contains lock.type := by
  apply held_eq after
  intro o x t
  rw [covers, Assigned, Cleared, LockMap.set]
  by_cases within : o = lock.id ∧ lock.Contains x
  · rw [if_pos within, Option.some.injEq]
    constructor
    · rintro (⟨_, _, rfl⟩ | ⟨_, off⟩)
      · rfl
      · exact absurd within off
    · rintro rfl
      exact .inl ⟨within.1, within.2, rfl⟩
  · rw [if_neg within, held_some before]
    constructor
    · rintro (⟨own, inside, _⟩ | ⟨old, _⟩)
      · exact absurd ⟨own, inside⟩ within
      · exact old
    · intro old
      exact .inr ⟨old, within⟩

theorem held_clear {old new : List (Lockf Owner)} {unlock : Lockf Owner} (before : Sorted old)
    (after : Sorted new) (covers : ∀ o x t, Covers new o x t ↔ Cleared old unlock o x t) :
    held new = (held old).clear unlock.id unlock.Contains := by
  apply held_eq after
  intro o x t
  rw [covers, Cleared, LockMap.clear]
  by_cases within : o = unlock.id ∧ unlock.Contains x
  · rw [if_pos within]
    constructor
    · exact fun cleared => absurd within cleared.2
    · exact fun absent => by cases absent
  · rw [if_neg within, held_some before]
    exact and_iff_left within

section Run

/-- The sum `start + l_len` that `lf_advlock` forms does not overflow, and the range is
not a negative one. -/
def Call.Regular (c : Call) : Prop :=
  0 ≤ c.fl.len ∧ ∀ start, c.start = some start → start + c.fl.len < 2 ^ 31

def Event.Regular : Event → Prop
  | .call c _ => c.Regular
  | .resume _ _ => True
  | .interrupt _ _ => True

def Call.Names (c : Call) (start x : Int) : Prop :=
  start ≤ x ∧ (c.fl.len = 0 ∨ x < start + c.fl.len)

instance (c : Call) (start : Int) : DecidablePred (c.Names start) :=
  fun _ => inferInstanceAs (Decidable (_ ∧ _))

theorem Call.last_eq {c : Call} (regular : c.Regular) {start : Int} (known : c.start = some start)
    (low : 0 ≤ start) (finite : c.fl.len ≠ 0) : c.last start = start + c.fl.len - 1 := by
  obtain ⟨len, sum⟩ := regular
  have high := sum start known
  rw [Call.last, if_neg finite, wrap32_eq (by omega) (by omega)]

theorem Call.lock_valid {c : Call} (regular : c.Regular) {start : Int}
    (known : c.start = some start) (low : 0 ≤ start) (addr : Nat) :
    (c.lock addr start).Valid ∧ (c.lock addr start).Short := by
  have high := regular.2 start known
  have len := regular.1
  change (0 ≤ start ∧ start < 2 ^ 31 ∧ (c.last start = -1 ∨ start ≤ c.last start ∧
    c.last start < 2 ^ 31)) ∧ c.last start + 1 < 2 ^ 31
  by_cases whole : c.fl.len = 0
  · have last : c.last start = -1 := if_pos whole
    lia
  · have last := Call.last_eq regular known low whole
    lia

theorem Call.lock_contains {c : Call} (regular : c.Regular) {start : Int}
    (known : c.start = some start) (low : 0 ≤ start) (addr : Nat) (x : Int) :
    (c.lock addr start).Contains x ↔ c.Names start x := by
  change start ≤ x ∧ (c.last start = -1 ∨ x ≤ c.last start) ↔ _
  have len := regular.1
  unfold Call.Names
  by_cases whole : c.fl.len = 0
  · simp only [Call.last, whole, if_true, true_or]
  · rw [Call.last_eq regular known low whole]
    lia

/-- The list invariant, and the requests asleep name a range of their own. -/
structure StateInv (s : State) : Prop where
  locks : LockInv s.locks
  asleep : ∀ w ∈ s.waiters, w.lock.Valid ∧ w.lock.Short

theorem addBlock_like (block request : Nat) (lf : Lockf Owner) :
    Like (if lf.addr = block then { lf with block := lf.block ++ [request] } else lf) lf := by
  split
  · exact ⟨rfl, rfl, rfl, rfl⟩
  · exact ⟨rfl, rfl, rfl, rfl⟩

theorem wakeup_lock {s : State} {woken : List Nat} {w : Waiter} (member : w ∈ s.wakeup woken) :
    ∃ v ∈ s.waiters, v.lock = w.lock := by
  obtain ⟨v, old, rfl⟩ := List.mem_map.mp member
  refine ⟨v, old, ?_⟩
  split
  · rfl
  · rfl

theorem StateInv.edit {s : State} (inv : StateInv s) {e : Edit Owner} (edited : LockInv e.list) :
    StateInv (s.edit e) := by
  refine ⟨edited, ?_⟩
  intro w member
  obtain ⟨v, old, same⟩ := wakeup_lock member
  exact same ▸ inv.asleep v old

theorem StateInv.remove {s : State} (inv : StateInv s) {w : Waiter} {before after : List Waiter}
    (split : s.waiters = before ++ w :: after) :
      StateInv { s with waiters := before ++ after } := by
  refine ⟨inv.locks, ?_⟩
  intro v member
  apply inv.asleep v
  rw [split, List.mem_append, List.mem_cons]
  rcases List.mem_append.mp member with member | member
  · exact .inl member
  · exact .inr (.inr member)

theorem StateInv.sleep {s : State} (inv : StateInv s) (proc : Nat) {lock : Lockf Owner}
    (ok : lock.Valid ∧ lock.Short) (block : Lockf Owner) : StateInv (s.sleep proc lock block) := by
  refine ⟨inv.locks.map _ (addBlock_like _ _), ?_⟩
  intro w member
  rcases List.mem_append.mp member with member | member
  · exact inv.asleep w member
  · rw [List.mem_singleton.mp member]
    exact ok

theorem StateInv.setLock {s s' : State} {out : Outside} {proc : Nat} {lock : Lockf Owner}
    {result : Result} (inv : StateInv s) (ok : lock.Valid ∧ lock.Short)
    (pass : setLock s out proc lock = some (s', result)) : StateInv s' := by
  obtain ⟨valid, short⟩ := ok
  rcases setLock_cases pass with ⟨e, free, insert, rfl, _⟩ | ⟨_, _, _, _, rfl, _⟩ |
    ⟨block, e, _, _, clear, rfl, _⟩ | ⟨block, _, rfl, _⟩
  · obtain ⟨e', same, edited, _⟩ := inv.locks.insert valid (short.room _).set free s.fresh
    cases insert.symm.trans same
    exact inv.edit edited
  · exact inv
  · obtain ⟨e', same, edited, _⟩ := inv.locks.clear valid (short.room _) s.fresh
    cases clear.symm.trans same
    exact (inv.edit edited).sleep proc ⟨valid, short⟩ block
  · exact inv.sleep proc ⟨valid, short⟩ block

theorem StateInv.step {s s' : State} {event : Event} (regular : event.Regular) (inv : StateInv s)
    (step : Step s event s') : StateInv s' := by
  cases step with
  | @call _ out c result _ _ call =>
    have base : StateInv { s with fresh := s.fresh + 1 } := ⟨inv.locks, inv.asleep⟩
    rcases advlock_cases call with ⟨locks, waiters, _⟩ | ⟨start, known, low, _, pass⟩ |
      ⟨start, e, known, low, _, clear, rfl, _⟩
    · exact ⟨locks ▸ inv.locks, waiters ▸ inv.asleep⟩
    · exact base.setLock (c.lock_valid regular known low _) pass
    · obtain ⟨valid, short⟩ := c.lock_valid regular known low s.fresh
      obtain ⟨e', same, edited, _⟩ := inv.locks.clear valid (short.room _) (s.fresh + 1)
      cases clear.symm.trans same
      exact base.edit edited
  | @resume _ out w before after result split woken pass =>
    exact (inv.remove split).setLock (inv.asleep w (by simp [split])) pass
  | @interrupt w before after error e split _ clear =>
    obtain ⟨valid, short⟩ := inv.asleep w (by simp [split])
    obtain ⟨e', same, edited, _⟩ := inv.locks.clear valid (short.room _) s.fresh
    cases clear.symm.trans same
    exact (inv.remove split).edit edited

theorem StateInv.init : StateInv State.init := by
  refine ⟨⟨List.Pairwise.nil, ?_, ?_⟩, ?_⟩
  · intro l member
    cases member
  · intro a member
    cases member
  · intro w member
    cases member

theorem StateInv.run {events : List Event} {s : State} (run : Run Step State.init events s)
    (regular : ∀ event ∈ events, event.Regular) : StateInv s :=
  run.invariant (fun _ _ _ allowed inv step => inv.step allowed step) regular StateInv.init

def Outside.quiet : Outside := ⟨fun _ => none, fun a => (false, .file a)⟩

/-- A call of `fcntl` on bytes counted from the start of the file. -/
def fcntlCall (proc : Nat) (wait : Bool) (op : Op) (type : LockType) (start len : Int) : Call :=
  ⟨proc, .proc proc, wait, op, ⟨type, .set, start, len⟩, 0⟩

theorem fcntlCall_step {s s' : State} {result : Result} {proc : Nat} {wait : Bool} {op : Op}
    {type : LockType} {start len : Int} (idle : ∀ w ∈ s.waiters, w.proc ≠ proc)
    (call : advlock s .quiet (fcntlCall proc wait op type start len) = some (s', result)) :
    Step s (.call (fcntlCall proc wait op type start len) result) s' := by
  refine .call ?_ idle call
  intro p same
  cases same
  rfl

/-- A pass through `lf_setlock` never meets an entry it has already linked, and a
granted request sets its range. -/
theorem setLock_total {s : State} (inv : StateInv s) (out : Outside) (proc : Nat)
    {lock : Lockf Owner} (ok : lock.Valid) (short : lock.Short) :
    ∃ s' result, setLock s out proc lock = some (s', result) ∧
      (result = .done → held s'.locks = (held s.locks).set lock.id lock.Contains lock.type) := by
  unfold setLock
  cases search : getBlock lock s.locks with
  | none =>
    obtain ⟨e, insert, edited, covers⟩ :=
      inv.locks.insert ok (short.room _).set search s.fresh
    refine ⟨s.edit e, .done, by simp only [insert, Option.map_some], fun _ => ?_⟩
    exact held_set inv.locks.sorted edited.sorted covers
  | some block =>
    obtain ⟨e, clear, _⟩ := inv.locks.clear ok (short.room _) s.fresh
    simp only [clear, Option.map_some]
    split_ifs
    · exact ⟨_, _, rfl, by simp⟩
    · exact ⟨_, _, rfl, by simp⟩
    · exact ⟨_, _, rfl, by simp⟩
    · exact ⟨_, _, rfl, by simp⟩

/-- In state `s` the call does to the byte map what it says: a granted `F_SETLK` gives
its type to the bytes named, `F_UNLCK` takes them away, and no other byte changes. -/
def Exact (s : State) (c : Call) : Prop :=
  ∀ out start, c.start = some start → 0 ≤ start →
    (c.op = .setlk → ∃ s' result, advlock s out c = some (s', result) ∧
      (result = .done → held s'.locks = (held s.locks).set c.id (c.Names start) c.fl.type)) ∧
    (c.op = .unlck → ∃ s', advlock s out c = some (s', .done) ∧
      held s'.locks = (held s.locks).clear c.id (c.Names start))

theorem LockMap.set_congr (m : LockMap) (owner : Owner) (type : LockType) {p q : Int → Prop}
    [DecidablePred p] [DecidablePred q] (same : ∀ x, p x ↔ q x) :
    m.set owner p type = m.set owner q type := by
  funext o x
  simp only [LockMap.set, same]

theorem LockMap.clear_congr (m : LockMap) (owner : Owner) {p q : Int → Prop}
    [DecidablePred p] [DecidablePred q] (same : ∀ x, p x ↔ q x) :
    m.clear owner p = m.clear owner q := by
  funext o x
  simp only [LockMap.clear, same]

theorem advlock_exact {events : List Event} {s : State} (run : Run Step State.init events s)
    (regular : ∀ event ∈ events, event.Regular) (c : Call) (mine : c.Regular) : Exact s c := by
  have inv := StateInv.run run regular
  intro out start known low
  obtain ⟨ok, short⟩ := c.lock_valid mine known low s.fresh
  have names := c.lock_contains mine known low s.fresh
  have nonneg : ¬ start < 0 := by omega
  constructor
  · intro set
    have base : StateInv { s with fresh := s.fresh + 1 } := ⟨inv.locks, inv.asleep⟩
    obtain ⟨s', result, pass, granted⟩ := setLock_total base out c.proc ok short
    refine ⟨s', result, ?_, ?_⟩
    · simp only [advlock, set, ne_eq, not_true, and_false, if_false, known, nonneg]
      exact pass
    · intro done
      rw [granted done]
      exact LockMap.set_congr _ _ _ names
  · intro unlock
    by_cases empty : s.locks = []
    · refine ⟨s, by simp [advlock, empty, unlock], ?_⟩
      funext o x
      simp only [LockMap.clear, held, empty, List.find?_nil, Option.map_none, ite_self]
    · obtain ⟨e, clear, edited, covers⟩ := inv.locks.clear ok (short.room _) (s.fresh + 1)
      refine ⟨{ s with fresh := s.fresh + 1 }.edit e, ?_, ?_⟩
      · simp only [advlock, empty, false_and, if_false, known, nonneg, unlock, clear,
          Option.map_some]
      · change held e.list = _
        rw [held_clear inv.locks.sorted edited.sorted covers]
        exact LockMap.clear_congr _ _ names

theorem advlock_exact_split : ∃ s,
    Run Step State.init [.call (fcntlCall 1 false .setlk .rdlck 0 0) .done] s ∧
      Exact s (fcntlCall 1 false .unlck .wrlck 3 4) := by
  have run : Run Step State.init [.call (fcntlCall 1 false .setlk .rdlck 0 0) .done] _ :=
    .cons (fcntlCall_step (by decide) rfl) (.nil _)
  refine ⟨_, run, advlock_exact run ?_ _ ?_⟩
  · simp [Event.Regular, Call.Regular, fcntlCall, Call.start]
  · simp [Call.Regular, fcntlCall, Call.start]

/-- After a request with a negative `l_len` the list is out of order, and an unlock of
bytes 7 to 9 leaves byte 7 read-locked. -/
theorem advlock_inexact : ∃ events s c,
    Run Step State.init events s ∧ c.Regular ∧ ¬ Exact s c := by
  have run : Run Step State.init [.call (fcntlCall 1 false .setlk .rdlck 10 (-5)) .done,
      .call (fcntlCall 1 false .setlk .rdlck 7 6) .done, .call (fcntlCall 1 false .setlk .wrlck 7 3)
      .done] _ :=
    .cons (fcntlCall_step (by decide) rfl) (.cons (fcntlCall_step (by decide) rfl)
      (.cons (fcntlCall_step (by decide) rfl) (.nil _)))
  refine ⟨_, _, fcntlCall 1 false .unlck .wrlck 7 3, run, ?_, ?_⟩
  · simp [Call.Regular, fcntlCall, Call.start]
  · intro exact_
    obtain ⟨s', call, map⟩ := (exact_ .quiet 7 rfl (by decide)).2 rfl
    cases call
    have byte := congrFun (congrFun map (.proc 1)) 7
    revert byte
    decide

end Run

section Range

structure Call.Typed (c : Call) : Prop where
  start : - 2 ^ 31 ≤ c.fl.start ∧ c.fl.start < 2 ^ 31
  len : - 2 ^ 31 ≤ c.fl.len ∧ c.fl.len < 2 ^ 31
  size : c.size < 2 ^ 32

/-- Where the range begins, before the sum is stored in an `off_t`. -/
def Call.origin (c : Call) : Int :=
  match c.fl.whence with
  | .fromEnd => c.size + c.fl.start
  | _ => c.fl.start

/-- The lock has the bytes that the request names from `origin` on, and ends where it begins or
later. -/
def Call.Covered (c : Call) (origin : Int) (lf : Lockf Owner) : Prop :=
  (∀ x, lf.Contains x ↔ origin ≤ x ∧ (c.fl.len = 0 ∨ x ≤ origin + c.fl.len - 1)) ∧
    (lf.start ≤ lf.last ∨ lf.last = -1 ∧ c.fl.len = 0)

/-- The length is not negative and the last byte is within an `off_t`. -/
def Call.Fits (c : Call) (start : Int) : Prop :=
  c.fl.len = 0 ∨ 0 < c.fl.len ∧ start + c.fl.len ≤ 2 ^ 31

variable {c : Call} {start : Int}

theorem Call.last_fits (c : Call) (low : 0 ≤ start) (fits : c.Fits start) :
    c.last start = if c.fl.len = 0 then -1 else start + c.fl.len - 1 := by
  unfold Call.last
  split
  · rfl
  · have range := fits.resolve_left ‹_›
    exact wrap32_eq (by omega) (by omega)

theorem Call.covered_of_fits (c : Call) (low : 0 ≤ start) (fits : c.Fits start) (addr : Nat) :
    c.Covered start (c.lock addr start) := by
  have last := c.last_fits low fits
  constructor
  · intro x
    change start ≤ x ∧ (c.last start = -1 ∨ x ≤ c.last start) ↔ _
    rw [last]
    rcases fits with none | some
    · simp [none]
    · rw [if_neg (by lia)]
      lia
  · change start ≤ c.last start ∨ c.last start = -1 ∧ _
    rw [last]
    rcases fits with none | some
    · exact .inr ⟨if_pos none, none⟩
    · rw [if_neg (by lia)]
      lia

/-- Where the length does not fit the end is before the start, or names bytes that are not asked
for. -/
theorem Call.fits_of_covered {c : Call} (typed : c.Typed) (low : 0 ≤ start) {origin : Int}
    {addr : Nat} (covered : c.Covered origin (c.lock addr start)) :
      c.Fits start ∧ origin = start := by
  obtain ⟨bytes, order⟩ := covered
  change ∀ x, start ≤ x ∧ (c.last start = -1 ∨ x ≤ c.last start) ↔ _ at bytes
  change start ≤ c.last start ∨ c.last start = -1 ∧ c.fl.len = 0 at order
  obtain ⟨lenLow, lenHigh⟩ := typed.len
  have first := bytes start
  have here := bytes origin
  have before := bytes (start - 1)
  by_cases none : c.fl.len = 0
  · refine ⟨.inl none, ?_⟩
    lia
  · have last : c.last start = wrap32 (start + c.fl.len - 1) := if_neg none
    unfold wrap32 at last
    rw [Int.bmod_def] at last
    have range : 0 < c.fl.len ∧ start + c.fl.len ≤ 2 ^ 31 := by
      split at last <;> lia
    refine ⟨.inr range, ?_⟩
    lia

theorem Call.start_range {c : Call} (typed : c.Typed) (known : c.start = some start)
    (low : 0 ≤ start) :
    start < 2 ^ 31 ∧ (start = c.origin ↔ c.origin < 2 ^ 32) := by
  obtain ⟨startLow, startHigh⟩ := typed.start
  have size := typed.size
  unfold Call.start at known
  unfold Call.origin
  cases whence : c.fl.whence with
  | other =>
    rw [whence] at known
    cases known
  | fromEnd =>
    rw [whence] at known
    have sum := Option.some.inj known
    unfold wrap32 at sum
    rw [Int.bmod_def] at sum
    dsimp only
    split at sum <;> lia
  | set =>
    rw [whence] at known
    have same := Option.some.inj known
    dsimp only
    lia
  | cur =>
    rw [whence] at known
    have same := Option.some.inj known
    dsimp only
    lia

/-- What a request that is accepted locks, against what it asks for from the start that is
computed, and from the one that is meant. -/
theorem lock_covers_iff (typed : c.Typed) (known : c.start = some start) (low : 0 ≤ start)
    (addr : Nat) :
    (c.Covered start (c.lock addr start) ↔ c.Fits start) ∧
      (c.Covered c.origin (c.lock addr start) ↔ c.Fits start ∧ c.origin < 2 ^ 32) := by
  obtain ⟨_, same⟩ := Call.start_range typed known low
  constructor
  · constructor
    · exact fun covered => (Call.fits_of_covered typed low covered).1
    · exact fun fits => c.covered_of_fits low fits addr
  · constructor
    · intro covered
      obtain ⟨fits, meant⟩ := Call.fits_of_covered typed low covered
      exact ⟨fits, same.mp meant.symm⟩
    · rintro ⟨fits, meant⟩
      rw [← same.mpr meant]
      exact c.covered_of_fits low fits addr

theorem lock_covers_iff_bytes :
    (fcntlCall 1 false .setlk .wrlck 3 4).Covered 3
    ((fcntlCall 1 false .setlk .wrlck 3 4).lock 0 3) :=
  (lock_covers_iff (c := fcntlCall 1 false .setlk .wrlck 3 4) ⟨by decide, by decide, by decide⟩ rfl
    (by decide) 0).1.mpr
    (.inr (by decide))

/-- A length of -5 from byte 5 on locks every byte from there to the end of the file. -/
theorem lock_negative_length : ∃ (c : Call) (start : Int), c.Typed ∧ c.start = some start ∧
    0 ≤ start ∧
    ¬ c.Covered start (c.lock 0 start) := by
  refine ⟨fcntlCall 1 false .setlk .wrlck 5 (-5), 5, ⟨by decide, by decide, by decide⟩,
    rfl, by decide, ?_⟩
  rintro ⟨bytes, -⟩
  exact absurd ((bytes 100).mp (by decide)) (by decide)

end Range

end FreeBsd.Ufs
