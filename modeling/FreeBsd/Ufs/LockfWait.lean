import FreeBsd.Ufs.LockfMap

/-! The blocked chains and the processes asleep on them. An edit of the list by one
owner keeps the entries of the others and moves or wakes each request on a chain once,
whatever the ranges are, so a request that gives up is on a chain exactly when no
`lf_wakelock` has taken it off. -/
namespace FreeBsd.Ufs

open FreeBsd.Lib (Run wrap32)

section Chains

variable {ι : Type} [DecidableEq ι]

def chains (list : List (Lockf ι)) : List Nat := list.flatMap (·.block)

def own (id : ι) (list : List (Lockf ι)) : List (Lockf ι) := list.filter (·.id = id)

def others (id : ι) (list : List (Lockf ι)) : List (Lockf ι) := list.filter (·.id ≠ id)

omit [DecidableEq ι] in
@[simp] theorem chains_nil : chains ([] : List (Lockf ι)) = [] := rfl

omit [DecidableEq ι] in
@[simp] theorem chains_cons (l : Lockf ι) (list : List (Lockf ι)) :
    chains (l :: list) = l.block ++ chains list := rfl

omit [DecidableEq ι] in
@[simp] theorem chains_append (A B : List (Lockf ι)) : chains (A ++ B) = chains A ++ chains B :=
  List.flatMap_append

@[simp] theorem own_nil (id : ι) : own id [] = [] := rfl

@[simp] theorem own_append (id : ι) (A B : List (Lockf ι)) :
    own id (A ++ B) = own id A ++ own id B := List.filter_append ..

@[simp] theorem own_cons (l : Lockf ι) (list : List (Lockf ι)) {id : ι} (same : l.id = id) :
    own id (l :: list) = l :: own id list := by
  simp [own, same]

@[simp] theorem others_nil (id : ι) : others id [] = [] := rfl

@[simp] theorem others_append (id : ι) (A B : List (Lockf ι)) :
    others id (A ++ B) = others id A ++ others id B := List.filter_append ..

@[simp] theorem others_cons (l : Lockf ι) (list : List (Lockf ι)) {id : ι} (same : l.id = id) :
    others id (l :: list) = others id list := by
  simp [others, same]

omit [DecidableEq ι] in
@[simp] theorem wake_id (l : Lockf ι) : l.wake.id = l.id := rfl

omit [DecidableEq ι] in
@[simp] theorem wake_block (l : Lockf ι) : l.wake.block = [] := rfl

omit [DecidableEq ι] in
@[simp] theorem wake_addr (l : Lockf ι) : l.wake.addr = l.addr := rfl

/-- What an edit by `id` leaves of the list `old`: the entries of the other owners as
they are, the chains of its own entries moved along or woken, on top of the requests
`woken` before, and no address twice. -/
structure Kept (id : ι) (allocated : List Nat) (old : List (Lockf ι)) (woken : List Nat)
    (e : Edit ι) : Prop where
  frame : others id e.list = others id old
  chain : ∀ a, (chains (own id e.list)).count a + e.woken.count a =
    (chains (own id old)).count a + woken.count a
  addrs : ∀ a, (e.list.map (·.addr)).count a ≤ allocated.count a + (old.map (·.addr)).count a

theorem clearLoop_kept {fresh : Nat} {unlock : Lockf ι} (fuel : Nat)
    (before list : List (Lockf ι)) (woken : List Nat) {e : Edit ι}
    (run : clearLoop fresh unlock fuel before list woken = some e) :
    Kept unlock.id [fresh] (before ++ list) woken e := by
  induction fuel generalizing before list woken with
  | zero => cases run
  | succ fuel ih =>
    obtain ⟨split, _, found⟩ := findOverlap_self unlock list
    rw [clearLoop] at run
    generalize findOverlap .self unlock list = result at split found run
    obtain ⟨skip, c, rest⟩ := result
    simp only at split found run
    subst split
    cases found with
    | finish =>
      cases run
      exact ⟨rfl, fun _ => rfl, fun _ => Nat.le_add_left _ _⟩
    | gap =>
      cases run
      exact ⟨rfl, fun _ => rfl, fun _ => Nat.le_add_left _ _⟩
    | @hit h t same hit =>
      cases c : ovcase h unlock with
      | none => exact absurd c hit
      | panic =>
        rw [c] at run
        cases run
      | equal =>
        rw [c] at run
        cases run
        refine ⟨by simp [same], fun a => ?_, fun a => ?_⟩
        · simp [same]; lia
        · simp [List.count_cons]; lia
      | contains =>
        rw [c] at run
        dsimp only at run
        split_ifs at run with aligned
        · cases run
          refine ⟨by simp [same], fun a => ?_, fun a => ?_⟩
          · simp [same]; lia
          · simp
        · cases run
          by_cases ends : h.last = unlock.last
          · rw [lfSplit_two (a := h.wake) aligned ends]
            refine ⟨by simp [same, unlinkSecond], fun a => ?_, fun a => ?_⟩
            · simp [same, unlinkSecond]; lia
            · simp [unlinkSecond]
          · rw [lfSplit_three (a := h.wake) aligned ends]
            refine ⟨by simp [same, unlinkSecond], fun a => ?_, fun a => ?_⟩
            · simp [same, unlinkSecond]; lia
            · simp [unlinkSecond, List.count_cons]; lia
      | contained =>
        rw [c] at run
        have kept := ih _ _ _ run
        refine ⟨by simp [kept.frame, same], fun a => ?_, fun a => ?_⟩
        · have count := kept.chain a
          simp [same] at count ⊢
          lia
        · have count := kept.addrs a
          simp [List.count_cons] at count ⊢
          lia
      | startsBefore =>
        rw [c] at run
        have kept := ih _ _ _ run
        refine ⟨by simp [kept.frame, same], fun a => ?_, fun a => ?_⟩
        · have count := kept.chain a
          simp [same] at count ⊢
          lia
        · have count := kept.addrs a
          simp [List.count_cons] at count ⊢
          lia
      | endsAfter =>
        rw [c] at run
        cases run
        refine ⟨by simp [same], fun a => ?_, fun a => ?_⟩
        · simp [same]; lia
        · simp

theorem insertLinked_kept {lock : Lockf ι} {before : List (Lockf ι)} (fuel : Nat)
    (linked : Lockf ι) (after block : List (Lockf ι)) (woken : List Nat) {e : Edit ι}
    (mine : linked.id = lock.id)
    (run : insertLinked lock before fuel linked after block woken = some e) :
    Kept lock.id [] (before ++ linked :: (after ++ block)) woken e := by
  induction fuel generalizing linked after block woken with
  | zero => cases run
  | succ fuel ih =>
    obtain ⟨split, _, found⟩ := findOverlap_self lock block
    rw [insertLinked] at run
    generalize findOverlap .self lock block = result at split found run
    obtain ⟨skip, c, rest⟩ := result
    simp only at split found run
    subst split
    cases found with
    | finish =>
      cases run
      exact ⟨by simp, fun _ => by simp, fun _ => by simp⟩
    | gap =>
      cases run
      exact ⟨by simp, fun _ => by simp, fun _ => by simp⟩
    | @hit h t same hit =>
      cases c : ovcase h lock with
      | none => exact absurd c hit
      | panic =>
        rw [c] at run
        cases run
      | equal =>
        rw [c] at run
        cases run
      | contains =>
        rw [c] at run
        cases run
      | startsBefore =>
        rw [c] at run
        cases run
      | contained =>
        rw [c] at run
        dsimp only at run
        split_ifs at run
        · have kept := ih _ _ _ _ mine run
          refine ⟨by simp [kept.frame, mine, same], fun a => ?_, fun a => ?_⟩
          · have count := kept.chain a
            simp [mine, same] at count ⊢
            lia
          · have count := kept.addrs a
            simp [List.count_cons] at count ⊢
            lia
        · have kept := ih _ _ _ _ (by exact mine) run
          refine ⟨by simp [kept.frame, mine, same], fun a => ?_, fun a => ?_⟩
          · have count := kept.chain a
            simp [mine, same] at count ⊢
            lia
          · have count := kept.addrs a
            simp [List.count_cons] at count ⊢
            lia
      | endsAfter =>
        rw [c] at run
        cases run
        refine ⟨by simp [mine, same], fun a => ?_, fun a => ?_⟩
        · simp [mine, same]; lia
        · simp [List.count_cons]

theorem clearLock_kept {fresh : Nat} {unlock : Lockf ι} {list : List (Lockf ι)} {e : Edit ι}
    (run : clearLock fresh unlock list = some e) : Kept unlock.id [fresh] list [] e :=
  clearLoop_kept _ [] list [] run

theorem insertLock_kept {fresh : Nat} {lock : Lockf ι} {list : List (Lockf ι)} {e : Edit ι}
    (bare : lock.block = []) (run : insertLock fresh lock list = some e) :
    Kept lock.id [lock.addr, fresh] list [] e := by
  obtain ⟨split, _, found⟩ := findOverlap_self lock list
  rw [insertLock] at run
  generalize list.length + 1 = fuel at run
  generalize findOverlap .self lock list = result at split found run
  obtain ⟨skip, c, rest⟩ := result
  simp only at split found run
  subst split
  cases found with
  | finish =>
    cases run
    exact ⟨by simp, fun a => by simp [bare], fun a => by simp [List.count_cons]; lia⟩
  | gap =>
    cases run
    exact ⟨by simp, fun a => by simp [bare], fun a => by simp [List.count_cons]; lia⟩
  | @hit h t same hit =>
    cases c : ovcase h lock with
    | none => exact absurd c hit
    | panic =>
      rw [c] at run
      cases run
    | equal =>
      rw [c] at run
      dsimp only at run
      split_ifs at run
      · cases run
        refine ⟨by simp [same], fun a => ?_, fun a => ?_⟩
        · simp [same]; lia
        · simp [List.count_cons]
      · cases run
        refine ⟨by simp [same], fun a => ?_, fun a => ?_⟩
        · simp [same]
        · simp [List.count_cons]
    | contains =>
      rw [c] at run
      dsimp only at run
      split_ifs at run with type aligned
      · cases run
        exact ⟨rfl, fun _ => rfl, fun _ => Nat.le_add_left _ _⟩
      · cases run
        refine ⟨by simp [same], fun a => ?_, fun a => ?_⟩
        · simp [same, bare]; lia
        · simp [List.count_cons]; lia
      · cases run
        by_cases ends : h.last = lock.last
        · rw [lfSplit_two aligned ends]
          refine ⟨by simp [same, wakeFirst, Lockf.wake], fun a => ?_, fun a => ?_⟩
          · simp [same, wakeFirst, Lockf.wake, bare]; lia
          · simp [wakeFirst, Lockf.wake, List.count_cons]; lia
        · rw [lfSplit_three aligned ends]
          refine ⟨by simp [same, wakeFirst, Lockf.wake], fun a => ?_, fun a => ?_⟩
          · simp [same, wakeFirst, Lockf.wake, bare]; lia
          · simp [wakeFirst, Lockf.wake, List.count_cons]; lia
    | contained =>
      rw [c] at run
      dsimp only at run
      split_ifs at run
      · have kept := insertLinked_kept fuel lock [] t h.block rfl run
        refine ⟨by simp [kept.frame, same], fun a => ?_, fun a => ?_⟩
        · have count := kept.chain a
          simp [same, bare] at count ⊢
          lia
        · have count := kept.addrs a
          simp [List.count_cons] at count ⊢
          lia
      · have kept := insertLinked_kept fuel _ [] t [] (by rfl) run
        refine ⟨by simp [kept.frame, same], fun a => ?_, fun a => ?_⟩
        · have count := kept.chain a
          simp [same, bare] at count ⊢
          lia
        · have count := kept.addrs a
          simp [List.count_cons] at count ⊢
          lia
    | startsBefore =>
      rw [c] at run
      have kept := insertLinked_kept fuel lock [] t h.block rfl run
      refine ⟨by simp [kept.frame, same], fun a => ?_, fun a => ?_⟩
      · have count := kept.chain a
        simp [same, bare] at count ⊢
        lia
      · have count := kept.addrs a
        simp [List.count_cons] at count ⊢
        lia
    | endsAfter =>
      rw [c] at run
      cases run
      refine ⟨by simp [same], fun a => ?_, fun a => ?_⟩
      · simp [same, bare]; lia
      · simp [List.count_cons]; lia

theorem count_chains (id : ι) (list : List (Lockf ι)) (a : Nat) :
    (chains list).count a =
      (chains (own id list)).count a + (chains (others id list)).count a := by
  induction list with
  | nil => rfl
  | cons l list ih =>
    by_cases same : l.id = id
    · simp [same, ih]
      lia
    · have skip : own id (l :: list) = own id list := by simp [own, same]
      have keep : others id (l :: list) = l :: others id list := by simp [others, same]
      rw [skip, keep]
      simp [ih]
      lia

theorem own_others {o id : ι} (differ : o ≠ id) (list : List (Lockf ι)) :
    own o (others id list) = own o list := by
  unfold own others
  rw [List.filter_filter]
  congr 1
  funext l
  by_cases same : l.id = o <;> simp [same, differ]

omit [DecidableEq ι] in
theorem mem_chains {list : List (Lockf ι)} {a : Nat} :
    a ∈ chains list ↔ ∃ l ∈ list, a ∈ l.block := List.mem_flatMap

namespace Kept

variable {id : ι} {allocated : List Nat} {old : List (Lockf ι)} {e : Edit ι}

theorem count_eq (kept : Kept id allocated old [] e) (a : Nat) :
    (chains e.list).count a + e.woken.count a = (chains old).count a := by
  have mine := kept.chain a
  rw [count_chains id e.list, count_chains id old, kept.frame]
  simp only [List.count_nil] at mine
  omega

theorem own_eq (kept : Kept id allocated old [] e) {o : ι} (differ : o ≠ id) :
    own o e.list = own o old := by
  rw [← own_others differ e.list, kept.frame, own_others differ]

theorem mem_of_ne (kept : Kept id allocated old [] e) {l : Lockf ι} (differ : l.id ≠ id) :
    l ∈ e.list ↔ l ∈ old := by
  have step : ∀ list, l ∈ others id list ↔ l ∈ list := by
    intro list
    simp [others, differ]
  rw [← step e.list, kept.frame, step]

theorem owner (kept : Kept id allocated old [] e) {l : Lockf ι} (member : l ∈ e.list) {a : Nat}
    (on : a ∈ l.block) : ∃ h ∈ old, h.id = l.id ∧ a ∈ h.block := by
  by_cases same : l.id = id
  · have new : a ∈ chains (own id e.list) := mem_chains.mpr ⟨l, by simp [own, member, same], on⟩
    have count := kept.chain a
    have positive := List.count_pos_iff.mpr new
    simp only [List.count_nil] at count
    have before : a ∈ chains (own id old) := List.count_pos_iff.mp (by omega)
    obtain ⟨h, member, on⟩ := mem_chains.mp before
    unfold own at member
    rw [List.mem_filter, decide_eq_true_eq] at member
    exact ⟨h, member.1, member.2.trans same.symm, on⟩
  · exact ⟨l, (kept.mem_of_ne same).mp member, rfl, on⟩

end Kept

end Chains

section Waiters

/-- Addresses are used once, a chain holds a request once, and a sleeping request is on
a chain of another owner's lock until it is woken. -/
structure ChainInv (s : State) : Prop where
  addrs : ∀ a, (s.locks.map (·.addr)).count a + (s.waiters.map (·.lock.addr)).count a ≤ 1
  locksBelow : ∀ l ∈ s.locks, l.addr < s.fresh
  waitersBelow : ∀ w ∈ s.waiters, w.lock.addr < s.fresh
  chainsBelow : ∀ a ∈ chains s.locks, a < s.fresh
  chain : ∀ a, (chains s.locks).count a ≤ 1
  bare : ∀ w ∈ s.waiters, w.lock.block = []
  woken : ∀ w ∈ s.waiters, w.woken = true → w.lock.addr ∉ chains s.locks
  linked : ∀ w ∈ s.waiters, w.woken = false → w.lock.addr ∈ chains s.locks
  foreign : ∀ l ∈ s.locks, ∀ w ∈ s.waiters, w.lock.addr ∈ l.block → l.id ≠ w.lock.id
  procs : (s.waiters.map (·.proc)).Nodup
  posix : ∀ w ∈ s.waiters, ∀ p, w.lock.id = .proc p → p = w.proc

/-- The request is in no list, and neither it nor its process is asleep. -/
structure Ready (s : State) (proc : Nat) (lock : Lockf Owner) : Prop where
  unlocked : lock.addr ∉ s.locks.map (·.addr)
  idle : lock.addr ∉ s.waiters.map (·.lock.addr)
  unchained : lock.addr ∉ chains s.locks
  below : lock.addr < s.fresh
  bare : lock.block = []
  awake : ∀ w ∈ s.waiters, w.proc ≠ proc
  posix : ∀ p, lock.id = .proc p → p = proc

theorem wakeup_addrs (s : State) (woken : List Nat) :
    (s.wakeup woken).map (·.lock.addr) = s.waiters.map (·.lock.addr) := by
  unfold State.wakeup
  rw [List.map_map]
  refine List.map_congr_left fun w _ => ?_
  simp only [Function.comp]
  split
  · rfl
  · rfl

theorem wakeup_procs (s : State) (woken : List Nat) :
    (s.wakeup woken).map (·.proc) = s.waiters.map (·.proc) := by
  unfold State.wakeup
  rw [List.map_map]
  refine List.map_congr_left fun w _ => ?_
  simp only [Function.comp]
  split
  · rfl
  · rfl

theorem wakeup_cases {s : State} {woken : List Nat} {w : Waiter} (member : w ∈ s.wakeup woken) :
    ∃ v ∈ s.waiters, w.lock = v.lock ∧ w.proc = v.proc ∧
      (v.lock.addr ∈ woken ∧ w.woken = true ∨ v.lock.addr ∉ woken ∧ w.woken = v.woken) := by
  obtain ⟨v, old, rfl⟩ := List.mem_map.mp member
  refine ⟨v, old, ?_⟩
  by_cases now : v.lock.addr ∈ woken
  · simp [now]
  · simp [now]

theorem ChainInv.edit {s : State} (inv : ChainInv s) {id : Owner} {allocated : List Nat}
    {e : Edit Owner} (kept : Kept id allocated s.locks [] e)
    (new : ∀ a, allocated.count a + (s.locks.map (·.addr)).count a +
      (s.waiters.map (·.lock.addr)).count a ≤ 1)
    (below : ∀ a ∈ allocated, a ≤ s.fresh) : ChainInv (s.edit e) := by
  have once := kept.count_eq
  have gone : ∀ a ∈ e.woken, a ∉ chains e.list := by
    intro a member on
    have first := List.count_pos_iff.mpr member
    have second := List.count_pos_iff.mpr on
    have total := once a
    have bound := inv.chain a
    lia
  have older : ∀ a ∈ chains e.list, a ∈ chains s.locks := by
    intro a on
    have positive := List.count_pos_iff.mpr on
    have total := once a
    exact List.count_pos_iff.mp (by lia)
  have stays : ∀ a ∈ chains s.locks, a ∉ e.woken → a ∈ chains e.list := by
    intro a on absent
    have positive := List.count_pos_iff.mpr on
    have total := once a
    rw [List.count_eq_zero.mpr absent] at total
    exact List.count_pos_iff.mp (by lia)
  refine ⟨?_, ?_, ?_, ?_, ?_, ?_, ?_, ?_, ?_, ?_, ?_⟩
  · intro a
    change (e.list.map (·.addr)).count a + ((s.wakeup e.woken).map (·.lock.addr)).count a ≤ 1
    rw [wakeup_addrs]
    have edited := kept.addrs a
    have bound := new a
    lia
  · intro l member
    have positive : 0 < (e.list.map (·.addr)).count l.addr :=
      List.count_pos_iff.mpr (List.mem_map_of_mem member)
    have edited := kept.addrs l.addr
    change l.addr < s.fresh + 1
    by_cases fresh : l.addr ∈ allocated
    · have := below _ fresh
      lia
    · rw [List.count_eq_zero.mpr fresh] at edited
      have before : l.addr ∈ s.locks.map (·.addr) := List.count_pos_iff.mp (by lia)
      obtain ⟨h, old, same⟩ := List.mem_map.mp before
      have := inv.locksBelow h old
      lia
  · intro w member
    obtain ⟨v, old, same, _⟩ := wakeup_cases member
    rw [same]
    exact Nat.lt_succ_of_lt (inv.waitersBelow v old)
  · intro a on
    exact Nat.lt_succ_of_lt (inv.chainsBelow a (older a on))
  · intro a
    have total := once a
    have bound := inv.chain a
    change (chains e.list).count a ≤ 1
    lia
  · intro w member
    obtain ⟨v, old, same, _⟩ := wakeup_cases member
    rw [same]
    exact inv.bare v old
  · intro w member woken
    obtain ⟨v, old, same, _, now | ⟨_, before⟩⟩ := wakeup_cases member
    · rw [same]
      exact gone _ now.1
    · rw [same]
      exact fun on => inv.woken v old (before ▸ woken) (older _ on)
  · intro w member asleep
    obtain ⟨v, old, same, _, now | ⟨absent, before⟩⟩ := wakeup_cases member
    · rw [now.2] at asleep
      cases asleep
    · rw [same]
      exact stays _ (inv.linked v old (before ▸ asleep)) absent
  · intro l member w waits on
    obtain ⟨v, old, same, _⟩ := wakeup_cases waits
    obtain ⟨h, before, owner, chained⟩ := kept.owner member on
    rw [same] at chained ⊢
    rw [← owner]
    exact inv.foreign h before v old chained
  · change ((s.wakeup e.woken).map (·.proc)).Nodup
    rw [wakeup_procs]
    exact inv.procs
  · intro w member p owner
    obtain ⟨v, old, same, proc, _⟩ := wakeup_cases member
    rw [proc]
    exact inv.posix v old p (same ▸ owner)

theorem addBlock_addrs (block request : Nat) (locks : List (Lockf Owner)) :
    (addBlock block request locks).map (·.addr) = locks.map (·.addr) := by
  unfold addBlock
  rw [List.map_map]
  refine List.map_congr_left fun l _ => ?_
  simp only [Function.comp]
  split
  · rfl
  · rfl

theorem mem_addBlock {block request : Nat} {locks : List (Lockf Owner)} {l : Lockf Owner}
    (member : l ∈ addBlock block request locks) :
    ∃ h ∈ locks, l.id = h.id ∧ l.addr = h.addr ∧
      (l.block = h.block ∨ h.addr = block ∧ l.block = h.block ++ [request]) := by
  obtain ⟨h, old, rfl⟩ := List.mem_map.mp member
  refine ⟨h, old, ?_⟩
  by_cases here : h.addr = block
  · simp [here]
  · simp [here]

theorem count_addBlock (block request : Nat) (locks : List (Lockf Owner)) (a : Nat) :
    (chains (addBlock block request locks)).count a =
      (chains locks).count a + if a = request then (locks.map (·.addr)).count block else 0 := by
  unfold addBlock
  induction locks with
  | nil => simp
  | cons l locks ih =>
    rw [List.map_cons, chains_cons, List.count_append, ih]
    by_cases here : l.addr = block <;> by_cases same : a = request
    · simp [here, same]
      lia
    · simp [here, same, Ne.symm same]
    · simp [here, same]
      lia
    · simp [here, same]

theorem mem_of_remove {s : State} {w : Waiter} {before after : List Waiter}
    (split : s.waiters = before ++ w :: after) {v : Waiter} (found : v ∈ before ++ after) :
    v ∈ s.waiters := by
  rw [split]
  exact (List.Sublist.append_left (List.sublist_cons_self w after) before).subset found

theorem ChainInv.remove {s : State} (inv : ChainInv s) {w : Waiter} {before after : List Waiter}
    (split : s.waiters = before ++ w :: after) :
    ChainInv { s with waiters := before ++ after } := by
  have sub : ∀ v ∈ before ++ after, v ∈ s.waiters := fun v found => mem_of_remove split found
  refine ⟨?_, inv.locksBelow, ?_, inv.chainsBelow, inv.chain, ?_, ?_, ?_, ?_, ?_, ?_⟩
  · intro a
    have bound := inv.addrs a
    simp only [split, List.map_append, List.map_cons, List.count_append, List.count_cons] at bound ⊢
    omega
  · exact fun v member => inv.waitersBelow v (sub v member)
  · exact fun v member => inv.bare v (sub v member)
  · exact fun v member => inv.woken v (sub v member)
  · exact fun v member => inv.linked v (sub v member)
  · exact fun l on v member => inv.foreign l on v (sub v member)
  · have procs := inv.procs
    rw [split] at procs
    refine List.Nodup.sublist ?_ procs
    exact List.Sublist.map _ (List.Sublist.append_left (List.sublist_cons_self w after) before)
  · exact fun v member => inv.posix v (sub v member)

/-- A waiter that comes back from `tsleep` after a wakeup is ready for another pass. -/
theorem ChainInv.ready {s : State} (inv : ChainInv s) {w : Waiter} {before after : List Waiter}
    (split : s.waiters = before ++ w :: after) (woken : w.woken = true) :
    Ready { s with waiters := before ++ after } w.proc w.lock := by
  have member : w ∈ s.waiters := by simp [split]
  have bound := inv.addrs w.lock.addr
  simp only [split, List.map_append, List.map_cons, List.count_append, List.count_cons,
    beq_self_eq_true, if_true] at bound
  refine ⟨?_, ?_, inv.woken w member woken, inv.waitersBelow w member, inv.bare w member, ?_,
    inv.posix w member⟩
  · change w.lock.addr ∉ s.locks.map (·.addr)
    exact List.count_eq_zero.mp (by lia)
  · simp only [List.map_append]
    exact List.count_eq_zero.mp (by rw [List.count_append]; lia)
  · have procs := inv.procs
    rw [split, List.map_append, List.map_cons, List.nodup_middle, List.nodup_cons] at procs
    intro v old same
    refine procs.1 ?_
    rw [← List.map_append, ← same]
    exact List.mem_map_of_mem old

theorem ChainInv.sleep {s : State} (inv : ChainInv s) {proc : Nat} {lock block : Lockf Owner}
    (ready : Ready s proc lock) (member : block ∈ s.locks) (differ : block.id ≠ lock.id) :
    ChainInv (s.sleep proc lock block) := by
  have one : (s.locks.map (·.addr)).count block.addr = 1 := by
    have positive : 0 < (s.locks.map (·.addr)).count block.addr :=
      List.count_pos_iff.mpr (List.mem_map_of_mem member)
    have bound := inv.addrs block.addr
    lia
  have count : ∀ a, (chains (s.sleep proc lock block).locks).count a =
      (chains s.locks).count a + if a = lock.addr then 1 else 0 := by
    intro a
    change (chains (addBlock block.addr lock.addr s.locks)).count a = _
    rw [count_addBlock, one]
  have absent : (chains s.locks).count lock.addr = 0 := List.count_eq_zero.mpr ready.unchained
  have on : ∀ a, a ∈ chains (s.sleep proc lock block).locks ↔ a ∈ chains s.locks ∨
    a = lock.addr := by
    intro a
    rw [← List.count_pos_iff, count, ← List.count_pos_iff]
    by_cases same : a = lock.addr
    · simp [same]
    · simp [same]
  have waiter : ∀ w ∈ (s.sleep proc lock block).waiters,
      w ∈ s.waiters ∨ w = ⟨proc, lock, block.addr, false⟩ := by
    intro w found
    rcases List.mem_append.mp found with found | found
    · exact .inl found
    · exact .inr (List.mem_singleton.mp found)
  have other : ∀ w ∈ s.waiters, w.lock.addr ≠ lock.addr := by
    intro w old same
    exact ready.idle (same ▸ List.mem_map_of_mem (f := fun w : Waiter => w.lock.addr) old)
  refine ⟨?_, ?_, ?_, ?_, ?_, ?_, ?_, ?_, ?_, ?_, ?_⟩
  · intro a
    change ((addBlock block.addr lock.addr s.locks).map (·.addr)).count a +
      ((s.waiters ++ [(⟨proc, lock, block.addr, false⟩ : Waiter)]).map (·.lock.addr)).count a ≤ 1
    rw [addBlock_addrs, List.map_append, List.count_append]
    have bound := inv.addrs a
    by_cases same : a = lock.addr
    · have first := List.count_eq_zero.mpr ready.unlocked
      have second := List.count_eq_zero.mpr ready.idle
      rw [same]
      simp
      lia
    · have none : ([(⟨proc, lock, block.addr, false⟩ : Waiter)].map (·.lock.addr)).count a = 0 :=
        List.count_eq_zero.mpr (by simpa using same)
      lia
  · intro l found
    obtain ⟨h, old, _, addr, _⟩ := mem_addBlock found
    rw [addr]
    exact inv.locksBelow h old
  · intro w found
    rcases waiter w found with old | rfl
    · exact inv.waitersBelow w old
    · exact ready.below
  · intro a found
    rcases (on a).mp found with old | rfl
    · exact inv.chainsBelow a old
    · exact ready.below
  · intro a
    rw [count]
    have bound := inv.chain a
    by_cases same : a = lock.addr
    · rw [same, absent]
      simp
    · simp [same, bound]
  · intro w found
    rcases waiter w found with old | rfl
    · exact inv.bare w old
    · exact ready.bare
  · intro w found woken
    rcases waiter w found with old | rfl
    · rw [on]
      rintro (before | same)
      · exact inv.woken w old woken before
      · exact other w old same
    · cases woken
  · intro w found asleep
    rw [on]
    rcases waiter w found with old | rfl
    · exact .inl (inv.linked w old asleep)
    · exact .inr rfl
  · intro l found w waits chained
    obtain ⟨h, old, owner, addr, same | ⟨here, same⟩⟩ := mem_addBlock found
    · rw [same] at chained
      rw [owner]
      rcases waiter w waits with asleep | rfl
      · exact inv.foreign h old w asleep chained
      · exact absurd (mem_chains.mpr ⟨h, old, chained⟩) ready.unchained
    · rw [same, List.mem_append, List.mem_singleton] at chained
      rw [owner]
      rcases waiter w waits with asleep | rfl
      · rcases chained with chained | chained
        · exact inv.foreign h old w asleep chained
        · exact absurd chained (other w asleep)
      · have unique : (s.locks.map (·.addr)).Nodup :=
          List.nodup_iff_count_le_one.mpr fun a => by have := inv.addrs a; lia
        have self : h = block := List.inj_on_of_nodup_map unique old member here
        rw [self]
        exact differ
  · change ((s.waiters ++ [(⟨proc, lock, block.addr, false⟩ : Waiter)]).map (·.proc)).Nodup
    rw [List.map_append, List.nodup_append]
    refine ⟨inv.procs, by simp, ?_⟩
    intro p old q new same
    obtain ⟨w, asleep, rfl⟩ := List.mem_map.mp old
    simp only [List.map_cons, List.map_nil, List.mem_singleton] at new
    exact ready.awake w asleep (same.trans new)
  · intro w found p owner
    rcases waiter w found with old | rfl
    · exact inv.posix w old p owner
    · exact ready.posix p owner

theorem ChainInv.unused {s : State} (inv : ChainInv s) :
    s.fresh ∉ s.locks.map (·.addr) ∧ s.fresh ∉ s.waiters.map (·.lock.addr) ∧
      s.fresh ∉ chains s.locks := by
  refine ⟨?_, ?_, fun member => Nat.lt_irrefl _ (inv.chainsBelow _ member)⟩
  · intro member
    obtain ⟨l, old, addr⟩ := List.mem_map.mp member
    have below := inv.locksBelow l old
    omega
  · intro member
    obtain ⟨w, old, addr⟩ := List.mem_map.mp member
    have below := inv.waitersBelow w old
    omega

theorem ChainInv.fresh_once {s : State} (inv : ChainInv s) (a : Nat) :
    [s.fresh].count a + (s.locks.map (·.addr)).count a +
      (s.waiters.map (·.lock.addr)).count a ≤ 1 := by
  have bound := inv.addrs a
  by_cases same : a = s.fresh
  · obtain ⟨locks, waiters, _⟩ := inv.unused
    rw [same, List.count_eq_zero.mpr locks, List.count_eq_zero.mpr waiters]
    simp
  · rw [List.count_eq_zero.mpr (by simpa using same)]
    omega

theorem ChainInv.request_once {s : State} (inv : ChainInv s) {proc : Nat} {lock : Lockf Owner}
    (ready : Ready s proc lock) (a : Nat) :
    [lock.addr, s.fresh].count a + (s.locks.map (·.addr)).count a +
      (s.waiters.map (·.lock.addr)).count a ≤ 1 := by
  have below := ready.below
  by_cases same : a = lock.addr
  · rw [same, List.count_eq_zero.mpr ready.unlocked, List.count_eq_zero.mpr ready.idle]
    have differ : s.fresh ≠ lock.addr := by lia
    simp [differ]
  · rw [List.count_cons_of_ne (Ne.symm same)]
    exact inv.fresh_once a

theorem ChainInv.clear {s : State} (inv : ChainInv s) {unlock : Lockf Owner} {e : Edit Owner}
    (clear : clearLock s.fresh unlock s.locks = some e) : ChainInv (s.edit e) := by
  refine inv.edit (clearLock_kept clear) inv.fresh_once ?_
  intro a member
  rw [List.mem_singleton.mp member]

theorem ChainInv.insert {s : State} (inv : ChainInv s) {proc : Nat} {lock : Lockf Owner}
    (ready : Ready s proc lock) {e : Edit Owner}
    (insert : insertLock s.fresh lock s.locks = some e) : ChainInv (s.edit e) := by
  refine inv.edit (insertLock_kept ready.bare insert) (inv.request_once ready) ?_
  intro a member
  have below := ready.below
  rcases List.mem_cons.mp member with rfl | member
  · lia
  · rw [List.mem_singleton.mp member]

/-- An edit that has no use for the request's address leaves the request ready. -/
theorem Ready.edit {s : State} {proc : Nat} {lock : Lockf Owner} (ready : Ready s proc lock)
    {id : Owner} {allocated : List Nat} {e : Edit Owner} (kept : Kept id allocated s.locks [] e)
    (other : lock.addr ∉ allocated) : Ready (s.edit e) proc lock := by
  refine ⟨?_, ?_, ?_, Nat.lt_succ_of_lt ready.below, ready.bare, ?_, ready.posix⟩
  · intro found
    have positive := List.count_pos_iff.mpr found
    have edited := kept.addrs lock.addr
    have first := List.count_eq_zero.mpr ready.unlocked
    have second := List.count_eq_zero.mpr other
    change 0 < (e.list.map (·.addr)).count lock.addr at positive
    lia
  · change lock.addr ∉ (s.wakeup e.woken).map (·.lock.addr)
    rw [wakeup_addrs]
    exact ready.idle
  · intro found
    have positive := List.count_pos_iff.mpr found
    have total := kept.count_eq lock.addr
    have before := List.count_eq_zero.mpr ready.unchained
    change 0 < (chains e.list).count lock.addr at positive
    lia
  · intro w found
    obtain ⟨v, old, _, same, _⟩ := wakeup_cases found
    rw [same]
    exact ready.awake v old

theorem ChainInv.setLock {s s' : State} {out : Outside} {proc : Nat} {lock : Lockf Owner}
    {result : Result} (inv : ChainInv s) (ready : Ready s proc lock)
    (pass : setLock s out proc lock = some (s', result)) : ChainInv s' := by
  rcases setLock_cases pass with ⟨e, free, insert, rfl, _⟩ | ⟨_, _, _, _, rfl, _⟩ |
    ⟨block, e, blocked, _, clear, rfl, _⟩ | ⟨block, blocked, rfl, _⟩
  · exact inv.insert ready insert
  · exact inv
  · obtain ⟨member, differ⟩ := getBlock_some blocked
    have kept := clearLock_kept clear
    have ready' : Ready (s.edit e) proc lock := by
      refine ready.edit kept ?_
      have below := ready.below
      rw [List.mem_singleton]
      omega
    exact (inv.clear clear).sleep ready' ((kept.mem_of_ne differ).mpr member) differ
  · obtain ⟨member, differ⟩ := getBlock_some blocked
    exact inv.sleep ready member differ

theorem ChainInv.allocate {s : State} (inv : ChainInv s) :
    ChainInv { s with fresh := s.fresh + 1 } :=
  ⟨inv.addrs, fun l member => Nat.lt_succ_of_lt (inv.locksBelow l member),
    fun w member => Nat.lt_succ_of_lt (inv.waitersBelow w member),
    fun a member => Nat.lt_succ_of_lt (inv.chainsBelow a member), inv.chain, inv.bare, inv.woken,
    inv.linked, inv.foreign, inv.procs, inv.posix⟩

theorem ChainInv.ready_call {s : State} (inv : ChainInv s) {c : Call} (proper : c.Proper)
    (idle : ∀ w ∈ s.waiters, w.proc ≠ c.proc) (start : Int) :
    Ready { s with fresh := s.fresh + 1 } c.proc (c.lock s.fresh start) := by
  obtain ⟨locks, waiters, chained⟩ := inv.unused
  exact ⟨locks, waiters, chained, Nat.lt_succ_self _, rfl, idle, proper⟩

theorem ChainInv.step {s s' : State} {event : Event} (inv : ChainInv s) (step : Step s event s') :
    ChainInv s' := by
  cases step with
  | @call _ out c result proper idle call =>
    rcases advlock_cases call with ⟨locks, waiters, fresh, _⟩ | ⟨start, _, _, _, pass⟩ |
      ⟨start, e, _, _, _, clear, rfl, _⟩
    · obtain ⟨addrs, locksBelow, waitersBelow, chainsBelow, chain, bare, woken, linked, foreign,
        procs, posix⟩ := inv
      rw [← locks, ← waiters] at addrs
      rw [← locks] at locksBelow chainsBelow chain woken linked foreign
      rw [← waiters] at waitersBelow bare woken linked foreign procs posix
      exact ⟨addrs, fun l member => (locksBelow l member).trans_le fresh,
        fun w member => (waitersBelow w member).trans_le fresh,
        fun a member => (chainsBelow a member).trans_le fresh, chain, bare, woken, linked,
        foreign, procs, posix⟩
    · exact inv.allocate.setLock (inv.ready_call proper idle start) pass
    · exact inv.allocate.clear clear
  | @resume _ out w before after result split woken pass =>
    exact (inv.remove split).setLock (inv.ready split woken) pass
  | @interrupt w before after error e split _ clear =>
    exact (inv.remove split).clear clear

theorem ChainInv.init : ChainInv State.init := by
  refine ⟨?_, ?_, ?_, ?_, ?_, ?_, ?_, ?_, ?_, ?_, ?_⟩ <;> simp [State.init]

theorem ChainInv.run {events : List Event} {s t : State} (inv : ChainInv s)
    (run : Run Step s events t) : ChainInv t :=
  run.invariant (fun _ _ _ _ inv step => ChainInv.step inv step) (fun _ _ => trivial) inv

end Waiters

section Failure

def ranges (o : Owner) (locks : List (Lockf Owner)) : List (LockType × Int × Int) :=
  (own o locks).map fun l => (l.type, l.start, l.last)

theorem held_ranges (locks : List (Lockf Owner)) (o : Owner) (x : Int) :
    held locks o x = ((ranges o locks).find? fun r =>
      r.2.1 ≤ x ∧ (r.2.2 = -1 ∨ x ≤ r.2.2)).map (·.1) := by
  unfold held ranges own
  rw [List.find?_map, List.find?_filter, Option.map_map]
  congr 2
  funext l
  rw [Bool.eq_iff_iff, decide_eq_true_iff]
  simp [Lockf.Contains]

theorem held_congr {A B : List (Lockf Owner)} {o : Owner} (same : ranges o A = ranges o B) :
    held A o = held B o := by
  funext x
  rw [held_ranges, held_ranges, same]

theorem ranges_addBlock (o : Owner) (block request : Nat) (locks : List (Lockf Owner)) :
    ranges o (addBlock block request locks) = ranges o locks := by
  unfold ranges own addBlock
  rw [List.filter_map, List.map_map]
  have keep : ∀ l : Lockf Owner, ((fun l => decide (l.id = o)) ∘ fun lf : Lockf Owner =>
      if lf.addr = block then { lf with block := lf.block ++ [request] } else lf) l =
        decide (l.id = o) := by
    intro l
    have like := addBlock_like block request l
    simp only [Function.comp, like.id]
  rw [List.filter_congr fun l _ => keep l]
  refine List.map_congr_left fun l _ => ?_
  have like := addBlock_like block request l
  simp only [Function.comp, like.type, like.start, like.last]

theorem Kept.ranges_eq {id o : Owner} {allocated : List Nat} {old : List (Lockf Owner)}
    {e : Edit Owner} (kept : Kept id allocated old [] e) (differ : o ≠ id) :
    ranges o e.list = ranges o old := by
  unfold ranges
  rw [kept.own_eq differ]

/-- The sleepers of `s` are still asleep in `t`, and only `request` may have joined them. -/
structure Sleepers (s t : State) (request : Option (Lockf Owner)) : Prop where
  stay : ∀ w ∈ s.waiters, ∃ v ∈ t.waiters, v.lock = w.lock ∧ v.proc = w.proc
  from_ : ∀ v ∈ t.waiters, (∃ w ∈ s.waiters, w.lock = v.lock) ∨ request = some v.lock
  fresh : s.fresh ≤ t.fresh

theorem Sleepers.edit (s : State) (e : Edit Owner) : Sleepers s (s.edit e) none := by
  refine ⟨?_, ?_, Nat.le_succ _⟩
  · intro w member
    refine ⟨_, List.mem_map_of_mem member, ?_⟩
    split
    · exact ⟨rfl, rfl⟩
    · exact ⟨rfl, rfl⟩
  · intro v member
    obtain ⟨w, old, same, _⟩ := wakeup_cases member
    exact .inl ⟨w, old, same.symm⟩

theorem Sleepers.sleep {s t : State} (sleepers : Sleepers s t none) (proc : Nat)
    (lock block : Lockf Owner) : Sleepers s (t.sleep proc lock block) (some lock) := by
  refine ⟨?_, ?_, sleepers.fresh⟩
  · intro w member
    obtain ⟨v, found, same⟩ := sleepers.stay w member
    exact ⟨v, List.mem_append_left _ found, same⟩
  · intro v member
    rcases List.mem_append.mp member with old | new
    · rcases sleepers.from_ v old with found | none
      · exact .inl found
      · cases none
    · rw [List.mem_singleton.mp new]
      exact .inr rfl

theorem Sleepers.refl (s : State) : Sleepers s s none :=
  ⟨fun w member => ⟨w, member, rfl, rfl⟩, fun v member => .inl ⟨v, member, rfl⟩, le_refl _⟩

theorem Sleepers.weaken {s t : State} (sleepers : Sleepers s t none)
    (request : Option (Lockf Owner)) : Sleepers s t request := by
  refine ⟨sleepers.stay, ?_, sleepers.fresh⟩
  intro v member
  rcases sleepers.from_ v member with found | none
  · exact .inl found
  · cases none

theorem setLock_frame {s s' : State} {out : Outside} {proc : Nat} {lock : Lockf Owner}
    {result : Result} (bare : lock.block = [])
    (pass : setLock s out proc lock = some (s', result)) :
    Sleepers s s' (some lock) ∧ ∀ o, o ≠ lock.id → ranges o s'.locks = ranges o s.locks := by
  rcases setLock_cases pass with ⟨e, free, insert, rfl, _⟩ | ⟨_, _, _, _, rfl, _⟩ |
    ⟨block, e, blocked, _, clear, rfl, _⟩ | ⟨block, blocked, rfl, _⟩
  · exact ⟨(Sleepers.edit s e).weaken _,
      fun o differ => (insertLock_kept bare insert).ranges_eq differ⟩
  · exact ⟨(Sleepers.refl s').weaken _, fun o _ => rfl⟩
  · refine ⟨(Sleepers.edit s e).sleep proc lock block, fun o differ => ?_⟩
    exact (ranges_addBlock o _ _ _).trans ((clearLock_kept clear).ranges_eq differ)
  · exact ⟨(Sleepers.refl s).sleep proc lock block, fun o _ => ranges_addBlock o _ _ _⟩

/-- The request is still asleep and its owner's locks are as they were, or it is over:
it is never asleep again. -/
def Pending (lock : Lockf Owner) (proc : Nat) (base : List (LockType × Int × Int)) (t : State) :
    Prop :=
  (∃ w ∈ t.waiters, w.lock = lock ∧ w.proc = proc) ∧ ranges lock.id t.locks = base ∨
    (∀ w ∈ t.waiters, w.lock.addr ≠ lock.addr) ∧ lock.addr < t.fresh

theorem Pending.frame {lock : Lockf Owner} {proc : Nat} {base : List (LockType × Int × Int)}
    {t t' : State} {request : Option (Lockf Owner)} (pending : Pending lock proc base t)
    (sleepers : Sleepers t t' request) (apart : ∀ r, request = some r → r.addr ≠ lock.addr)
    (frame : (∃ w ∈ t.waiters, w.lock = lock ∧ w.proc = proc) →
      ranges lock.id t'.locks = ranges lock.id t.locks) : Pending lock proc base t' := by
  rcases pending with ⟨⟨w, member, mine, by_⟩, same⟩ | ⟨gone, below⟩
  · obtain ⟨v, found, lock', proc'⟩ := sleepers.stay w member
    refine .inl ⟨⟨v, found, lock'.trans mine, proc'.trans by_⟩, ?_⟩
    rw [frame ⟨w, member, mine, by_⟩, same]
  · refine .inr ⟨?_, below.trans_le sleepers.fresh⟩
    intro v found
    rcases sleepers.from_ v found with ⟨w, member, same⟩ | new
    · rw [← same]
      exact gone w member
    · exact apart _ new

theorem waiter_unique {s : State} (inv : ChainInv s) {v w : Waiter} (first : v ∈ s.waiters)
    (second : w ∈ s.waiters) (same : v.lock.addr = w.lock.addr) : v = w := by
  have unique : (s.waiters.map (·.lock.addr)).Nodup :=
    List.nodup_iff_count_le_one.mpr fun a => by have := inv.addrs a; omega
  exact List.inj_on_of_nodup_map unique first second same

theorem waiter_gone {s : State} (inv : ChainInv s) {w : Waiter} {before after : List Waiter}
    (split : s.waiters = before ++ w :: after) :
    ∀ v ∈ before ++ after, v.lock.addr ≠ w.lock.addr := by
  intro v member same
  have bound := inv.addrs w.lock.addr
  have positive : 0 < ((before ++ after).map (·.lock.addr)).count w.lock.addr :=
    List.count_pos_iff.mpr (same ▸ List.mem_map_of_mem (f := fun w : Waiter => w.lock.addr) member)
  simp only [split, List.map_append, List.map_cons, List.count_append, List.count_cons,
    beq_self_eq_true, if_true] at bound positive
  omega

/-- Another waiter belongs to another owner than a pending `F_POSIX` request. -/
theorem waiter_other {s : State} (inv : ChainInv s) {w v : Waiter} (first : v ∈ s.waiters)
    (second : w ∈ s.waiters) (posix : v.lock.id = .proc v.proc)
    (apart : w.lock.addr ≠ v.lock.addr) : v.lock.id ≠ w.lock.id := by
  intro same
  have proc : v.proc = w.proc := inv.posix w second v.proc (same ▸ posix)
  have equal : v = w := List.inj_on_of_nodup_map inv.procs first second proc
  exact apart (by rw [equal])

theorem Pending.remove {lock : Lockf Owner} {proc : Nat} {base : List (LockType × Int × Int)}
    {t : State} (pending : Pending lock proc base t) {w : Waiter} {before after : List Waiter}
    (split : t.waiters = before ++ w :: after) (other : w.lock.addr ≠ lock.addr) :
    Pending lock proc base { t with waiters := before ++ after } := by
  rcases pending with ⟨⟨v, asleep, same, by_⟩, ranges_⟩ | ⟨gone, low⟩
  · refine .inl ⟨⟨v, ?_, same, by_⟩, ranges_⟩
    rw [split, List.mem_append, List.mem_cons] at asleep
    rcases asleep with asleep | rfl | asleep
    · exact List.mem_append_left _ asleep
    · exact absurd (by rw [same]) other
    · exact List.mem_append_right _ asleep
  · exact .inr ⟨fun v found => gone v (mem_of_remove split found), low⟩

theorem Pending.step {lock : Lockf Owner} {proc : Nat} {base : List (LockType × Int × Int)}
    (posix : lock.id = .proc proc) (flock : lock.flags.flock = false) {t t' : State}
    {event : Event} (inv : ChainInv t) (pending : Pending lock proc base t)
    (step : Step t event t') : Pending lock proc base t' := by
  have below : lock.addr < t.fresh := by
    rcases pending with ⟨⟨w, member, rfl, _⟩, _⟩ | ⟨_, below⟩
    · exact inv.waitersBelow w member
    · exact below
  cases step with
  | @call _ out c result proper idle call =>
    have apart : (∃ w ∈ t.waiters, w.lock = lock ∧ w.proc = proc) → lock.id ≠ c.id := by
      rintro ⟨w, member, _, by_⟩ same
      exact idle w member (by_.trans (proper proc (same.symm.trans posix)))
    rcases advlock_cases call with ⟨locks, waiters, fresh, _⟩ | ⟨start, _, _, _, pass⟩ |
      ⟨start, e, _, _, _, clear, rfl, _⟩
    · unfold Pending
      rw [locks, waiters]
      rcases pending with asleep | ⟨gone, below⟩
      · exact .inl asleep
      · exact .inr ⟨gone, below.trans_le fresh⟩
    · obtain ⟨sleepers, frame⟩ := setLock_frame rfl pass
      have grown : Sleepers t t' (some (c.lock t.fresh start)) :=
        ⟨sleepers.stay, sleepers.from_, (Nat.le_succ _).trans sleepers.fresh⟩
      refine pending.frame grown ?_ (fun asleep => frame _ (apart asleep))
      rintro r same
      cases same
      exact Nat.ne_of_gt below
    · have grown : Sleepers t ({ t with fresh := t.fresh + 1 }.edit e) none := by
        have sleepers := Sleepers.edit { t with fresh := t.fresh + 1 } e
        exact ⟨sleepers.stay, sleepers.from_, (Nat.le_succ _).trans sleepers.fresh⟩
      refine pending.frame grown (fun r none => by cases none) ?_
      exact fun asleep => (clearLock_kept clear).ranges_eq (apart asleep)
  | @resume _ out w before after result split woken pass =>
    have member : w ∈ t.waiters := by simp [split]
    obtain ⟨sleepers, frame⟩ := setLock_frame (inv.bare w member) pass
    by_cases mine : w.lock.addr = lock.addr
    · have ended : ∀ v ∈ before ++ after, v.lock.addr ≠ lock.addr := mine ▸ waiter_gone inv split
      rcases pending with ⟨⟨v, asleep, same, by_⟩, ranges_⟩ | ⟨gone, _⟩
      · have self : v = w := waiter_unique inv asleep member (by rw [same, mine])
        subst self same
        rcases setLock_cases pass with ⟨e, _, _, rfl, _⟩ | ⟨_, _, _, _, rfl, _⟩ |
          ⟨_, _, _, exclusive, _⟩ | ⟨block, _, rfl, _⟩
        · refine .inr ⟨?_, Nat.lt_succ_of_lt below⟩
          intro u found
          obtain ⟨u', old, lock', _⟩ := wakeup_cases found
          rw [lock']
          exact ended u' old
        · exact .inr ⟨ended, below⟩
        · rw [flock] at exclusive
          cases exclusive
        · refine .inl ⟨⟨_, List.mem_append_right _ (List.mem_singleton_self _), rfl, by_⟩, ?_⟩
          exact (ranges_addBlock _ _ _ _).trans ranges_
      · exact absurd mine (gone w member)
    · refine (pending.remove split mine).frame sleepers ?_ ?_
      · rintro r same
        cases same
        exact mine
      · rintro ⟨v, found, rfl, rfl⟩
        have asleep := mem_of_remove split found
        exact frame _ (waiter_other inv asleep member posix mine)
  | @interrupt w before after error e split _ clear =>
    have member : w ∈ t.waiters := by simp [split]
    by_cases mine : w.lock.addr = lock.addr
    · have ended : ∀ v ∈ before ++ after, v.lock.addr ≠ lock.addr := mine ▸ waiter_gone inv split
      refine .inr ⟨?_, Nat.lt_succ_of_lt below⟩
      intro u found
      obtain ⟨u', old, lock', _⟩ := wakeup_cases found
      rw [lock']
      exact ended u' old
    · refine (pending.remove split mine).frame (Sleepers.edit _ e) (fun r none => by cases none) ?_
      rintro ⟨v, found, rfl, rfl⟩
      have asleep := mem_of_remove split found
      exact (clearLock_kept clear).ranges_eq (waiter_other inv asleep member posix mine)

theorem Pending.run {lock : Lockf Owner} {proc : Nat} {base : List (LockType × Int × Int)}
    (posix : lock.id = .proc proc) (flock : lock.flags.flock = false) {t t' : State}
    {events : List Event} (inv : ChainInv t) (pending : Pending lock proc base t)
    (run : Run Step t events t') : Pending lock proc base t' := by
  have both : ChainInv t' ∧ Pending lock proc base t' :=
    run.invariant (P := fun u => ChainInv u ∧ Pending lock proc base u)
      (fun _ _ _ _ held step => ⟨held.1.step step, held.2.step posix flock held.1 step⟩)
      (fun _ _ => trivial) ⟨inv, pending⟩
  exact both.2

/-- The call `c`, made in `s`, returns an error in `s'`: at once, or by the last event
when it comes back from its sleep in `t`. -/
inductive Fails (c : Call) (s : State) : List Event → State → Event → State → Prop where
  | atOnce {error : Errno} {s' : State} : Step s (.call c (.failed error)) s' →
      Fails c s [] s (.call c (.failed error)) s'
  | denied {error : Errno} {u t s' : State} {events : List Event} : Step s (.call c .asleep) u →
      Run Step u events t → Step t (.resume s.fresh (.failed error)) s' →
      Fails c s (.call c .asleep :: events) t (.resume s.fresh (.failed error)) s'
  | interrupted {error : Errno} {u t s' : State} {events : List Event} :
      Step s (.call c .asleep) u → Run Step u events t → Step t (.interrupt s.fresh error) s' →
      Fails c s (.call c .asleep :: events) t (.interrupt s.fresh error) s'

/-- The owner's bytes are as before the call, and no chain holds its request. -/
def Restored (c : Call) (s s' : State) : Prop :=
  held s'.locks c.id = held s.locks c.id ∧ ∀ l ∈ s'.locks, s.fresh ∉ l.block

/-- The error is not that of `tsleep`, or `lf_wakelock` has taken the request off its
chain and `lf_findoverlap` finds no lock of the owner in the range. -/
def Harmless (t : State) : Event → Prop
  | .interrupt request _ => ∃ w ∈ t.waiters, w.lock.addr = request ∧ w.woken = true ∧
      (findOverlap .self w.lock t.locks).2.1 = .none
  | _ => True

/-- A call that sleeps leaves its request on a chain, with its owner's locks as they were. -/
theorem call_asleep {s u : State} {c : Call} (posix : c.id = .proc c.proc)
    (step : Step s (.call c .asleep) u) :
    ∃ start, c.start = some start ∧ 0 ≤ start ∧
      Pending (c.lock s.fresh start) c.proc (ranges c.id s.locks) u := by
  cases step with
  | call proper idle call =>
    rcases advlock_cases call with ⟨_, _, _, awake, _⟩ | ⟨start, known, low, _, pass⟩ |
      ⟨_, _, _, _, _, _, _, done⟩
    · exact absurd rfl awake
    · refine ⟨start, known, low, ?_⟩
      rcases setLock_cases pass with ⟨_, _, _, _, done⟩ | ⟨_, _, _, _, _, failed⟩ |
        ⟨_, _, _, exclusive, _⟩ | ⟨block, _, rfl, _⟩
      · cases done
      · cases failed
      · simp [Call.lock, Owner.flags, posix] at exclusive
      · refine .inl ⟨⟨_, List.mem_append_right _ (List.mem_singleton_self _), rfl, rfl⟩, ?_⟩
        exact ranges_addBlock _ _ _ _
    · cases done

theorem clearLock_none {fresh : Nat} {unlock : Lockf Owner} {list : List (Lockf Owner)}
    {e : Edit Owner} (none : (findOverlap .self unlock list).2.1 = .none)
    (clear : clearLock fresh unlock list = some e) : e.list = list := by
  obtain ⟨split, _, _⟩ := findOverlap_self unlock list
  unfold clearLock at clear
  rw [clearLoop] at clear
  generalize findOverlap .self unlock list = result at split none clear
  obtain ⟨skip, c, rest⟩ := result
  simp only at split none clear
  subst none
  cases clear
  exact split.symm

theorem findOverlap_byte {lock : Lockf Owner} (ok : lock.Valid) {list : List (Lockf Owner)}
    (valid : ∀ l ∈ list, l.Valid) (found : (findOverlap .self lock list).2.1 ≠ .none) :
    ∃ x t, Covers list lock.id x t ∧ lock.Contains x := by
  obtain ⟨split, _, result⟩ := findOverlap_self lock list
  generalize findOverlap .self lock list = r at split result found
  obtain ⟨skip, c, rest⟩ := r
  simp only at split result found
  cases result with
  | finish => exact absurd rfl found
  | gap => exact absurd rfl found
  | @hit h t own hit =>
    have member : h ∈ list := by simp [split]
    have good := valid h member
    have overlap :
      ¬ (h.last ≠ -1 ∧ lock.start > h.last ∨ lock.last ≠ -1 ∧ h.start > lock.last) := by
      intro clear
      exact hit (by rw [ovcase, if_pos clear])
    unfold Lockf.Valid at ok good
    refine ⟨max h.start lock.start, h.type, ⟨h, member, own, ?_, rfl⟩, ?_⟩
    · unfold Lockf.Contains
      lia
    · unfold Lockf.Contains
      lia

theorem step_resume {t s' : State} {request : Nat} {result : Result}
    (step : Step t (.resume request result) s') :
    ∃ w out before after, t.waiters = before ++ w :: after ∧ w.lock.addr = request ∧
      w.woken = true ∧
      setLock { t with waiters := before ++ after } out w.proc w.lock = some (s', result) := by
  generalize same : Event.resume request result = event at step
  cases step with
  | call => cases same
  | interrupt => cases same
  | @resume _ out w before after _ split woken pass =>
    cases same
    exact ⟨w, out, before, after, split, rfl, woken, pass⟩

theorem step_interrupt {t s' : State} {request : Nat} {error : Errno}
    (step : Step t (.interrupt request error) s') :
    ∃ w before after e, t.waiters = before ++ w :: after ∧ w.lock.addr = request ∧
      clearLock t.fresh w.lock t.locks = some e ∧ s'.locks = e.list := by
  generalize same : Event.interrupt request error = event at step
  cases step with
  | call => cases same
  | resume => cases same
  | @interrupt w before after _ e split _ clear =>
    cases same
    exact ⟨w, before, after, e, split, rfl, clear, rfl⟩

theorem Pending.waiter {lock : Lockf Owner} {proc : Nat} {base : List (LockType × Int × Int)}
    {t : State} (inv : ChainInv t) (pending : Pending lock proc base t) {w : Waiter}
    (member : w ∈ t.waiters) (mine : w.lock.addr = lock.addr) :
    w.lock = lock ∧ ranges lock.id t.locks = base := by
  rcases pending with ⟨⟨v, asleep, same, _⟩, ranges_⟩ | ⟨gone, _⟩
  · have self : v = w := waiter_unique inv asleep member (by rw [same, mine])
    exact ⟨self ▸ same, ranges_⟩
  · exact absurd mine (gone w member)

theorem restored_of_locks {c : Call} {s s' : State}
    (same : ranges c.id s'.locks = ranges c.id s.locks) (off : s.fresh ∉ chains s'.locks) :
    Restored c s s' := by
  refine ⟨held_congr same, ?_⟩
  intro l member on
  exact off (mem_chains.mpr ⟨l, member, on⟩)

/-- A failed `F_POSIX` request leaves its owner's locks and the chains alone exactly
when it does not fail in `tsleep` with its request still on a chain, or with a lock of
its own in the range. The first half asks nothing of the ranges. -/
theorem failed_setlk {before events : List Event} {s t s' : State} {event : Event} {c : Call}
    (run : Run Step State.init before s) (posix : c.id = .proc c.proc)
    (fails : Fails c s events t event s') :
    (Harmless t event → Restored c s s') ∧
      ((∀ e ∈ before ++ events, e.Regular) → Restored c s s' → Harmless t event) := by
  have invS : ChainInv s := ChainInv.init.run run
  cases fails with
  | @atOnce error _ step =>
    refine ⟨fun _ => ?_, fun _ _ => trivial⟩
    have same : s'.locks = s.locks := by
      cases step with
      | call proper idle call =>
        rcases advlock_cases call with ⟨locks, _⟩ | ⟨start, _, _, _, pass⟩ |
          ⟨_, _, _, _, _, _, _, done⟩
        · exact locks
        · rcases setLock_cases pass with ⟨_, _, _, _, done⟩ | ⟨_, _, _, _, rfl, _⟩ |
            ⟨_, _, _, _, _, _, asleep⟩ | ⟨_, _, _, asleep⟩
          · cases done
          · rfl
          · cases asleep
          · cases asleep
        · cases done
    exact restored_of_locks (by rw [same]) (by rw [same]; exact invS.unused.2.2)
  | @denied error u _ _ events first sleeping last =>
    refine ⟨fun _ => ?_, fun _ _ => trivial⟩
    obtain ⟨start, _, _, pending⟩ := call_asleep posix first
    have invT := (invS.step first).run sleeping
    have later := pending.run posix (by simp [Call.lock, Owner.flags, posix]) (invS.step first)
      sleeping
    obtain ⟨w, out, front, back, split, mine, woken, pass⟩ := step_resume last
    have member : w ∈ t.waiters := by simp [split]
    obtain ⟨self, base⟩ := later.waiter invT member mine
    rcases setLock_cases pass with ⟨_, _, _, _, done⟩ | ⟨_, _, _, _, rfl, _⟩ |
      ⟨_, _, _, _, _, _, asleep⟩ | ⟨_, _, _, asleep⟩
    · cases done
    · exact restored_of_locks base (mine ▸ invT.woken w member woken)
    · cases asleep
    · cases asleep
  | @interrupted error u _ _ events first sleeping last =>
    obtain ⟨start, _, _, pending⟩ := call_asleep posix first
    have invT := (invS.step first).run sleeping
    have later := pending.run posix (by simp [Call.lock, Owner.flags, posix]) (invS.step first)
      sleeping
    obtain ⟨w, front, back, e, split, mine, clear, locks⟩ := step_interrupt last
    have member : w ∈ t.waiters := by simp [split]
    obtain ⟨self, base⟩ := later.waiter invT member mine
    change ranges c.id t.locks = ranges c.id s.locks at base
    have id : w.lock.id = c.id := by rw [self]; rfl
    constructor
    · rintro ⟨v, asleep, addr, woken, none⟩
      cases waiter_unique invT asleep member (addr.trans mine.symm)
      have same : s'.locks = t.locks := locks.trans (clearLock_none none clear)
      rw [← same] at base
      refine restored_of_locks base ?_
      rw [same, ← mine]
      exact invT.woken w member woken
    · rintro regular ⟨bytes, chained⟩
      have inv : StateInv t := StateInv.run (run.append (.cons first sleeping)) regular
      refine ⟨w, member, mine, ?_, ?_⟩
      · by_contra asleep
        have linked := invT.linked w member (Bool.eq_false_iff.mpr asleep)
        obtain ⟨l, found, on⟩ := mem_chains.mp linked
        have differ := invT.foreign l found w member on
        have stays : l ∈ s'.locks := by
          rw [locks]
          exact ((clearLock_kept clear).mem_of_ne differ).mpr found
        exact chained l stays (mine ▸ on)
      · by_contra overlap
        obtain ⟨x, type, covers, inside⟩ :=
          findOverlap_byte (inv.asleep w member).1 inv.locks.valid overlap
        obtain ⟨valid, short⟩ := inv.asleep w member
        obtain ⟨e', same, edited, cleared⟩ := inv.locks.clear valid (short.room _) t.fresh
        cases clear.symm.trans same
        rw [id] at covers
        have now : held s'.locks c.id x = some type := by
          rw [bytes, ← congrFun (held_congr base) x]
          exact (held_some inv.locks.sorted).mpr covers
        rw [locks, held_some edited.sorted, cleared] at now
        exact now.2 ⟨id.symm, inside⟩

def State.after (s : State) (c : Call) : State :=
  match advlock s .quiet c with
  | some (t, _) => t
  | none => s

/-- Process 1 waits for a write lock of process 2, and is interrupted after its release. -/
theorem failed_setlk_woken : ∃ t s',
    Fails (fcntlCall 1 true .setlk .rdlck 0 10)
      (State.init.after (fcntlCall 2 false .setlk .wrlck 0 10))
      [.call (fcntlCall 1 true .setlk .rdlck 0 10) .asleep,
        .call (fcntlCall 2 false .unlck .wrlck 0 10) .done] t (.interrupt 2 .eintr) s' ∧
      Restored (fcntlCall 1 true .setlk .rdlck 0 10)
        (State.init.after (fcntlCall 2 false .setlk .wrlck 0 10)) s' := by
  let s := State.init.after (fcntlCall 2 false .setlk .wrlck 0 10)
  let u := s.after (fcntlCall 1 true .setlk .rdlck 0 10)
  let t := u.after (fcntlCall 2 false .unlck .wrlck 0 10)
  have run : Run Step State.init [.call (fcntlCall 2 false .setlk .wrlck 0 10) .done] s :=
    .cons (fcntlCall_step (by decide) rfl) (.nil _)
  have first : Step s (.call (fcntlCall 1 true .setlk .rdlck 0 10) .asleep) u :=
    fcntlCall_step (by decide) rfl
  have second : Step u (.call (fcntlCall 2 false .unlck .wrlck 0 10) .done) t :=
    fcntlCall_step (by decide) rfl
  have last : Step t (.interrupt 2 .eintr) _ :=
    @Step.interrupt t ⟨1, (fcntlCall 1 true .setlk .rdlck 0 10).lock 2 0, 0, true⟩ [] [] .eintr
      ⟨[], []⟩ rfl (.inl rfl) rfl
  have fails := Fails.interrupted first (.cons second (.nil _)) last
  refine ⟨t, _, fails, (failed_setlk run rfl fails).1 ?_⟩
  exact ⟨_, List.mem_singleton_self _, rfl, rfl, rfl⟩

/-- Processes 1 and 2 share bytes 0 to 9; process 1 waits for a write lock on them and is
interrupted: its read lock is gone, and its request is still on a chain. -/
theorem failed_setlk_drops_lock : ∃ before s events t event s',
    Run Step State.init before s ∧
      Fails (fcntlCall 1 true .setlk .wrlck 0 10) s events t event s' ∧
      ¬ Restored (fcntlCall 1 true .setlk .wrlck 0 10) s s' := by
  let r := State.init.after (fcntlCall 1 false .setlk .rdlck 0 10)
  let s := r.after (fcntlCall 2 false .setlk .rdlck 0 10)
  let t := s.after (fcntlCall 1 true .setlk .wrlck 0 10)
  have run : Run Step State.init [.call (fcntlCall 1 false .setlk .rdlck 0 10) .done,
      .call (fcntlCall 2 false .setlk .rdlck 0 10) .done] s :=
    .cons (t := r) (fcntlCall_step (by decide) rfl)
      (.cons (fcntlCall_step (by decide) rfl) (.nil _))
  have first : Step s (.call (fcntlCall 1 true .setlk .wrlck 0 10) .asleep) t :=
    fcntlCall_step (by decide) rfl
  have last : Step t (.interrupt 4 .eintr) _ :=
    @Step.interrupt t ⟨1, (fcntlCall 1 true .setlk .wrlck 0 10).lock 4 0, 2, false⟩ [] [] .eintr
      ⟨[{ (fcntlCall 2 false .setlk .rdlck 0 10).lock 2 0 with block := [4] }], []⟩ rfl
      (.inl rfl) rfl
  refine ⟨_, s, _, t, _, _, run, Fails.interrupted first (.nil _) last, ?_⟩
  rintro ⟨bytes, _⟩
  have byte := congrFun bytes 0
  revert byte
  decide

end Failure

end FreeBsd.Ufs
