import Mathlib.Order.CompletePartialOrder
import Mathlib.Tactic.Ring
import Mathlib.Data.Set.Lattice
import Mathlib.Order.Interval.Set.Basic
import Mathlib.Tactic.Common
import FreeBsd.Lib.Trace

/-! Resource lists: sorted lists of ranges that stand for a set of free units. -/
namespace FreeBsd.Kern

open FreeBsd.Lib

section Model

structure Rlist where
  rlStart : Nat
  rlEnd : Nat
  deriving DecidableEq, Repr

inductive RlistPanic where
  | overlappingFront
  | overlappingTail
  | cantHappen
  deriving DecidableEq, Repr

/-- The value an `unsigned` holds after `x` is stored in it. -/
def unsigned (x : Nat) : Nat := x % 2 ^ 32

/-- The loop of `rlist_free`; with the list comes whether it goes on to `scan`. -/
def rlistPlace (start stop : Nat) : List Rlist → Except RlistPanic (Bool × List Rlist)
  | [] => .ok (false, [⟨start, stop⟩])
  | q :: rest =>
    if start ≥ q.rlStart ∧ start ≤ q.rlEnd then .error .overlappingFront
    else if stop ≥ q.rlStart ∧ stop ≤ q.rlEnd then .error .overlappingTail
    -- are we adjacent to this element? (in front)
    else if unsigned (stop + 1) = q.rlStart then .ok (true, { q with rlStart := start } :: rest)
    else if stop < q.rlStart then .ok (false, ⟨start, stop⟩ :: q :: rest)
    -- are we adjacent to this element? (at tail)
    else if unsigned (q.rlEnd + 1) = start then .ok (true, { q with rlEnd := stop } :: rest)
    else if start > q.rlEnd then
      match rlistPlace start stop rest with
      | .error e => .error e
      | .ok (scan, rest) => .ok (scan, q :: rest)
    else .error .cantHappen

/-- The rescan from `lp` on: can we coalesce list now that we've filled a void? -/
def rlistScan (lp : Rlist) : List Rlist → List Rlist
  | [] => [lp]
  | lpn :: rest =>
    if unsigned (lp.rlEnd + 1) = lpn.rlStart then rlistScan { lp with rlEnd := lpn.rlEnd } rest
    else lp :: rlistScan lpn rest

def rlistFree (rlp : List Rlist) (start stop : Nat) : Except RlistPanic (List Rlist) :=
  match rlistPlace start stop rlp with
  | .error e => .error e
  | .ok (true, head :: rest) => .ok (rlistScan head rest)
  | .ok (_, list) => .ok list

/-- `rlist_alloc`: the location, if it returns 1, and the list. -/
def rlistAlloc (size : Nat) : List Rlist → Option Nat × List Rlist
  | [] => (none, [])
  | q :: rest =>
    if size ≤ unsigned (q.rlEnd + 2 ^ 32 - q.rlStart + 1) then
      let start := unsigned (q.rlStart + size)
      -- did we eat this element entirely?
      (some q.rlStart, if start > q.rlEnd then rest else { q with rlStart := start } :: rest)
    else
      let r := rlistAlloc size rest
      (r.1, q :: r.2)

end Model

section Units

def units (list : List Rlist) : Set Nat := {u | ∃ q ∈ list, q.rlStart ≤ u ∧ u ≤ q.rlEnd}

def Ranges (list : List Rlist) : Prop := ∀ q ∈ list, q.rlStart ≤ q.rlEnd ∧ q.rlEnd < 2 ^ 32 - 1

structure Separate (list : List Rlist) : Prop where
  ranges : Ranges list
  apart : list.Pairwise fun a b => a.rlEnd + 1 < b.rlStart

structure Loose (list : List Rlist) : Prop where
  ranges : Ranges list
  apart : list.Pairwise fun a b => a.rlEnd < b.rlStart

variable {q : Rlist} {list rest : List Rlist}

@[simp] theorem units_nil : units [] = ∅ := by
  simp [units]

@[simp] theorem units_cons (q : Rlist) (rest : List Rlist) :
    units (q :: rest) = Set.Icc q.rlStart q.rlEnd ∪ units rest := by
  ext u
  simp [units]

theorem unsigned_eq {x : Nat} (small : x < 2 ^ 32) : unsigned x = x := Nat.mod_eq_of_lt small

theorem mem_units_start (ranges : Ranges list) (member : q ∈ list) : q.rlStart ∈ units list :=
  ⟨q, member, le_refl _, (ranges q member).1⟩

theorem Ranges.tail (ranges : Ranges (q :: rest)) : Ranges rest :=
  fun p member => ranges p (List.mem_cons_of_mem q member)

theorem Separate.loose (separate : Separate list) : Loose list where
  ranges := separate.ranges
  apart := separate.apart.imp fun gap => by omega

theorem Separate.tail (separate : Separate (q :: rest)) : Separate rest where
  ranges := separate.ranges.tail
  apart := separate.apart.of_cons

theorem Loose.tail (loose : Loose (q :: rest)) : Loose rest where
  ranges := loose.ranges.tail
  apart := loose.apart.of_cons

/-- What a list stands for decides whether an element fits in front of it. -/
theorem Separate.cons (separate : Separate rest)
    (range : q.rlStart ≤ q.rlEnd ∧ q.rlEnd < 2 ^ 32 - 1)
    (after : ∀ u ∈ units rest, q.rlEnd + 1 < u) : Separate (q :: rest) where
  ranges p member := by
    rcases List.mem_cons.mp member with rfl | member
    · exact range
    · exact separate.ranges p member
  apart := List.pairwise_cons.mpr
    ⟨fun p member => after _ (mem_units_start separate.ranges member), separate.apart⟩

theorem Loose.cons (loose : Loose rest) (range : q.rlStart ≤ q.rlEnd ∧ q.rlEnd < 2 ^ 32 - 1)
    (after : ∀ u ∈ units rest, q.rlEnd < u) : Loose (q :: rest) where
  ranges p member := by
    rcases List.mem_cons.mp member with rfl | member
    · exact range
    · exact loose.ranges p member
  apart := List.pairwise_cons.mpr
    ⟨fun p member => after _ (mem_units_start loose.ranges member), loose.apart⟩

theorem Separate.after (separate : Separate (q :: rest)) : ∀ u ∈ units rest, q.rlEnd + 1 < u := by
  rintro u ⟨p, member, low, high⟩
  have gap := (List.pairwise_cons.mp separate.apart).1 p member
  omega

theorem Loose.after (loose : Loose (q :: rest)) : ∀ u ∈ units rest, q.rlEnd < u := by
  rintro u ⟨p, member, low, high⟩
  have gap := (List.pairwise_cons.mp loose.apart).1 p member
  omega

end Units

section Free

variable {start stop : Nat} {list rest : List Rlist}

theorem rlistScan_spec (lp : Rlist) (loose : Loose (lp :: rest)) :
    Separate (rlistScan lp rest) ∧ units (rlistScan lp rest) = units (lp :: rest) := by
  induction rest generalizing lp with
  | nil =>
    have range := loose.ranges lp List.mem_cons_self
    refine ⟨⟨loose.ranges, List.pairwise_singleton _ _⟩, rfl⟩
  | cons lpn rest ih =>
    have range := loose.ranges lp List.mem_cons_self
    have range' := loose.tail.ranges lpn List.mem_cons_self
    have after := loose.after
    have after' := loose.tail.after
    have wide : unsigned (lp.rlEnd + 1) = lp.rlEnd + 1 := unsigned_eq (by lia)
    have order : lp.rlEnd < lpn.rlStart :=
      after _ (mem_units_start loose.tail.ranges List.mem_cons_self)
    unfold rlistScan
    rw [wide]
    split
    · rename_i adjacent
      have joined : Loose ({ lp with rlEnd := lpn.rlEnd } :: rest) :=
        loose.tail.tail.cons ⟨by dsimp only; lia, range'.2⟩ after'
      obtain ⟨separate, same⟩ := ih { lp with rlEnd := lpn.rlEnd } joined
      refine ⟨separate, same.trans ?_⟩
      ext u
      simp only [units_cons, Set.mem_union, Set.mem_Icc]
      have split : lp.rlStart ≤ u ∧ u ≤ lpn.rlEnd ↔
          (lp.rlStart ≤ u ∧ u ≤ lp.rlEnd) ∨ (lpn.rlStart ≤ u ∧ u ≤ lpn.rlEnd) := by lia
      rw [split, or_assoc]
    · rename_i gap
      obtain ⟨separate, same⟩ := ih lpn loose.tail
      refine ⟨separate.cons range ?_, ?_⟩
      · rw [same]
        rintro u member
        rw [units_cons] at member
        rcases member with here | there
        · have low := here.1
          lia
        · have beyond := after' u there
          lia
      · rw [units_cons, same, units_cons lp]

/-- What the loop of `rlist_free` leaves: the range is added; if it goes on to `scan`, it may
touch a neighbour. -/
theorem rlistPlace_spec (separate : Separate list) (range : start ≤ stop ∧ stop < 2 ^ 32 - 1)
    (disjoint : Disjoint (Set.Icc start stop) (units list)) :
    ∃ scan list', rlistPlace start stop list = .ok (scan, list') ∧
      units list' = units list ∪ Set.Icc start stop ∧
      (if scan then Loose list' ∧ list' ≠ [] else Separate list') := by
  induction list with
  | nil =>
    refine ⟨false, _, rfl, by simp, ?_⟩
    have alone : Separate [⟨start, stop⟩] := Separate.cons ⟨(by rintro _ ⟨⟩), .nil⟩ range (by simp)
    exact alone
  | cons q rest ih =>
    have range' := separate.ranges q List.mem_cons_self
    have after := separate.after
    have next : unsigned (stop + 1) = stop + 1 := unsigned_eq (by lia)
    have next' : unsigned (q.rlEnd + 1) = q.rlEnd + 1 := unsigned_eq (by lia)
    rw [units_cons, Set.disjoint_union_right] at disjoint
    have apart : stop < q.rlStart ∨ q.rlEnd < start := by
      by_contra overlap
      have member : max start q.rlStart ∈ Set.Icc start stop := ⟨le_max_left _ _, by lia⟩
      have member' : max start q.rlStart ∈ Set.Icc q.rlStart q.rlEnd := ⟨le_max_right _ _, by lia⟩
      exact Set.disjoint_left.mp disjoint.1 member member'
    unfold rlistPlace
    rw [next, next', if_neg (by lia), if_neg (by lia)]
    split
    · rename_i adjacent
      refine ⟨true, _, rfl, ?_, ?_, (by rintro ⟨⟩)⟩
      · ext u
        simp only [units_cons, Set.mem_union, Set.mem_Icc]
        have split : start ≤ u ∧ u ≤ q.rlEnd ↔
            (q.rlStart ≤ u ∧ u ≤ q.rlEnd) ∨ (start ≤ u ∧ u ≤ stop) := by lia
        rw [split, or_right_comm]
      · exact separate.loose.tail.cons ⟨by dsimp only; lia, range'.2⟩ separate.loose.after
    · rename_i apart'
      split
      · rename_i before
        refine ⟨false, _, rfl, ?_, ?_⟩
        · rw [units_cons, Set.union_comm]
        · have first : Separate (⟨start, stop⟩ :: q :: rest) := by
            apply separate.cons range
            intro u member
            rw [units_cons] at member
            rcases member with here | there
            · have low := here.1
              dsimp only
              lia
            · have beyond := after u there
              dsimp only
              lia
          exact first
      · rename_i behind
        split
        · rename_i adjacent
          refine ⟨true, _, rfl, ?_, ?_, (by rintro ⟨⟩)⟩
          · ext u
            simp only [units_cons, Set.mem_union, Set.mem_Icc]
            have split : q.rlStart ≤ u ∧ u ≤ stop ↔
                (q.rlStart ≤ u ∧ u ≤ q.rlEnd) ∨ (start ≤ u ∧ u ≤ stop) := by lia
            rw [split, or_right_comm]
          · apply separate.loose.tail.cons ⟨by dsimp only; lia, range.2⟩
            intro u member
            have beyond := after u member
            dsimp only
            -- the range ends before the next element, which it does not meet
            by_contra inside
            exact Set.disjoint_left.mp disjoint.2 ⟨by lia, by lia⟩ member
        · rename_i gap
          rw [if_pos (by lia)]
          obtain ⟨scan, list', placed, same, kept⟩ := ih separate.tail disjoint.2
          rw [placed]
          have after' : ∀ u ∈ units list', q.rlEnd + 1 < u := by
            intro u member
            rw [same] at member
            rcases member with here | there
            · exact after u here
            · have low := there.1
              lia
          refine ⟨scan, _, rfl, ?_, ?_⟩
          · rw [units_cons, units_cons, same, Set.union_assoc]
          · cases scan with
            | true =>
              refine ⟨kept.1.cons range' fun u member => ?_, (by rintro ⟨⟩)⟩
              have beyond := after' u member
              lia
            | false => exact Separate.cons kept range' after'

theorem rlistFree_spec (separate : Separate list) (range : start ≤ stop ∧ stop < 2 ^ 32 - 1)
    (disjoint : Disjoint (Set.Icc start stop) (units list)) :
    ∃ list', rlistFree list start stop = .ok list' ∧ Separate list' ∧
      units list' = units list ∪ Set.Icc start stop := by
  obtain ⟨scan, list', placed, same, kept⟩ := rlistPlace_spec separate range disjoint
  unfold rlistFree
  rw [placed]
  cases scan with
  | false => exact ⟨list', rfl, kept, same⟩
  | true =>
    obtain ⟨loose, some⟩ := kept
    cases list' with
    | nil => exact absurd rfl some
    | cons head rest =>
      obtain ⟨separate, same'⟩ := rlistScan_spec head loose
      exact ⟨_, rfl, separate, same'.trans same⟩

end Free

section Alloc

variable {size : Nat} {list : List Rlist}

/-- A run of units in `F` that cannot be made longer. -/
structure MaximalRun (F : Set Nat) (a b : Nat) : Prop where
  order : a ≤ b
  free : Set.Icc a b ⊆ F
  above : b + 1 ∉ F
  below : a ≠ 0 → a - 1 ∉ F

theorem Separate.either (separate : Separate list) :
    ∀ p ∈ list, ∀ q ∈ list, p = q ∨ p.rlEnd + 1 < q.rlStart ∨ q.rlEnd + 1 < p.rlStart := by
  obtain ⟨-, apart⟩ := separate
  induction list with
  | nil => nofun
  | cons head rest ih =>
    obtain ⟨first, apart⟩ := List.pairwise_cons.mp apart
    intro p left q right
    rcases List.mem_cons.mp left with rfl | below
    · rcases List.mem_cons.mp right with rfl | below'
      · exact .inl rfl
      · exact .inr (.inl (first q below'))
    · rcases List.mem_cons.mp right with rfl | below'
      · exact .inr (.inr (first p below))
      · exact ih apart p below q below'

theorem Separate.maximal (separate : Separate list) {q : Rlist} (member : q ∈ list) :
    MaximalRun (units list) q.rlStart q.rlEnd := by
  have range := separate.ranges q member
  refine ⟨range.1, fun u inside => ⟨q, member, inside⟩, ?_, ?_⟩
  · rintro ⟨p, member', low, high⟩
    rcases separate.either p member' q member with rfl | before | behind
    · lia
    · lia
    · lia
  · rintro positive ⟨p, member', low, high⟩
    rcases separate.either p member' q member with rfl | before | behind
    · lia
    · lia
    · lia

theorem MaximalRun.within (separate : Separate list) {a b : Nat}
    (run : MaximalRun (units list) a b) :
    ∃ q ∈ list, q.rlStart ≤ a ∧ b ≤ q.rlEnd := by
  obtain ⟨q, member, low, high⟩ := run.free ⟨le_refl a, run.order⟩
  refine ⟨q, member, low, ?_⟩
  by_contra beyond
  exact (separate.maximal member).above (run.free ⟨by omega, by omega⟩)

/-- What `rlist_alloc` finds is the front of the first element that is long enough. -/
theorem rlistAlloc_spec (separate : Separate list) (positive : 1 ≤ size) :
    ((rlistAlloc size list).1 = none ∧ (rlistAlloc size list).2 = list ∧
      ∀ q ∈ list, q.rlEnd - q.rlStart + 1 < size) ∨
    ∃ q ∈ list, (rlistAlloc size list).1 = some q.rlStart ∧ q.rlStart + size ≤ q.rlEnd + 1 ∧
      Separate (rlistAlloc size list).2 ∧
      units (rlistAlloc size list).2 = units list \ Set.Icc q.rlStart (q.rlStart + size - 1) := by
  induction list with
  | nil => exact .inl ⟨rfl, rfl, (by rintro _ ⟨⟩)⟩
  | cons q rest ih =>
    have range := separate.ranges q List.mem_cons_self
    have after := separate.after
    have length : unsigned (q.rlEnd + 2 ^ 32 - q.rlStart + 1) = q.rlEnd - q.rlStart + 1 := by
      unfold unsigned
      lia
    simp only [rlistAlloc, length]
    split
    · rename_i fits
      right
      have moved : unsigned (q.rlStart + size) = q.rlStart + size := unsigned_eq (by lia)
      refine ⟨q, List.mem_cons_self, rfl, by lia, ?_⟩
      dsimp only
      rw [moved]
      split
      · rename_i eaten
        refine ⟨separate.tail, ?_⟩
        ext u
        simp only [units_cons, Set.mem_sdiff, Set.mem_union, Set.mem_Icc]
        constructor
        · intro member
          have beyond := after u member
          exact ⟨.inr member, by lia⟩
        · rintro ⟨here | there, outside⟩
          · lia
          · exact there
      · rename_i left
        refine ⟨separate.tail.cons ⟨by dsimp only; lia, range.2⟩ after, ?_⟩
        ext u
        simp only [units_cons, Set.mem_sdiff, Set.mem_union, Set.mem_Icc]
        constructor
        · rintro (here | there)
          · exact ⟨.inl (by lia), by lia⟩
          · have beyond := after u there
            exact ⟨.inr there, by lia⟩
        · rintro ⟨here | there, outside⟩
          · exact .inl (by lia)
          · exact .inr there
    · rename_i short
      rcases ih separate.tail with ⟨none, same, small'⟩ | ⟨p, member, found, fits, separate', same⟩
      · left
        refine ⟨none, by rw [same], fun p member => ?_⟩
        rcases List.mem_cons.mp member with rfl | member
        · lia
        · exact small' p member
      · right
        have gap := after _ (mem_units_start separate.tail.ranges member)
        refine ⟨p, List.mem_cons_of_mem q member, found, fits, ?_, ?_⟩
        · apply separate'.cons range
          intro u inside
          rw [same] at inside
          exact after u inside.1
        · rw [units_cons, units_cons, same, Set.union_sdiff_distrib]
          congr 1
          symm
          apply Disjoint.sdiff_eq_left
          rw [Set.disjoint_left]
          rintro u ⟨low, high⟩ ⟨low', high'⟩
          lia

end Alloc

section Runs

inductive RlistEvent where
  | free (start stop : Nat)
  | alloc (size : Nat)

/-- A call of `rlist_free` of a range that is not free, or of `rlist_alloc`. -/
def RlistStep (list : List Rlist) : RlistEvent → List Rlist → Prop
  | .free start stop, list' =>
    (start ≤ stop ∧ stop < 2 ^ 32 - 1) ∧ Disjoint (Set.Icc start stop) (units list) ∧
      rlistFree list start stop = .ok list'
  | .alloc size, list' => (1 ≤ size ∧ size < 2 ^ 32) ∧ (rlistAlloc size list).2 = list'

theorem RlistStep.separate {list list' : List Rlist} {event : RlistEvent}
    (step : RlistStep list event list') (separate : Separate list) : Separate list' := by
  cases event with
  | free start stop =>
    obtain ⟨range, disjoint, done⟩ := step
    obtain ⟨list'', done', separate', -⟩ := rlistFree_spec separate range disjoint
    rw [done] at done'
    cases done'
    exact separate'
  | alloc size =>
    obtain ⟨⟨positive, small⟩, rfl⟩ := step
    rcases rlistAlloc_spec separate positive with ⟨-, same, -⟩ | ⟨q, -, -, -, separate', -⟩
    · rwa [same]
    · exact separate'

theorem run_separate {list list' : List Rlist} {events : List RlistEvent}
    (run : Run RlistStep list events list') (separate : Separate list) : Separate list' := by
  induction run with
  | nil => exact separate
  | cons step _ ih => exact ih (step.separate separate)

/-- Resource lists refine sets of free units. -/
theorem rlist_refines {list : List Rlist} {events : List RlistEvent}
    (run : Run RlistStep [] events list) :
    Separate list ∧
    (∀ start stop, start ≤ stop → stop < 2 ^ 32 - 1 → Disjoint (Set.Icc start stop) (units list) →
      ∃ list', rlistFree list start stop = .ok list' ∧
        units list' = units list ∪ Set.Icc start stop) ∧
    (∀ size, 1 ≤ size → size < 2 ^ 32 →
      ((rlistAlloc size list).1.isSome ↔ ∃ a b, MaximalRun (units list) a b ∧ size ≤ b - a + 1) ∧
      (∀ loc, (rlistAlloc size list).1 = some loc → Set.Icc loc (loc + size - 1) ⊆ units list ∧
        units (rlistAlloc size list).2 = units list \ Set.Icc loc (loc + size - 1)) ∧
      ((rlistAlloc size list).1 = none → (rlistAlloc size list).2 = list)) := by
  have separate := run_separate run ⟨(by rintro _ ⟨⟩), .nil⟩
  refine ⟨separate, ?_, ?_⟩
  · intro start stop order small disjoint
    obtain ⟨list', done, -, same⟩ := rlistFree_spec separate ⟨order, small⟩ disjoint
    exact ⟨list', done, same⟩
  · intro size positive small
    rcases rlistAlloc_spec separate positive with ⟨none, same, short⟩ | ⟨q, member, found, fits, -,
      left⟩
    · rw [none]
      refine ⟨⟨(by rintro ⟨⟩ _), ?_⟩, (by rintro _ ⟨⟩), fun _ => same⟩
      rintro ⟨a, b, run, long⟩
      obtain ⟨q, member, low, high⟩ := run.within separate
      have short := short q member
      omega
    · have range := separate.ranges q member
      have free : Set.Icc q.rlStart (q.rlStart + size - 1) ⊆ units list :=
        fun u inside => ⟨q, member, inside.1, by have high := inside.2; omega⟩
      rw [found]
      refine ⟨⟨fun _ => ⟨_, _, separate.maximal member, by omega⟩, fun _ => rfl⟩, ?_,
        (by rintro ⟨⟩)⟩
      intro loc same
      cases same
      exact ⟨free, left⟩

/-- Two ranges with a gap, the range that fills it, and an allocation out of the result. -/
theorem rlist_refines_filled :
    ∃ list, Run RlistStep [] [.free 10 19, .free 30 39, .free 20 29, .alloc 5] list ∧
    Separate list ∧ (rlistAlloc 25 list).1.isSome := by
  have first : rlistFree [] 10 19 = .ok [⟨10, 19⟩] := rfl
  have second : rlistFree [⟨10, 19⟩] 30 39 = .ok [⟨10, 19⟩, ⟨30, 39⟩] := by decide
  have third : rlistFree [⟨10, 19⟩, ⟨30, 39⟩] 20 29 = .ok [⟨10, 39⟩] := by decide
  have run : Run RlistStep [] [.free 10 19, .free 30 39, .free 20 29, .alloc 5] [⟨15, 39⟩] := by
    refine .cons ⟨by decide, by simp, first⟩ (.cons ⟨by decide, ?_, second⟩
      (.cons ⟨by decide, ?_, third⟩ (.cons ⟨by decide, by decide⟩ (.nil _))))
    · rw [Set.disjoint_left]
      rintro u ⟨low, high⟩ member
      simp only [units_cons, units_nil, Set.mem_union, Set.mem_Icc, Set.mem_empty_iff_false,
        or_false] at member
      omega
    · rw [Set.disjoint_left]
      rintro u ⟨low, high⟩ member
      simp only [units_cons, units_nil, Set.mem_union, Set.mem_Icc, Set.mem_empty_iff_false,
        or_false] at member
      omega
  have refines := rlist_refines run
  refine ⟨_, run, refines.1, ((refines.2.2 25 (by decide) (by decide)).1).mpr ⟨15, 39,
    ?_, by decide⟩⟩
  exact refines.1.maximal List.mem_cons_self

end Runs

end FreeBsd.Kern
