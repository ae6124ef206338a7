import Mathlib.Tactic.Common
import Mathlib.Data.List.TakeWhile
import Mathlib.Data.List.TakeDrop

/-! Queues of segments in order, without overlap, over any type with an offset, a length
and a way to cut off a front. A new segment gives up what the one before it has, and takes
from those behind it what it has itself. -/
namespace FreeBsd.Lib

variable {α : Type} (off len : α → Int) (cut : Int → α → α)

namespace Segments

def trimFront (prev : Option α) (x : α) : Option α :=
  match prev with
  | none => some x
  | some prev =>
    let i := off prev + len prev - off x
    if i > 0 then
      if i ≥ len x then none else some (cut i x)
    else some x

def trimBack (x : α) : List α → List α
  | [] => []
  | q :: rest =>
    if off x + len x > off q then
      let i := off x + len x - off q
      if i < len q then cut i q :: rest else trimBack x rest
    else q :: rest

def insert (x : α) (queue : List α) : Option (List α) :=
  let front := (queue.span fun q => ¬ off q > off x).1
  let back := (queue.span fun q => ¬ off q > off x).2
  (trimFront off len cut front.getLast? x).map fun x => front ++ x :: trimBack off len cut x back

def Ordered (queue : List α) : Prop := queue.Pairwise fun a b => off a + len a ≤ off b

/-- `f` is `a`, or the part of `a` behind the end of `b`. -/
def Part (f a : α) : Prop :=
  f = a ∨ ∃ i, 0 < i ∧ i < len a ∧ f = cut i a ∧ off f = off a + i ∧ len f = len a - i

/-- Where the front of a segment is cut off, at the end of another one, the rest has the
offset and the length it should have. -/
def Exact (segments : List α) : Prop :=
  ∀ a ∈ segments, ∀ b ∈ segments, off b ≤ off a → off a < off b + len b →
    off b + len b < off a + len a →
    off (cut (off b + len b - off a) a) = off b + len b ∧
      len (cut (off b + len b - off a) a) = off a + len a - (off b + len b)

variable {off len cut}

theorem Part.ends {f a : α} (part : Part off len cut f a) : off f + len f = off a + len a := by
  rcases part with rfl | ⟨i, _, _, _, start, short⟩
  · rfl
  · omega

theorem Part.start_le {f a : α} (part : Part off len cut f a) : off a ≤ off f := by
  rcases part with rfl | ⟨i, positive, _, _, start, _⟩
  · exact Int.le_refl _
  · omega

theorem Part.len_nonneg {f a : α} (part : Part off len cut f a) (nonneg : 0 ≤ len a) :
    0 ≤ len f := by
  rcases part with rfl | ⟨i, _, less, _, _, short⟩
  · exact nonneg
  · omega

theorem trimFront_part {prev : Option α} {x x' : α} {segments : List α}
    (exact : Exact off len cut (x :: segments)) (member : ∀ p, prev = some p → p ∈ segments)
    (before : ∀ p, prev = some p → off p ≤ off x)
    (trimmed : trimFront off len cut prev x = some x') :
    Part off len cut x' x ∧ ∀ p, prev = some p → off p + len p ≤ off x' := by
  cases prev with
  | none =>
    cases trimmed
    exact ⟨.inl rfl, fun p no => by contradiction⟩
  | some p =>
    have inside := member p rfl
    have start := before p rfl
    simp only [trimFront] at trimmed
    by_cases overlap : off p + len p - off x > 0
    · rw [if_pos overlap, Option.ite_none_left_eq_some] at trimmed
      obtain ⟨kept, same⟩ := trimmed
      cases same
      obtain ⟨begins, lasts⟩ := exact x List.mem_cons_self p (List.mem_cons_of_mem _ inside) start
        (by lia) (by lia)
      refine ⟨.inr ⟨_, overlap, by lia, rfl, by lia, by lia⟩, fun q same => ?_⟩
      cases same
      lia
    · rw [if_neg overlap] at trimmed
      cases trimmed
      refine ⟨.inl rfl, fun q same => ?_⟩
      cases same
      lia

theorem trimBack_part {x y : α} {back segments : List α} (ends : off x + len x = off y + len y)
    (exact : Exact off len cut (y :: segments)) (inside : ∀ q ∈ back, q ∈ segments)
    (after : ∀ q ∈ back, off y < off q) (nonneg : ∀ q ∈ back, 0 ≤ len q)
    (ordered : Ordered off len back) :
    Ordered off len (trimBack off len cut x back) ∧
      ∀ f ∈ trimBack off len cut x back, off x + len x ≤ off f ∧
        ∃ q ∈ back, Part off len cut f q := by
  induction back with
  | nil =>
    refine ⟨List.Pairwise.nil, fun f member => ?_⟩
    cases member
  | cons q rest ih =>
    obtain ⟨first, later⟩ := List.pairwise_cons.mp ordered
    have behind : ∀ f ∈ rest, off q ≤ off f := by
      intro f member
      have := first f member
      have := nonneg q List.mem_cons_self
      lia
    rw [trimBack]
    by_cases overlap : off x + len x > off q
    · rw [if_pos overlap]
      by_cases partly : off x + len x - off q < len q
      · obtain ⟨begins, lasts⟩ := exact q (List.mem_cons_of_mem _ (inside q List.mem_cons_self)) y
          List.mem_cons_self (Int.le_of_lt (after q List.mem_cons_self)) (by lia) (by lia)
        rw [← ends] at begins lasts
        simp only [if_pos partly]
        refine ⟨List.pairwise_cons.mpr ⟨fun f member => ?_, later⟩, fun f member => ?_⟩
        · have := first f member
          lia
        · rcases List.mem_cons.mp member with rfl | member
          · exact ⟨Int.le_of_eq begins.symm, q, List.mem_cons_self,
              .inr ⟨_, by lia, partly, rfl, by lia, by lia⟩⟩
          · have := first f member
            exact ⟨by lia, f, List.mem_cons_of_mem _ member, .inl rfl⟩
      · simp only [if_neg partly]
        obtain ⟨ordered, parts⟩ := ih (fun q member => inside q (List.mem_cons_of_mem _ member))
          (fun q member => after q (List.mem_cons_of_mem _ member))
          (fun q member => nonneg q (List.mem_cons_of_mem _ member)) later
        refine ⟨ordered, fun f member => ?_⟩
        obtain ⟨start, a, origin, part⟩ := parts f member
        exact ⟨start, a, List.mem_cons_of_mem _ origin, part⟩
    · rw [if_neg overlap]
      refine ⟨ordered, fun f member => ⟨?_, f, member, .inl rfl⟩⟩
      rcases List.mem_cons.mp member with rfl | member
      · lia
      · have := behind f member
        lia

theorem span_congr {p q : α → Bool} {queue : List α} (same : ∀ a ∈ queue, p a = q a) :
    queue.span p = queue.span q := by
  rw [List.span_eq_takeWhile_dropWhile, List.span_eq_takeWhile_dropWhile]
  induction queue with
  | nil => rfl
  | cons a rest ih =>
    have later := Prod.mk.injEq .. ▸ ih fun b member => same b (List.mem_cons_of_mem _ member)
    have first := same a List.mem_cons_self
    cases here : q a with
    | true =>
      rw [List.takeWhile_cons_of_pos (first.trans here), List.takeWhile_cons_of_pos here,
        List.dropWhile_cons_of_pos (first.trans here), List.dropWhile_cons_of_pos here, later.1,
        later.2]
    | false =>
      have stop : ¬ q a = true := by simp [here]
      have stop' : ¬ p a = true := by simp [first, here]
      rw [List.takeWhile_cons_of_neg stop', List.takeWhile_cons_of_neg stop,
        List.dropWhile_cons_of_neg stop', List.dropWhile_cons_of_neg stop]

theorem span_place (x : α) {queue : List α} (ordered : Ordered off len queue)
    (nonneg : ∀ q ∈ queue, 0 ≤ len q) :
    ∃ front back, queue.span (fun q => decide ¬ off q > off x) = (front, back) ∧
      queue = front ++ back ∧ (∀ q ∈ front, off q ≤ off x) ∧ ∀ q ∈ back, off x < off q := by
  refine ⟨_, _, List.span_eq_takeWhile_dropWhile _ _, List.takeWhile_append_dropWhile.symm, ?_, ?_⟩
  · intro q member
    have := List.mem_takeWhile_imp member
    simpa using this
  · induction queue with
    | nil =>
      intro q member
      cases member
    | cons a rest ih =>
      obtain ⟨first, later⟩ := List.pairwise_cons.mp ordered
      by_cases here : off a > off x
      · intro q member
        rw [List.dropWhile_cons_of_neg (by simpa using here)] at member
        rcases List.mem_cons.mp member with rfl | member
        · exact here
        · have := first q member
          have := nonneg a List.mem_cons_self
          omega
      · rw [List.dropWhile_cons_of_pos (by simpa using here)]
        exact ih later fun q member => nonneg q (List.mem_cons_of_mem _ member)

/-- Insertion keeps the order, and adds nothing but parts of what there was. -/
theorem insert_ordered {x : α} {queue queue' : List α} (ordered : Ordered off len queue)
    (nonneg : ∀ q ∈ x :: queue, 0 ≤ len q) (exact : Exact off len cut (x :: queue))
    (inserted : insert off len cut x queue = some queue') :
    Ordered off len queue' ∧ ∀ f ∈ queue', ∃ a ∈ x :: queue, Part off len cut f a := by
  obtain ⟨front, back, place, split, before, after⟩ :=
    span_place x ordered fun q member => nonneg q (List.mem_cons_of_mem _ member)
  have sub : ∀ q, q ∈ front ∨ q ∈ back → q ∈ queue := by
    intro q member
    rw [split]
    exact List.mem_append.mpr member
  rw [split] at ordered
  obtain ⟨frontOrdered, backOrdered, across⟩ := List.pairwise_append.mp ordered
  simp only [insert, place, Option.map_eq_some_iff] at inserted
  obtain ⟨x', trimmed, rfl⟩ := inserted
  obtain ⟨part, behind⟩ := trimFront_part exact
    (fun p last => sub p (.inl (List.mem_of_getLast? last)))
    (fun p last => before p (List.mem_of_getLast? last)) trimmed
  obtain ⟨rest, parts⟩ := trimBack_part part.ends exact (fun q member => sub q (.inr member)) after
    (fun q member => nonneg q (List.mem_cons_of_mem _ (sub q (.inr member)))) backOrdered
  have positive := part.len_nonneg (nonneg x List.mem_cons_self)
  -- all of the front ends before the predecessor does
  have front_le : ∀ q ∈ front, off q + len q ≤ off x' := by
    intro q member
    obtain ⟨init, last, cons⟩ := List.eq_nil_or_concat front |>.resolve_left
      (List.ne_nil_of_mem member)
    rw [List.concat_eq_append] at cons
    have last_le := behind last (by rw [cons]; simp)
    rw [cons] at member frontOrdered
    rcases List.mem_append.mp member with inner | only
    · have := (List.pairwise_append.mp frontOrdered).2.2 q inner last (by simp)
      have := nonneg last (List.mem_cons_of_mem _ (sub last (.inl (by rw [cons]; simp))))
      lia
    · rw [List.mem_singleton.mp only]
      exact last_le
  refine ⟨List.pairwise_append.mpr ⟨frontOrdered, List.pairwise_cons.mpr
    ⟨fun f member => (parts f member).1, rest⟩, fun q member f late => ?_⟩, fun f member => ?_⟩
  · have left := front_le q member
    rcases List.mem_cons.mp late with rfl | late
    · exact left
    · have := (parts f late).1
      lia
  · rcases List.mem_append.mp member with early | late
    · exact ⟨f, List.mem_cons_of_mem _ (sub f (.inl early)), .inl rfl⟩
    · rcases List.mem_cons.mp late with rfl | late
      · exact ⟨x, List.mem_cons_self, part⟩
      · obtain ⟨_, a, origin, part⟩ := parts f late
        exact ⟨a, List.mem_cons_of_mem _ (sub a (.inr origin)), part⟩

end Segments

end FreeBsd.Lib
