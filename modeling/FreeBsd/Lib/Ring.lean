import Mathlib.Data.List.Basic
import Mathlib.Logic.Function.Basic
import Mathlib.Tactic.Common

/-! Circular lists: nodes of any type, joined by a `next` function, with a pointer to
the last of them; and lists that are kept in the order of use. -/
namespace FreeBsd.Lib

variable {α : Type} [DecidableEq α]

/-- Following `next` from `a` leads through `xs` to `b`. -/
def Linked (next : α → α) : α → List α → α → Prop
  | a, [], b => next a = b
  | a, x :: xs, b => next a = x ∧ Linked next x xs b

/-- The nodes are `last` and, from the one after it on, `others`. -/
structure Ring (next : α → α) (last : α) (others : List α) : Prop where
  linked : Linked next last others last
  nodup : (last :: others).Nodup

variable {f g : α → α} {a b last p c : α} {xs ys : List α}

omit [DecidableEq α] in
theorem linked_append {y : α} :
    Linked f a (xs ++ y :: ys) b ↔ Linked f a xs y ∧ Linked f y ys b := by
  induction xs generalizing a with
  | nil => rfl
  | cons x xs ih => simp only [List.cons_append, Linked, ih, and_assoc]

omit [DecidableEq α] in
/-- The links from the nodes after the first are all that matters but the first one. -/
theorem Linked.transfer (linked : Linked f a xs b) {d : α} (start : g d = f a)
    (rest : ∀ x ∈ xs, g x = f x) : Linked g d xs b := by
  induction xs generalizing a d with
  | nil => exact start.trans linked
  | cons x xs ih =>
    obtain ⟨first, later⟩ := linked
    refine ⟨start.trans first, ih later (rest x List.mem_cons_self) ?_⟩
    exact fun y member => rest y (List.mem_cons_of_mem _ member)

omit [DecidableEq α] in
/-- Moving the pointer to the node before the last makes the last one the first. -/
theorem Ring.rotate (ring : Ring f last (xs ++ [p])) : Ring f p (last :: xs) := by
  obtain ⟨front, back⟩ := linked_append.mp ring.linked
  refine ⟨⟨back, front⟩, ?_⟩
  have perm : (last :: (xs ++ [p])).Perm (p :: last :: xs) := by
    rw [← List.cons_append]
    exact List.perm_append_singleton p (last :: xs)
  exact perm.nodup_iff.mp ring.nodup

/-- The three assignments that unlink `c` and put it behind the last node. -/
def relink (f : α → α) (last p c : α) : α → α :=
  Function.update (Function.update (Function.update f p (f c)) c
    (Function.update f p (f c) last)) last c

theorem Ring.relink (ring : Ring f last (xs ++ p :: c :: ys)) :
    Ring (relink f last p c) last (c :: (xs ++ p :: ys)) := by
  obtain ⟨front, _, back⟩ := linked_append.mp ring.linked
  have distinct := ring.nodup
  rw [List.nodup_cons, List.nodup_append] at distinct
  simp only [List.mem_append, List.mem_cons, not_or, List.nodup_cons] at distinct
  obtain ⟨⟨lastX, lastP, lastC, lastY⟩, _, ⟨⟨pc, pY⟩, cY, _⟩, apart⟩ := distinct
  have atLast : Lib.relink f last p c last = c := Function.update_self ..
  have atC : Lib.relink f last p c c = f last := by
    rw [Lib.relink, Function.update_of_ne (Ne.symm lastC), Function.update_self,
      Function.update_of_ne lastP]
  have atP : Lib.relink f last p c p = f c := by
    rw [Lib.relink, Function.update_of_ne (Ne.symm lastP), Function.update_of_ne pc,
      Function.update_self]
  have elsewhere : ∀ x, x ≠ last → x ≠ c → x ≠ p → Lib.relink f last p c x = f x := by
    intro x notLast notC notP
    rw [Lib.relink, Function.update_of_ne notLast, Function.update_of_ne notC,
      Function.update_of_ne notP]
  refine ⟨⟨atLast, linked_append.mpr ⟨?_, ?_⟩⟩, ?_⟩
  · refine front.transfer atC fun x member => elsewhere x ?_ ?_ ?_
    · exact fun same => lastX (same ▸ member)
    · exact apart x member c (.inr (.inl rfl))
    · exact apart x member p (.inl rfl)
  · refine back.transfer atP fun y member => elsewhere y ?_ ?_ ?_
    · exact fun same => lastY (same ▸ member)
    · exact fun same => cY (same ▸ member)
    · exact fun same => pY (same ▸ member)
  · have perm : (last :: (xs ++ p :: c :: ys)).Perm (last :: c :: (xs ++ p :: ys)) := by
      refine List.Perm.cons last ?_
      have first : (xs ++ p :: c :: ys).Perm (xs ++ c :: p :: ys) :=
        List.Perm.append_left xs (List.Perm.swap c p ys)
      exact first.trans List.perm_middle
    exact perm.nodup_iff.mp ring.nodup

inductive Walk (α : Type) where
  | found (before here : α)
  | missed (before : α)

/-- Look at the nodes behind `before`, up to the last one, for one that `hit` accepts. -/
def walk (next : α → α) (hit : α → Bool) (last : α) : Nat → α → Option (Walk α)
  | 0, _ => none
  | fuel + 1, before =>
    if hit (next before) = true then some (.found before (next before))
    else if next before = last then some (.missed before)
    else walk next hit last fuel (next before)

theorem walk_spec (hit : α → Bool) (linked : Linked f a ys last) (absent : last ∉ ys)
    (start : hit a = false) {fuel : Nat} (enough : ys.length < fuel) :
    (∃ xs p c zs, walk f hit last fuel a = some (.found p c) ∧ hit c = true ∧
      (∀ x ∈ xs ++ [p], hit x = false) ∧ a :: (ys ++ [last]) = xs ++ p :: c :: zs) ∨
    (∃ xs p, walk f hit last fuel a = some (.missed p) ∧ (∀ x ∈ xs ++ [p], hit x = false) ∧
      hit last = false ∧ a :: ys = xs ++ [p]) := by
  induction fuel generalizing a ys with
  | zero => omega
  | succ fuel ih =>
    cases ys with
    | nil =>
      have next : f a = last := linked
      rw [walk, next]
      cases here : hit last with
      | true =>
        rw [if_pos rfl]
        exact .inl ⟨[], a, last, [], rfl, here, by simpa using start, rfl⟩
      | false =>
        rw [if_neg Bool.false_ne_true, if_pos rfl]
        exact .inr ⟨[], a, rfl, by simpa using start, rfl, rfl⟩
    | cons y ys =>
      obtain ⟨next, later⟩ := linked
      rw [walk, next]
      cases here : hit y with
      | true =>
        rw [if_pos rfl]
        exact .inl ⟨[], a, y, ys ++ [last], rfl, here, by simpa using start, rfl⟩
      | false =>
        have other : y ≠ last := fun same => absent (same ▸ List.mem_cons_self)
        rw [if_neg Bool.false_ne_true, if_neg other]
        have rest := ih later (fun member => absent (List.mem_cons_of_mem _ member)) here
          (by simp only [List.length_cons] at enough; omega)
        rcases rest with ⟨xs, p, c, zs, run, found, before, split⟩ | ⟨xs, p, run, before, none,
          split⟩
        · refine .inl ⟨a :: xs, p, c, zs, run, found, ?_, by rw [List.cons_append, split]; rfl⟩
          exact List.forall_mem_cons.mpr ⟨start, before⟩
        · refine .inr ⟨a :: xs, p, run, ?_, none, by rw [split]; rfl⟩
          exact List.forall_mem_cons.mpr ⟨start, before⟩

section Recent

variable {used : List α}

omit [DecidableEq α]

/-- Every other one has been used since each use of `c`. The latest use comes first. -/
def LeastRecent (used : List α) (c : α) : Prop :=
  ∀ newer older, used = newer ++ c :: older → ∀ i, i ≠ c → i ∈ newer

def Recent (used order : List α) : Prop :=
  order.Pairwise fun i j => ∀ newer older, used = newer ++ j :: older → i ∈ newer

theorem Recent.use (recent : Recent used (xs ++ c :: ys)) (nodup : (xs ++ c :: ys).Nodup) :
    Recent (c :: used) (c :: (xs ++ ys)) := by
  have others := List.perm_middle.nodup_iff.mp nodup
  rw [List.nodup_cons] at others
  have kept : Recent used (xs ++ ys) :=
    List.Pairwise.sublist (List.sublist_cons_self c ys |>.append_left xs) recent
  have step {i j : α} {newer older : List α} (other : j ≠ c) (split : c :: used =
      newer ++ j :: older) :
      ∃ rest, newer = c :: rest ∧ used = rest ++ j :: older := by
    cases newer with
    | nil => exact absurd (List.cons.inj split).1.symm other
    | cons d rest =>
      obtain ⟨rfl, later⟩ := List.cons.inj split
      exact ⟨rest, rfl, later⟩
  refine List.pairwise_cons.mpr ⟨fun j member newer older split => ?_,
    List.Pairwise.imp_of_mem ?_ kept⟩
  · obtain ⟨rest, rfl, _⟩ := @step j j _ _ (fun same => others.1 (same ▸ member)) split
    exact List.mem_cons_self
  · intro i j _ member since newer older split
    obtain ⟨rest, rfl, later⟩ := @step i j _ _ (fun same => others.1 (same ▸ member)) split
    exact List.mem_cons_of_mem _ (since rest older later)

theorem Recent.oldest (recent : Recent used (xs ++ [c])) (every : ∀ i, i ∈ xs ++ [c]) :
    LeastRecent used c := by
  intro newer older split i other
  have member : i ∈ xs := by simpa [other] using every i
  exact (List.pairwise_append.mp recent).2.2 i member c List.mem_cons_self newer older split

end Recent

end FreeBsd.Lib
