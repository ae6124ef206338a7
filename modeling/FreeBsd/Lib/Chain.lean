import Mathlib.Data.List.Chain
import Mathlib.Data.List.Nodup
import Mathlib.Logic.Function.Basic
import Mathlib.Tactic.Common

/-! Doubly linked lists: nodes of any type joined by `next` and `prev`, in a circle through a
head that is no element. -/
namespace FreeBsd.Lib

variable {α : Type}

/-- The elements from the head on are `xs`, in both directions. -/
structure Chain (next prev : α → α) (head : α) (xs : List α) : Prop where
  linked : (head :: (xs ++ [head])).IsChain fun a b => next a = b ∧ prev b = a
  nodup : (head :: xs).Nodup

variable {next prev : α → α} {head a n : α} {xs ys zs : List α}

theorem exists_last (a : α) (ys : List α) : ∃ front, a :: ys = front ++ [ys.getLastD a] := by
  cases ys using List.reverseRecOn with
  | nil => exact ⟨[], rfl⟩
  | append_singleton ys y => exact ⟨a :: ys, by simp⟩

theorem exists_first (zs : List α) (a : α) : ∃ back, zs ++ [a] = zs.headD a :: back := by
  cases zs with
  | nil => exact ⟨[], rfl⟩
  | cons z zs => exact ⟨zs ++ [a], rfl⟩

/-- Where a list is cut, the last node before and the first node behind point at each other. -/
theorem Chain.joined (chain : Chain next prev head (ys ++ zs)) :
    next (ys.getLastD head) = zs.headD head ∧ prev (zs.headD head) = ys.getLastD head := by
  have linked := chain.linked
  obtain ⟨front, before⟩ := exists_last head ys
  obtain ⟨back, behind⟩ := exists_first zs head
  rw [List.append_assoc, ← List.cons_append, before, behind, List.append_assoc,
    List.singleton_append] at linked
  exact (List.isChain_append_cons_cons.mp linked).2.1

theorem Chain.next_of (chain : Chain next prev head (ys ++ a :: zs)) : next a = zs.headD head := by
  have chain : Chain next prev head ((ys ++ [a]) ++ zs) := by simpa using chain
  simpa using chain.joined.1

theorem Chain.prev_of (chain : Chain next prev head (ys ++ a :: zs)) : prev a = ys.getLastD head :=
  chain.joined.2

theorem Chain.next_head (chain : Chain next prev head xs) : next head = xs.headD head :=
  (show Chain next prev head ([] ++ xs) from chain).joined.1

theorem isChain_transfer {R S : α → α → Prop} {l : List α} (p : l.IsChain R)
    (same : ∀ a ∈ l.dropLast, ∀ b ∈ l.tail, R a b → S a b) : l.IsChain S := by
  induction p with
  | nil => exact .nil
  | singleton a => exact .singleton a
  | cons_cons first rest ih =>
    refine .cons_cons (same _ (by simp) _ (by simp) first) (ih fun a before b behind => ?_)
    exact same a (by simp [before]) b (List.mem_of_mem_tail behind)

theorem getLastD_mem (a : α) (ys : List α) : ys.getLastD a ∈ a :: ys := by
  obtain ⟨front, before⟩ := exists_last a ys
  rw [before]
  simp

theorem headD_mem (zs : List α) (a : α) : zs.headD a ∈ zs ++ [a] := by
  obtain ⟨back, behind⟩ := exists_first zs a
  rw [behind]
  simp

/-- The two parts of a list keep their links when only the link across the cut changes. -/
theorem Chain.parts {f g : α → α} (front : (head :: ys).IsChain fun a b => next a = b ∧ prev b = a)
    (behind : (zs ++ [head]).IsChain fun a b => next a = b ∧ prev b = a)
    (nodup : (head :: (ys ++ zs)).Nodup)
    (nexts : ∀ x ∈ head :: (ys ++ zs), x ≠ ys.getLastD head → f x = next x)
    (prevs : ∀ x ∈ head :: (ys ++ zs), x ≠ zs.headD head → g x = prev x) :
    ((head :: ys).IsChain fun a b => f a = b ∧ g b = a) ∧
      (zs ++ [head]).IsChain fun a b => f a = b ∧ g b = a := by
  have apart : (zs ++ [head]).Nodup ∧ (head :: ys).Nodup ∧ ∀ x ∈ ys, x ∉ zs ++ [head] := by
    simp only [List.nodup_cons, List.nodup_append, List.mem_append, List.mem_singleton] at nodup ⊢
    grind
  obtain ⟨nodupBehind, nodupFront, disjoint⟩ := apart
  constructor
  · apply isChain_transfer front
    rintro a before b inside ⟨joined, back⟩
    obtain ⟨list, split⟩ := exists_last head ys
    have other : a ≠ ys.getLastD head := by
      rw [split, List.nodup_append] at nodupFront
      rw [split, List.dropLast_concat] at before
      exact nodupFront.2.2 a before _ List.mem_cons_self
    refine ⟨?_, ?_⟩
    · rw [nexts a _ other, joined]
      have member := (List.dropLast_subset _) before
      simp only [List.mem_cons, List.mem_append] at member ⊢
      tauto
    · have inside : b ∈ ys := inside
      rw [prevs b (by simp [inside]), back]
      exact fun same => disjoint b inside (same ▸ headD_mem zs head)
  · apply isChain_transfer behind
    rintro a before b inside ⟨joined, back⟩
    obtain ⟨list, split⟩ := exists_first zs head
    rw [List.dropLast_concat] at before
    refine ⟨?_, ?_⟩
    · rw [nexts a (by simp [before]), joined]
      intro same
      have last := getLastD_mem head ys
      rw [← same] at last
      simp only [List.mem_cons] at last
      rcases last with rfl | last
      · rw [List.nodup_cons, List.mem_append] at nodup
        exact nodup.1 (.inr before)
      · exact disjoint a last (by simp [before])
    · have member := List.mem_of_mem_tail inside
      rw [prevs b _ _, back]
      · simp only [List.mem_cons, List.mem_append] at member ⊢
        tauto
      · rw [split, List.nodup_cons] at nodupBehind
        rw [split, List.tail_cons] at inside
        exact fun same => nodupBehind.1 (same ▸ inside)

theorem Chain.congr {f g : α → α} (chain : Chain next prev head xs)
    (nexts : ∀ x ∈ head :: xs, f x = next x) (prevs : ∀ x ∈ head :: xs, g x = prev x) :
      Chain f g head xs := by
  refine ⟨isChain_transfer chain.linked ?_, chain.nodup⟩
  rintro a before b inside ⟨joined, back⟩
  rw [← List.cons_append, List.dropLast_concat] at before
  constructor
  · rw [nexts a before, joined]
  · rw [prevs b _, back]
    rcases List.mem_append.mp inside with member | last
    · exact List.mem_cons_of_mem _ member
    · rw [List.mem_singleton.mp last]
      exact List.mem_cons_self

section Update

variable [DecidableEq α]

theorem Chain.insert (chain : Chain next prev head (ys ++ zs)) (fresh : n ∉ head :: (ys ++ zs)) :
    Chain (Function.update (Function.update next n (zs.headD head)) (ys.getLastD head) n)
      (Function.update (Function.update prev n (ys.getLastD head)) (zs.headD head) n) head
        (ys ++ n :: zs) := by
  have whole := chain.linked
  rw [List.append_assoc, ← List.cons_append] at whole
  have last : ys.getLastD head ≠ n := by
    rintro rfl
    have member := getLastD_mem head ys
    simp only [List.mem_cons, List.mem_append] at fresh member
    tauto
  have first : zs.headD head ≠ n := by
    rintro rfl
    have member := headD_mem zs head
    simp only [List.mem_cons, List.mem_append] at fresh member
    tauto
  have old : ∀ x ∈ head :: (ys ++ zs), x ≠ n := fun x member same => fresh (same ▸ member)
  obtain ⟨front, behind⟩ := @Chain.parts α next prev head ys zs
    (Function.update (Function.update next n (zs.headD head)) (ys.getLastD head) n)
    (Function.update (Function.update prev n (ys.getLastD head)) (zs.headD head) n)
    whole.left_of_append whole.right_of_append chain.nodup
    (fun x member other => by rw [Function.update_of_ne other,
      Function.update_of_ne (old x member)])
    (fun x member other => by rw [Function.update_of_ne other,
      Function.update_of_ne (old x member)])
  obtain ⟨left, before⟩ := exists_last head ys
  obtain ⟨right, after⟩ := exists_first zs head
  refine ⟨?_, ?_⟩
  · rw [before] at front
    rw [after] at behind
    rw [List.append_assoc, List.cons_append, ← List.cons_append, before, after]
    rw [List.append_assoc, List.singleton_append, List.isChain_append_cons_cons,
      List.isChain_cons_cons]
    refine ⟨front, ⟨Function.update_self .., ?_⟩, ⟨?_, Function.update_self ..⟩, behind⟩
    · rw [Function.update_of_ne first.symm, Function.update_self]
    · rw [Function.update_of_ne last.symm, Function.update_self]
  · have perm : (head :: (ys ++ n :: zs)).Perm (n :: head :: (ys ++ zs)) :=
      (List.Perm.cons head List.perm_middle).trans (List.Perm.swap n head _)
    rw [perm.nodup_iff, List.nodup_cons]
    exact ⟨fresh, chain.nodup⟩

theorem Chain.remove (chain : Chain next prev head (ys ++ a :: zs)) :
    Chain (Function.update next (ys.getLastD head) (zs.headD head))
      (Function.update prev (zs.headD head) (ys.getLastD head)) head (ys ++ zs) := by
  have whole := chain.linked
  rw [List.append_assoc, ← List.cons_append] at whole
  have nodup : (head :: (ys ++ zs)).Nodup :=
    chain.nodup.sublist
      (List.Sublist.cons_cons head (List.Sublist.append_left (List.sublist_cons_self a zs) ys))
  obtain ⟨front, behind⟩ := @Chain.parts α next prev head ys zs
    (Function.update next (ys.getLastD head) (zs.headD head))
      (Function.update prev (zs.headD head) (ys.getLastD head))
    whole.left_of_append whole.right_of_append.tail nodup
    (fun x _ other => Function.update_of_ne other _ _)
      (fun x _ other => Function.update_of_ne other _ _)
  obtain ⟨left, before⟩ := exists_last head ys
  obtain ⟨right, after⟩ := exists_first zs head
  refine ⟨?_, nodup⟩
  rw [before] at front
  rw [after] at behind
  rw [List.append_assoc, ← List.cons_append, before, after]
  rw [List.append_assoc, List.singleton_append, List.isChain_append_cons_cons]
  exact ⟨front, ⟨Function.update_self .., Function.update_self ..⟩, behind⟩

end Update

end FreeBsd.Lib
