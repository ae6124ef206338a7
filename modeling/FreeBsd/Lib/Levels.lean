import Mathlib.Order.Monotone.Basic
import Mathlib.Tactic.Common

/-! Positive numbers handed out level by level: level `s` holds those above the count of the level
before it and up to its own, and the counts only grow. -/
namespace FreeBsd.Lib

variable {c c' : Nat → Nat} {top top' p q s t : Nat}

def countBefore (c : Nat → Nat) (s : Nat) : Nat := if s ≠ 0 then c (s - 1) else 0

/-- The first level below `top` that reaches to `p`, or else `top`. -/
def levelOf (c : Nat → Nat) (top p : Nat) : Nat :=
  ((List.range top).find? fun i => p ≤ c i).getD top

def CountsUpTo (c : Nat → Nat) (top : Nat) : Prop := ∀ i < top, c i ≤ c (i + 1)

theorem CountsUpTo.le (counts : CountsUpTo c top) (order : s ≤ t) (inside : t ≤ top) :
    c s ≤ c t := by
  induction t, order using Nat.le_induction with
  | base => exact Nat.le_refl _
  | succ t order ih => exact Nat.le_trans (ih (by omega)) (counts t (by omega))

theorem countBefore_le (counts : CountsUpTo c top) (inside : s ≤ top) : countBefore c s ≤ c s := by
  cases s with
  | zero => exact Nat.zero_le _
  | succ s => exact counts s (by omega)

theorem countBefore_succ (c : Nat → Nat) (s : Nat) : countBefore c (s + 1) = c s := rfl

theorem levelOf_spec (c : Nat → Nat) (top p : Nat) :
    levelOf c top p ≤ top ∧ (∀ i < levelOf c top p, c i < p) ∧
      (levelOf c top p < top → p ≤ c (levelOf c top p)) := by
  rw [levelOf]
  cases found : (List.range top).find? fun i => p ≤ c i with
  | none =>
    have beyond := List.find?_range_eq_none.mp found
    refine ⟨Nat.le_refl _, fun i below => ?_, fun below => absurd below (Nat.lt_irrefl _)⟩
    simpa using beyond i below
  | some i =>
    obtain ⟨reaches, inside, first⟩ := List.find?_range_eq_some.mp found
    have inside := List.mem_range.mp inside
    refine ⟨Nat.le_of_lt inside, fun j below => ?_, fun _ => ?_⟩
    · simpa using first j below
    · simpa using reaches

theorem levelOf_le : levelOf c top p ≤ top := (levelOf_spec c top p).1

theorem le_levelOf (inside : p ≤ c top) : p ≤ c (levelOf c top p) := by
  obtain ⟨bound, -, reaches⟩ := levelOf_spec c top p
  rcases Nat.lt_or_eq_of_le bound with below | last
  · exact reaches below
  · rwa [last]

theorem countBefore_levelOf (positive : 0 < p) : countBefore c (levelOf c top p) < p := by
  obtain ⟨-, below, -⟩ := levelOf_spec c top p
  cases level : levelOf c top p with
  | zero => exact positive
  | succ s =>
    rw [countBefore_succ]
    exact below s (by omega)

theorem levelOf_eq (counts : CountsUpTo c top) (inside : s ≤ top) (above : countBefore c s < p)
    (reaches : p ≤ c s) : levelOf c top p = s := by
  obtain ⟨bound, below, -⟩ := levelOf_spec c top p
  have low : levelOf c top p ≤ s := by
    by_contra later
    have := below s (by lia)
    lia
  have high : s ≤ levelOf c top p := by
    cases s with
    | zero => exact Nat.zero_le _
    | succ s =>
      by_contra earlier
      have := counts.le (s := levelOf c top p) (t := s) (by lia) (by lia)
      have := @le_levelOf c top p (Nat.le_trans reaches (counts.le inside (Nat.le_refl _)))
      rw [countBefore_succ] at above
      lia
  lia

theorem levelOf_mono (order : p ≤ q) : levelOf c top p ≤ levelOf c top q := by
  obtain ⟨bound, -, reaches⟩ := levelOf_spec c top q
  obtain ⟨-, below, -⟩ := levelOf_spec c top p
  by_contra later
  have := below (levelOf c top q) (by lia)
  have := reaches (by have := @levelOf_le c top p; lia)
  lia

theorem levelOf_congr (counts : CountsUpTo c' top') (grows : top ≤ top') (positive : 0 < p)
    (inside : p ≤ c top) (same : ∀ i < top, c' i = c i) (last : c top ≤ c' top) :
    levelOf c' top' p = levelOf c top p := by
  have bound := @levelOf_le c top p
  have reaches := le_levelOf inside
  have above := @countBefore_levelOf c top _ positive
  apply levelOf_eq counts (by lia)
  · cases level : levelOf c top p with
    | zero => exact positive
    | succ s =>
      rw [level, countBefore_succ] at above
      rw [countBefore_succ, same s (by lia)]
      exact above
  · rcases Nat.lt_or_eq_of_le bound with below | at_top
    · rw [same _ below]
      exact reaches
    · rw [at_top]
      lia

theorem countBefore_congr (same : ∀ i < top, c' i = c i) (inside : s ≤ top) :
    countBefore c' s = countBefore c s := by
  cases s with
  | zero => rfl
  | succ s => exact same s (by omega)

end FreeBsd.Lib
