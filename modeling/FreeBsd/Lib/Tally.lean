import Mathlib.Tactic.Ring
import Mathlib.Algebra.BigOperators.Group.List.Basic
import Mathlib.Tactic.Common

/-! Sums over lists, and what a change of one element does to them. -/
namespace FreeBsd.Lib

variable {α : Type}

def tally (f : α → Nat) (l : List α) : Nat := (l.map f).sum

variable {f g : α → Nat} {l : List α}

@[simp] theorem tally_nil : tally f [] = 0 := rfl

@[simp] theorem tally_cons (a : α) : tally f (a :: l) = f a + tally f l := by simp [tally]

@[simp] theorem tally_append (l l' : List α) :
    tally f (l ++ l') = tally f l + tally f l' := by simp [tally]

theorem tally_set {k : Nat} {a b : α} (there : l[k]? = some a) :
    tally f (l.set k b) + f a = tally f l + f b := by
  induction l generalizing k with
  | nil => cases there
  | cons c rest ih =>
    cases k with
    | zero =>
      cases there
      simp only [List.set_cons_zero, tally_cons]
      lia
    | succ k =>
      have rest := ih (k := k) there
      simp only [List.set_cons_succ, tally_cons]
      lia

theorem le_tally {k : Nat} {a : α} (there : l[k]? = some a) : f a ≤ tally f l := by
  induction l generalizing k with
  | nil => cases there
  | cons c rest ih =>
    rw [tally_cons]
    cases k with
    | zero =>
      cases there
      omega
    | succ k =>
      have rest := ih (k := k) there
      omega

theorem tally_eq_zero : tally f l = 0 ↔ ∀ a ∈ l, f a = 0 := by
  induction l with
  | nil => simp
  | cons a rest ih =>
    rw [tally_cons, Nat.add_eq_zero_iff, ih, List.forall_mem_cons]

theorem tally_map {h : α → α} (same : ∀ a, f (h a) = f a) : tally f (l.map h) = tally f l := by
  induction l with
  | nil => rfl
  | cons a rest ih => rw [List.map_cons, tally_cons, tally_cons, same, ih]

theorem add_le_tally {i j : Nat} {a b : α} (apart : i ≠ j) (first : l[i]? = some a)
    (second : l[j]? = some b) :
    f a + f b ≤ tally f l := by
  induction l generalizing i j with
  | nil => cases first
  | cons c rest ih =>
    rw [tally_cons]
    cases i with
    | zero =>
      cases first
      cases j with
      | zero => exact absurd rfl apart
      | succ j =>
        have rest : f b ≤ tally f rest := le_tally second
        lia
    | succ i =>
      cases j with
      | zero =>
        cases second
        have rest : f a ≤ tally f rest := le_tally first
        lia
      | succ j =>
        have rest := ih (fun same => apart (congrArg Nat.succ same)) first second
        lia

end FreeBsd.Lib
