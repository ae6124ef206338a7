import FreeBsd.Lib.Rearrange
import Mathlib.Tactic.Ring

/-! A list put into buckets by a key, one bucket behind the other. -/
namespace FreeBsd.Lib

variable {α : Type} (key : α → Nat)

def bucket (xs : List α) (u : Nat) : List α := xs.filter fun a => key a = u

def starts (xs : List α) : Nat → Nat
  | 0 => 0
  | u + 1 => starts xs u + (bucket key xs u).length

variable {key} {xs front : List α} {u k n lo : Nat} {a : α} {v : Nat → α}

theorem mem_bucket : a ∈ bucket key xs u ↔ a ∈ xs ∧ key a = u := by
  rw [bucket, List.mem_filter, decide_eq_true_eq]

theorem bucket_concat (front : List α) (a : α) (u : Nat) :
    bucket key (front ++ [a]) u = if u = key a then bucket key front u ++ [a] else bucket key front
      u := by
  rw [bucket, List.filter_append, List.filter_cons, List.filter_nil]
  by_cases same : u = key a
  · rw [if_pos same, if_pos (decide_eq_true same.symm)]
    rfl
  · rw [if_neg same, if_neg (fun yes => same (of_decide_eq_true yes).symm), List.append_nil]
    rfl

theorem starts_mono {w : Nat} (order : u ≤ w) : starts key xs u ≤ starts key xs w := by
  induction w, order using Nat.le_induction with
  | base => exact Nat.le_refl _
  | succ w _ ih => exact ih.trans (Nat.le_add_right _ _)

theorem starts_lt {w : Nat} (order : u < w) :
    starts key xs u + (bucket key xs u).length ≤ starts key xs w :=
  (Nat.le_refl (starts key xs (u + 1))).trans (starts_mono order)

/-- The buckets of the keys below `k`, joined, are the elements of these keys. -/
theorem joined_perm (key : α → Nat) (xs : List α) (k : Nat) :
    ((List.range k).flatMap (bucket key xs)).Perm (xs.filter fun a => key a < k) := by
  induction k with
  | zero =>
    rw [List.range_zero, List.flatMap_nil, List.filter_eq_nil_iff.mpr]
    exact fun a _ less => Nat.not_lt_zero _ (of_decide_eq_true less)
  | succ k ih =>
    have parts := List.filter_append_perm (fun a => decide (key a < k))
      (xs.filter fun a => key a < k + 1)
    rw [List.filter_filter, List.filter_filter] at parts
    have low : (xs.filter fun a => decide (key a < k) && decide (key a < k + 1)) =
        xs.filter fun a => key a < k := by
      refine List.filter_congr fun a _ => ?_
      by_cases less : key a < k
      · rw [decide_eq_true less, decide_eq_true (less.trans (Nat.lt_succ_self k))]
        rfl
      · rw [decide_eq_false less, Bool.false_and]
    have last : (xs.filter fun a => !decide (key a < k) && decide (key a < k + 1)) =
        bucket key xs k := by
      refine List.filter_congr fun a _ => ?_
      by_cases here : key a = k
      · rw [decide_eq_true here, decide_eq_false (by lia), decide_eq_true (by lia)]
        rfl
      · rw [decide_eq_false here]
        by_cases less : key a < k
        · rw [decide_eq_true less]
          rfl
        · rw [decide_eq_false less, decide_eq_false (by lia)]
          rfl
    rw [low, last] at parts
    rw [List.range_succ, List.flatMap_append, List.flatMap_singleton]
    exact (ih.append_right _).trans parts

/-- Cells that hold each bucket at its place hold them all, one behind the other. -/
theorem cells_joined (filled : ∀ u < k, cells v (lo + starts key xs u) (bucket key xs u).length =
    bucket key xs u) :
    cells v lo (starts key xs k) = (List.range k).flatMap (bucket key xs) := by
  induction k with
  | zero => rfl
  | succ k ih =>
    rw [starts, cells_add, ih fun u less => filled u (by omega), filled k (Nat.lt_succ_self k),
      List.range_succ, List.flatMap_append, List.flatMap_singleton]

theorem starts_all (below : ∀ a ∈ xs, key a < k) : starts key xs k = xs.length := by
  have lengths (k : Nat) : ((List.range k).flatMap (bucket key xs)).length = starts key xs k := by
    induction k with
    | zero => rfl
    | succ k ih => rw [List.range_succ, List.flatMap_append, List.flatMap_singleton,
      List.length_append, ih, starts]
  have all : (xs.filter fun a => key a < k) = xs :=
    List.filter_eq_self.mpr fun a member => decide_eq_true (below a member)
  rw [← lengths, (joined_perm key xs k).length_eq, all]

theorem exists_bucket {p : Nat} (inside : p < starts key xs k) :
    ∃ u < k, starts key xs u ≤ p ∧ p < starts key xs u + (bucket key xs u).length := by
  induction k with
  | zero => exact absurd inside (Nat.not_lt_zero p)
  | succ k ih =>
    by_cases here : starts key xs k ≤ p
    · exact ⟨k, Nat.lt_succ_self k, here, inside⟩
    · obtain ⟨u, less, low, high⟩ := ih (by omega)
      exact ⟨u, by omega, low, high⟩

theorem buckets_le {us : List Nat} (distinct : us.Nodup) :
    (us.map fun u => (bucket key xs u).length).sum ≤ xs.length := by
  have size : (us.map fun u => (bucket key xs u).length).sum =
      (xs.filter fun a => key a ∈ us).length := by
    induction us with
    | nil =>
      rw [List.filter_eq_nil_iff.mpr]
      · rfl
      · exact fun a _ member => List.not_mem_nil (of_decide_eq_true member)
    | cons u us ih =>
      obtain ⟨fresh, rest⟩ := List.nodup_cons.mp distinct
      rw [List.map_cons, List.sum_cons, ih rest,
        bucket, ← List.countP_eq_length_filter, ← List.countP_eq_length_filter, ← List.countP_eq_length_filter]
      clear ih
      induction xs with
      | nil => rfl
      | cons a xs ih =>
        rw [List.countP_cons, List.countP_cons, List.countP_cons]
        by_cases here : key a = u
        · have other : key a ∉ us := here ▸ fresh
          rw [decide_eq_true here, decide_eq_false other,
            decide_eq_true (here ▸ List.mem_cons_self)]
          simp only [if_true, Bool.false_eq_true, if_false]
          lia
        · by_cases member : key a ∈ us
          · rw [decide_eq_false here, decide_eq_true member,
              decide_eq_true (List.mem_cons_of_mem _ member)]
            simp only [if_true, Bool.false_eq_true, if_false]
            lia
          · have out : key a ∉ u :: us := List.not_mem_cons_of_ne_of_not_mem here member
            rw [decide_eq_false here, decide_eq_false member, decide_eq_false out]
            simp only [Bool.false_eq_true, if_false]
            lia
  rw [size]
  exact List.length_filter_le _ _

end FreeBsd.Lib
