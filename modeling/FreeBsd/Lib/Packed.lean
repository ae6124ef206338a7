import Mathlib.Tactic.Ring
import Mathlib.Algebra.BigOperators.Group.List.Basic
import Mathlib.Logic.Function.Basic
import Mathlib.Tactic.Common

/-! Strings packed downwards from the top of a memory, and an index of the places where they start.
Symbols are of any type. -/
namespace FreeBsd.Lib

variable {α : Type} {mem mem' : Nat → α} {idx idx' : Nat → Nat} {i j off n top : Nat} {s : List α}
    {l r : List (List α)}

section Memory

def slice (mem : Nat → α) (off n : Nat) : List α := (List.range' off n).map mem

def store (mem : Nat → α) (off : Nat) (s : List α) : Nat → α := fun i =>
  if off ≤ i then s[i - off]?.getD (mem i) else mem i

/-- The `n` symbols from `src` on are copied to `dst`, as they were before. -/
def copyTo (mem : Nat → α) (dst src n : Nat) : Nat → α := fun i =>
  if dst ≤ i ∧ i < dst + n then mem (i - dst + src) else mem i

theorem length_slice : (slice mem off n).length = n := by simp [slice]

theorem slice_congr (same : ∀ k, off ≤ k → k < off + n → mem' k = mem k) :
    slice mem' off n = slice mem off n := by
  apply List.map_congr_left
  intro k here
  rw [List.mem_range'_1] at here
  exact same k here.1 here.2

theorem slice_shift (j : Nat) (same : ∀ k, off ≤ k → k < off + n → mem' (k + j) = mem k) :
    slice mem' (off + j) n = slice mem off n := by
  apply List.ext_getElem
  · rw [length_slice, length_slice]
  · intro k here there
    rw [length_slice] at here
    simp only [slice, List.getElem_map, List.getElem_range', Nat.one_mul]
    rw [← same (off + k) (by lia) (by lia)]
    congr 1
    lia

theorem store_of_outside (outside : i < off ∨ off + s.length ≤ i) : store mem off s i = mem i := by
  rw [store]
  by_cases above : off ≤ i
  · rw [if_pos above, List.getElem?_eq_none (by omega), Option.getD_none]
  · rw [if_neg above]

theorem slice_store : slice (store mem off s) off s.length = s := by
  apply List.ext_getElem length_slice
  intro k here there
  simp only [slice, List.getElem_map, List.getElem_range', Nat.one_mul, store]
  rw [if_pos (by omega), Nat.add_sub_cancel_left, List.getElem?_eq_getElem there, Option.getD_some]

theorem copyTo_of_outside {dst src : Nat} (outside : i < dst ∨ dst + n ≤ i) :
    copyTo mem dst src n i = mem i := by
  rw [copyTo, if_neg (by omega)]

theorem copyTo_of_inside {dst src : Nat} (low : src ≤ i) (high : i < src + n)
    (dist : dst = src + j) :
    copyTo mem dst src n (i + j) = mem i := by
  rw [copyTo, if_pos (by lia)]
  congr 1
  lia

end Memory

section Packed

def sizeOfAll (l : List (List α)) : Nat := (l.map List.length).sum

theorem sizeOfAll_nil : sizeOfAll ([] : List (List α)) = 0 := rfl

theorem sizeOfAll_cons : sizeOfAll (s :: l) = s.length + sizeOfAll l := List.sum_cons

theorem sizeOfAll_append : sizeOfAll (l ++ r) = sizeOfAll l + sizeOfAll r := by
  rw [sizeOfAll, List.map_append, List.sum_append]
  rfl

/-- From entry `i` of the index on, the strings lie one below the other, the first right below
`top`. -/
def Packed (idx : Nat → Nat) (mem : Nat → α) : Nat → Nat → List (List α) → Prop
  | _, _, [] => True
  | i, top, s :: l => idx i + s.length = top ∧ slice mem (idx i) s.length = s ∧
    Packed idx mem (i + 1) (idx i) l

theorem Packed.size_le (packed : Packed idx mem i top l) : sizeOfAll l ≤ top := by
  induction l generalizing i top with
  | nil => exact Nat.zero_le _
  | cons s l ih =>
    obtain ⟨start, -, rest⟩ := packed
    have := ih rest
    rw [sizeOfAll_cons]
    omega

theorem packed_append :
    Packed idx mem i top (l ++ r) ↔ Packed idx mem i top l ∧
      Packed idx mem (i + l.length) (top - sizeOfAll l) r := by
  induction l generalizing i top with
  | nil => simp [Packed, sizeOfAll_nil]
  | cons s l ih =>
    rw [List.cons_append]
    simp only [Packed, ih, List.length_cons, sizeOfAll_cons, and_assoc]
    refine and_congr_right fun start => and_congr_right fun _ => and_congr_right fun _ => ?_
    rw [show i + 1 + l.length = i + (l.length + 1) by lia,
      show idx i - sizeOfAll l = top - (s.length + sizeOfAll l) by lia]

/-- Only the entries of the strings and their own symbols matter; they may all move up together. -/
theorem Packed.move {i' d : Nat} (packed : Packed idx mem i top l)
    (entries : ∀ k < l.length, idx' (i' + k) = idx (i + k) + d)
    (symbols : ∀ k, top - sizeOfAll l ≤ k → k < top → mem' (k + d) = mem k) :
      Packed idx' mem' i' (top + d) l := by
  induction l generalizing i i' top with
  | nil => trivial
  | cons s l ih =>
    obtain ⟨start, here, rest⟩ := packed
    have below := rest.size_le
    have first := entries 0 (Nat.succ_pos _)
    rw [Nat.add_zero, Nat.add_zero] at first
    rw [sizeOfAll_cons] at symbols
    refine ⟨by lia, ?_, ?_⟩
    · rw [first, slice_shift d fun k low high => symbols k (by lia) (by lia)]
      exact here
    · rw [first]
      apply ih rest
      · intro k inside
        have := entries (k + 1) (Nat.succ_lt_succ inside)
        rwa [Nat.add_right_comm i' 1 k, Nat.add_right_comm i 1 k, Nat.add_assoc i' k 1,
          Nat.add_assoc i k 1]
      · exact fun k low high => symbols k (by lia) (by lia)

theorem Packed.congr (packed : Packed idx mem i top l)
    (entries : ∀ k, i ≤ k → k < i + l.length → idx' k = idx k)
    (symbols : ∀ k, top - sizeOfAll l ≤ k → k < top → mem' k = mem k) : Packed idx' mem' i top l :=
  packed.move (d := 0) (fun k inside => entries (i + k) (by omega) (by omega)) symbols

end Packed

end FreeBsd.Lib
