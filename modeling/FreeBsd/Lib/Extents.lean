import Mathlib.Algebra.BigOperators.Group.Finset.Basic
import Mathlib.Algebra.Order.BigOperators.Group.Finset
import Mathlib.Order.Interval.Finset.Nat
import Mathlib.Tactic.Common

/-! Ranges of addresses, and the room that they take together. -/
namespace FreeBsd.Lib

structure Extent where
  start : Nat
  length : Nat
  deriving DecidableEq, Repr

namespace Extent

def stop (x : Extent) : Nat := x.start + x.length

def cells (x : Extent) : Finset Nat := Finset.Ico x.start x.stop

def Apart (x y : Extent) : Prop := x.length = 0 ∨ y.length = 0 ∨ x.stop ≤ y.start ∨ y.stop ≤ x.start

def Within (x y : Extent) : Prop := x.length = 0 ∨ y.start ≤ x.start ∧ x.stop ≤ y.stop

instance (x y : Extent) : Decidable (x.Apart y) := inferInstanceAs (Decidable (_ ∨ _))

instance (x y : Extent) : Decidable (x.Within y) := inferInstanceAs (Decidable (_ ∨ _))

variable {x y z room : Extent} {a : Nat}

theorem mem_cells : a ∈ x.cells ↔ x.start ≤ a ∧ a < x.stop := Finset.mem_Ico

theorem card_cells (x : Extent) : x.cells.card = x.length := by
  rw [cells, Nat.card_Ico, stop, Nat.add_sub_cancel_left]

theorem apart_iff : x.Apart y ↔ Disjoint x.cells y.cells := by
  unfold Apart
  rw [Finset.disjoint_left]
  constructor
  · intro apart a inX inY
    rw [mem_cells] at inX inY
    unfold stop at *
    lia
  · intro disjoint
    by_contra meet
    have inX : max x.start y.start ∈ x.cells := by
      rw [mem_cells]
      unfold stop at *
      lia
    have inY : max x.start y.start ∈ y.cells := by
      rw [mem_cells]
      unfold stop at *
      lia
    exact disjoint inX inY

theorem within_iff : x.Within y ↔ x.cells ⊆ y.cells := by
  unfold Within
  constructor
  · intro within a inX
    rw [mem_cells] at inX ⊢
    unfold stop at *
    lia
  · intro subset
    by_cases empty : x.length = 0
    · exact .inl empty
    · have first : x.start ∈ x.cells := mem_cells.mpr ⟨Nat.le_refl _, by unfold stop; lia⟩
      have last : x.stop - 1 ∈ x.cells := mem_cells.mpr ⟨by unfold stop; lia, by unfold stop; lia⟩
      have low := mem_cells.mp (subset first)
      have high := mem_cells.mp (subset last)
      exact .inr ⟨low.1, by lia⟩

theorem Apart.symm (apart : x.Apart y) : y.Apart x := apart_iff.mpr (apart_iff.mp apart).symm

instance : Std.Symm Apart := ⟨fun _ _ => Apart.symm⟩

theorem Apart.mono (apart : y.Apart z) (within : x.Within y) : x.Apart z :=
  apart_iff.mpr (Finset.disjoint_of_subset_left (within_iff.mp within) (apart_iff.mp apart))

theorem sum_length_le {ι : Type} [DecidableEq ι] (s : Finset ι) (x : ι → Extent)
    (within : ∀ i ∈ s, (x i).Within room) (apart : ∀ i ∈ s, ∀ j ∈ s, i ≠ j → (x i).Apart (x j)) :
      ∑ i ∈ s, (x i).length ≤ room.length := by
  have union : (s.biUnion fun i => (x i).cells).card = ∑ i ∈ s, (x i).cells.card :=
    Finset.card_biUnion fun i inI j inJ other => apart_iff.mp (apart i inI j inJ other)
  have subset : (s.biUnion fun i => (x i).cells) ⊆ room.cells :=
    Finset.biUnion_subset.mpr fun i member => within_iff.mp (within i member)
  simp only [card_cells] at union
  rw [← union, ← card_cells room]
  exact Finset.card_le_card subset

end Extent

end FreeBsd.Lib
