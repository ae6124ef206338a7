import Mathlib.Data.List.Nodup
import Mathlib.Data.Nat.Bitwise

/-! Lists of numbers without repetition, told by going through the list once, with a bit for each
number that has been seen. -/
namespace FreeBsd.Lib

def unseen : List Nat → Nat → Bool
  | [], _ => true
  | x :: l, seen => !seen.testBit x && unseen l (seen ||| 1 <<< x)

variable {l : List Nat} {seen : Nat}

theorem nodup_of_unseen (new : unseen l seen) : l.Nodup ∧ ∀ x ∈ l, seen.testBit x = false := by
  induction l generalizing seen with
  | nil => exact ⟨.nil, fun _ none => absurd none List.not_mem_nil⟩
  | cons x l ih =>
    rw [unseen, Bool.and_eq_true, Bool.not_eq_true'] at new
    obtain ⟨nodup, rest⟩ := ih new.2
    refine ⟨List.nodup_cons.mpr ⟨fun again => ?_, nodup⟩, fun y one => ?_⟩
    · have same := rest x again
      rw [Nat.testBit_or, Nat.testBit_shiftLeft, Nat.sub_self] at same
      simp at same
    · rcases List.mem_cons.mp one with rfl | one
      · exact new.1
      · have both := rest y one
        rw [Nat.testBit_or, Bool.or_eq_false_iff] at both
        exact both.1

end FreeBsd.Lib
