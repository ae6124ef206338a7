import Mathlib.Data.BitVec
import Mathlib.Tactic.Linarith

/-! Serial numbers: words that are compared by the sign of their difference. As long as
numbers stay within half the circle of a base, they behave as their signed distances
from it. -/
namespace FreeBsd.Lib

def ahead {w : Nat} (base a : BitVec w) : Int := (a - base).toInt

variable {w : Nat} {base a b : BitVec w}

theorem ahead_self (base : BitVec w) : ahead base base = 0 := by simp [ahead]

theorem ahead_bmod (base a b : BitVec w) :
    (a - b).toInt = (ahead base a - ahead base b).bmod (2 ^ w) := by
  have shift : a - b = (a - base) - (b - base) := (sub_sub_sub_cancel_right a b base).symm
  rw [shift, BitVec.toInt_sub, ahead, ahead]

theorem toInt_sub_of_ahead (base : BitVec w) (low : - 2 ^ w ≤ 2 * (ahead base a - ahead base b))
    (high : 2 * (ahead base a - ahead base b) < 2 ^ w) :
    (a - b).toInt = ahead base a - ahead base b := by
  rw [ahead_bmod base]
  have bound : ((2 ^ w : Nat) : Int) = 2 ^ w := by push_cast; rfl
  exact Int.bmod_eq_of_le_mul_two (by rw [bound]; lia) (by rw [bound]; lia)

theorem ahead_add {x : Int} (low : - 2 ^ w ≤ 2 * (ahead base a + x))
    (high : 2 * (ahead base a + x) < 2 ^ w) :
    ahead base (a + BitVec.ofInt w x) = ahead base a + x := by
  have move : a + BitVec.ofInt w x - base = (a - base) + BitVec.ofInt w x :=
    add_sub_right_comm a _ base
  have bound : ((2 ^ w : Nat) : Int) = 2 ^ w := by push_cast; rfl
  rw [ahead, move, BitVec.toInt_add, BitVec.toInt_ofInt, Int.add_bmod_bmod]
  exact Int.bmod_eq_of_le_mul_two (by rw [bound]; unfold ahead at low; lia)
    (by rw [bound]; unfold ahead at high; lia)

theorem ahead_add_ofNat {n : Nat} (low : - 2 ^ w ≤ 2 * (ahead base a + n))
    (high : 2 * (ahead base a + n) < 2 ^ w) :
    ahead base (a + BitVec.ofNat w n) = ahead base a + n := by
  rw [← BitVec.ofInt_natCast]
  exact ahead_add low high

theorem ahead_rebase (low : - 2 ^ w ≤ 2 * (ahead base a - ahead base b))
    (high : 2 * (ahead base a - ahead base b) < 2 ^ w) : ahead b a = ahead base a - ahead base b :=
  toInt_sub_of_ahead base low high

theorem eq_of_ahead (same : ahead base a = ahead base b) : a = b := by
  have difference : a - base = b - base := BitVec.eq_of_toInt_eq same
  have back := congrArg (· + base) difference
  simpa using back

theorem ahead_eq_zero : ahead base a = 0 ↔ a = base := by
  constructor
  · intro zero
    exact eq_of_ahead (zero.trans (ahead_self base).symm)
  · rintro rfl
    exact ahead_self a

end FreeBsd.Lib
