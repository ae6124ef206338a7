import Mathlib.Data.BitVec
import Mathlib.Tactic.Linarith

/-! Machine words: facts about fixed-width values that the models of word
arithmetic share. -/
namespace FreeBsd.Lib

theorem append_inj {v w : Nat} {x x' : BitVec v} {y y' : BitVec w} (same : x ++ y = x' ++ y') :
    x = x' ∧ y = y' := by
  constructor
  · apply BitVec.eq_of_getLsbD_eq
    intro i below
    have bit := congrArg (fun z => z.getLsbD (i + w)) same
    simpa [BitVec.getLsbD_append] using bit
  · apply BitVec.eq_of_getLsbD_eq
    intro i below
    have bit := congrArg (fun z => z.getLsbD i) same
    simpa [BitVec.getLsbD_append, below] using bit

theorem extract_high {v w : Nat} (x : BitVec v) (y : BitVec w) :
    (x ++ y).extractLsb' w v = x := by
  apply BitVec.eq_of_getLsbD_eq
  intro i below
  simp [BitVec.getLsbD_append, below]

theorem extract_low {v w : Nat} (x : BitVec v) (y : BitVec w) :
    (x ++ y).extractLsb' 0 w = y := by
  apply BitVec.eq_of_getLsbD_eq
  intro i below
  simp [BitVec.getLsbD_append, below]

theorem append_extract {v w : Nat} (z : BitVec (v + w)) :
    z.extractLsb' w v ++ z.extractLsb' 0 w = z := by
  apply BitVec.eq_of_getLsbD_eq
  intro i below
  by_cases low : i < w
  · simp [BitVec.getLsbD_append, low]
  · have within : i - w < v := by lia
    have back : w + (i - w) = i := by lia
    simp [BitVec.getLsbD_append, low, within, back]

/-- A non-negative signed value is its unsigned value, below the sign bit. -/
theorem toInt_of_nonneg {w : Nat} {k : BitVec w} (positive : 0 ≤ k.toInt) :
    k.toInt = k.toNat ∧ 2 * k.toNat < 2 ^ w := by
  rw [BitVec.toInt_eq_toNat_cond] at positive ⊢
  split at positive
  · rename_i low
    exact ⟨by rw [if_pos low], low⟩
  · have := k.isLt
    omega

/-- The value a signed 32-bit variable holds after `x` is stored in it. -/
def wrap32 (x : Int) : Int := Int.bmod x (2 ^ 32)

theorem wrap32_eq {x : Int} (low : - 2 ^ 31 ≤ x) (high : x < 2 ^ 31) : wrap32 x = x := by
  unfold wrap32
  rw [Int.bmod_def]
  split <;> lia

/-- The value a signed 16-bit variable holds after `x` is stored in it. -/
def wrap16 (x : Int) : Int := Int.bmod x (2 ^ 16)

theorem wrap16_eq {x : Int} (low : - 2 ^ 15 ≤ x) (high : x < 2 ^ 15) : wrap16 x = x := by
  unfold wrap16
  rw [Int.bmod_def]
  split <;> lia

theorem ofNat16_toInt {n : Nat} (small : n < 2 ^ 15) : (BitVec.ofNat 16 n).toInt = n := by
  rw [BitVec.toInt_eq_toNat_cond, BitVec.toNat_ofNat]
  split <;> lia

end FreeBsd.Lib
