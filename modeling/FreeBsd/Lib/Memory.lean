import Mathlib.Data.BitVec
import Mathlib.Tactic.Ring

/-! Bytes in memory, and words of four bytes in it, the low byte first. -/
namespace FreeBsd.Lib

def word (mem : Nat → BitVec 8) (a : Nat) : Nat :=
  (mem a).toNat + (mem (a + 1)).toNat * 2 ^ 8 + (mem (a + 2)).toNat * 2 ^ 16 +
    (mem (a + 3)).toNat * 2 ^ 24

def setWord (mem : Nat → BitVec 8) (a v : Nat) : Nat → BitVec 8 := fun x =>
  if x = a then BitVec.ofNat 8 v
  else if x = a + 1 then BitVec.ofNat 8 (v / 2 ^ 8)
  else if x = a + 2 then BitVec.ofNat 8 (v / 2 ^ 16)
  else if x = a + 3 then BitVec.ofNat 8 (v / 2 ^ 24)
  else mem x

/-- `n` bytes from `p` on come from `q` on in the memory as it was. -/
def copyBytes (mem : Nat → BitVec 8) (p q n : Nat) : Nat → BitVec 8 := fun x =>
  if p ≤ x ∧ x < p + n then mem (q + (x - p)) else mem x

variable {mem mem' : Nat → BitVec 8} {a b v p q n x : Nat}

theorem word_congr (same : ∀ x, a ≤ x → x < a + 4 → mem' x = mem x) : word mem' a = word mem a := by
  unfold word
  rw [same a (Nat.le_refl a) (by omega), same (a + 1) (by omega) (by omega),
    same (a + 2) (by omega) (by omega), same (a + 3) (by omega) (by omega)]

theorem setWord_other (other : x < a ∨ a + 4 ≤ x) : setWord mem a v x = mem x := by
  unfold setWord
  rw [if_neg (by omega), if_neg (by omega), if_neg (by omega), if_neg (by omega)]

theorem word_setWord (small : v < 2 ^ 32) : word (setWord mem a v) a = v := by
  unfold word setWord
  rw [if_pos rfl, if_neg (by omega), if_pos rfl, if_neg (by omega), if_neg (by omega), if_pos rfl,
    if_neg (by omega), if_neg (by omega), if_neg (by omega), if_pos rfl]
  simp only [BitVec.toNat_ofNat]
  omega

theorem word_setWord_other (apart : b + 4 ≤ a ∨ a + 4 ≤ b) :
    word (setWord mem a v) b = word mem b :=
  word_congr fun _ _ _ => setWord_other (by omega)

theorem copyBytes_in (low : p ≤ x) (high : x < p + n) : copyBytes mem p q n x = mem (q + (x - p)) :=
  if_pos ⟨low, high⟩

theorem copyBytes_out (out : x < p ∨ p + n ≤ x) : copyBytes mem p q n x = mem x := if_neg (by omega)

end FreeBsd.Lib
