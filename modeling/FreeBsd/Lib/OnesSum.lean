import Mathlib.Tactic.Common
import Mathlib.Tactic.Linarith

/-! One's complement sums of 16-bit words, with the carry added back in. -/
namespace FreeBsd.Lib

def onesAdd (x y : Nat) : Nat := if x + y > 65535 then x + y - 65535 else x + y

/-- The one's complement sum of bytes as little-endian words, padded with a zero byte. -/
def onesSum : List (BitVec 8) → Nat
  | [] => 0
  | [a] => a.toNat
  | a :: b :: rest => onesAdd (a.toNat + 256 * b.toNat) (onesSum rest)

def wordsSum : List (BitVec 8) → Nat
  | [] => 0
  | [a] => a.toNat
  | a :: b :: rest => a.toNat + 256 * b.toNat + wordsSum rest

/-- Two numbers have one end-around sum: they are equal modulo 65535, and both are zero or neither
is. -/
structure SameOnes (x y : Nat) : Prop where
  mod : x % 65535 = y % 65535
  zero : x = 0 ↔ y = 0

variable {x y z : Nat} {xs ys : List (BitVec 8)}

theorem SameOnes.refl (x : Nat) : SameOnes x x := ⟨rfl, Iff.rfl⟩

theorem SameOnes.symm (same : SameOnes x y) : SameOnes y x := ⟨same.mod.symm, same.zero.symm⟩

theorem SameOnes.trans (first : SameOnes x y) (second : SameOnes y z) : SameOnes x z :=
  ⟨first.mod.trans second.mod, first.zero.trans second.zero⟩

theorem SameOnes.add (same : SameOnes x y) (z : Nat) : SameOnes (x + z) (y + z) := by
  obtain ⟨mod, zero⟩ := same
  constructor <;> lia

theorem SameOnes.eq (same : SameOnes x y) (wordX : x ≤ 65535) (wordY : y ≤ 65535) : x = y := by
  obtain ⟨mod, zero⟩ := same
  lia

theorem SameOnes.shift (same : SameOnes x y) : SameOnes (256 * x) (256 * y) := by
  obtain ⟨mod, zero⟩ := same
  constructor <;> lia

theorem onesAdd_same (x y : Nat) : SameOnes (onesAdd x y) (x + y) := by
  unfold onesAdd
  split
  · constructor <;> lia
  · exact .refl _

theorem halves_same (x : Nat) : SameOnes (x % 65536 + x / 65536) x := by
  constructor <;> lia

theorem byte_lt (a : BitVec 8) : a.toNat < 256 := a.isLt

theorem onesSum_le (xs : List (BitVec 8)) : onesSum xs ≤ 65535 := by
  induction xs using onesSum.induct with
  | case1 => exact Nat.zero_le _
  | case2 a =>
    have small := byte_lt a
    rw [onesSum]
    lia
  | case3 a b rest ih =>
    have low := byte_lt a
    have high := byte_lt b
    rw [onesSum, onesAdd]
    split <;> lia

theorem onesSum_same (xs : List (BitVec 8)) : SameOnes (onesSum xs) (wordsSum xs) := by
  induction xs using onesSum.induct with
  | case1 => exact .refl _
  | case2 a => exact .refl _
  | case3 a b rest ih =>
    rw [onesSum, wordsSum]
    have carried := onesAdd_same (a.toNat + 256 * b.toNat) (onesSum rest)
    have later := ih.add (a.toNat + 256 * b.toNat)
    rw [Nat.add_comm, Nat.add_comm (wordsSum rest)] at later
    exact carried.trans later

theorem onesSum_eq (same : SameOnes x (wordsSum xs)) (word : x ≤ 65535) : x = onesSum xs :=
  (same.trans (onesSum_same xs).symm).eq word (onesSum_le xs)

theorem wordsSum_append (even : xs.length % 2 = 0) :
    wordsSum (xs ++ ys) = wordsSum xs + wordsSum ys := by
  induction xs using wordsSum.induct with
  | case1 => simp [wordsSum]
  | case2 a => cases even
  | case3 a b rest ih =>
    have shorter := ih (by rw [List.length_cons, List.length_cons] at even; lia)
    rw [List.cons_append, List.cons_append, wordsSum, wordsSum, shorter]
    lia

/-- A byte behind an odd number of others is the high one of its word. -/
theorem wordsSum_concat (odd : xs.length % 2 = 1) (b : BitVec 8) :
    wordsSum (xs ++ [b]) = wordsSum xs + 256 * b.toNat := by
  induction xs using wordsSum.induct with
  | case1 => cases odd
  | case2 a => rfl
  | case3 a c rest ih =>
    have shorter := ih (by rw [List.length_cons, List.length_cons] at odd; lia)
    rw [List.cons_append, List.cons_append, wordsSum, wordsSum, shorter]
    lia

theorem wordsSum_le (xs : List (BitVec 8)) : wordsSum xs ≤ 65535 * ((xs.length + 1) / 2) := by
  induction xs using wordsSum.induct with
  | case1 => exact Nat.zero_le _
  | case2 a =>
    have small := byte_lt a
    rw [wordsSum, List.length_singleton]
    lia
  | case3 a b rest ih =>
    have low := byte_lt a
    have high := byte_lt b
    rw [wordsSum, List.length_cons, List.length_cons]
    lia

/-- Behind an odd byte, the words are those of the bytes that follow it with their halves exchanged.
-/
theorem wordsSum_cons (a : BitVec 8) (xs : List (BitVec 8)) :
    SameOnes (a.toNat + 256 * wordsSum xs) (wordsSum (a :: xs)) := by
  induction xs using wordsSum.induct generalizing a with
  | case1 => exact .refl _
  | case2 b => exact .refl _
  | case3 b c rest ih =>
    obtain ⟨mod, zero⟩ := ih c
    rw [wordsSum, wordsSum]
    constructor <;> lia

theorem wordsSum_replicate (n : Nat) : wordsSum (List.replicate (2 * n) 255#8) = 65535 * n := by
  induction n with
  | zero => rfl
  | succ n ih =>
    rw [show 2 * (n + 1) = 2 * n + 1 + 1 from rfl, List.replicate_succ, List.replicate_succ,
      wordsSum, ih]
    have full : (255#8).toNat = 255 := rfl
    omega

end FreeBsd.Lib
