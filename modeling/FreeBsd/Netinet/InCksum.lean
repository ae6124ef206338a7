import FreeBsd.Lib.OnesSum

/-! The Internet checksum of a chain of mbufs, `netinet/in_cksum.c`, on a little-endian machine. -/
namespace FreeBsd.Netinet

open FreeBsd.Lib

section Model

/-- `sum`, an `int` of 32 bits read as an unsigned number; `peak` is the largest value that was to
go into it. -/
structure CkSum where
  sum : Nat
  peak : Nat
  below : sum ≤ peak

def CkSum.put (a : CkSum) (x : Nat) : CkSum :=
  ⟨x % 2 ^ 32, max a.peak x, (Nat.mod_le x _).trans (Nat.le_max_right _ _)⟩

def CkSum.add (a : CkSum) (x : Nat) : CkSum := a.put (a.sum + x)

def CkSum.shift (a : CkSum) : CkSum := a.put (256 * a.sum)

def ADDCARRY (x : Nat) : Nat := if x > 65535 then x - 65535 else x

def CkSum.reduce (a : CkSum) : CkSum := a.put (ADDCARRY (a.sum % 65536 + a.sum / 65536))

def ckWord (b c : BitVec 8) : Nat := b.toNat + 256 * c.toNat

/-- `sum += w[0]; sum += w[1];` and so on, and `w += n`. -/
def addWords : Nat → CkSum → List (BitVec 8) → CkSum × List (BitVec 8)
  | n + 1, a, b :: c :: rest => addWords n (a.add (ckWord b c)) rest
  | _, a, bytes => (a, bytes)

/-- `while ((mlen -= 2 * n) >= 0)`; the bytes are the `mlen` from `w` on. -/
def unroll (n : Nat) : Nat → CkSum → List (BitVec 8) → CkSum × List (BitVec 8)
  | 0, a, bytes => (a, bytes)
  | fuel + 1, a, bytes =>
    if 2 * n ≤ bytes.length then
      let (a, bytes) := addWords n a bytes
      unroll n fuel a bytes
    else (a, bytes)

structure CkMbuf where
  addr : Nat
  data : List (BitVec 8)

/-- `byte_swapped` is 0 between mbufs; `c0` is `s_util.c[0]`. -/
structure CkState where
  acc : CkSum
  mlen : Int
  c0 : BitVec 8
  len : Nat

def ckData (acc : CkSum) (w : Nat) (data : List (BitVec 8)) (c0 : BitVec 8) (len : Nat) : CkState :=
  -- force to even boundary
  let (acc, data, c0, byteSwapped) :=
    match data with
    | b :: rest => if w % 2 = 1 then (acc.reduce.shift, rest, b, true) else (acc, data, c0, false)
    | [] => (acc, data, c0, false)
  let (acc, data) := unroll 16 data.length acc data
  let (acc, data) := unroll 4 data.length acc data
  if data = [] ∧ byteSwapped = false then ⟨acc, 0, c0, len⟩
  else
    let (acc, data) := unroll 1 data.length acc.reduce data
    match byteSwapped, data with
    | true, b :: _ => ⟨acc.reduce.shift.add (ckWord c0 b), 0, c0, len⟩
    | true, [] => ⟨acc.reduce.shift, -1, c0, len⟩
    | false, b :: _ => ⟨acc, -1, b, len⟩
    | false, [] => ⟨acc, -2, c0, len⟩

/-- One mbuf. If `mlen` is -1, its first byte is the continuation of a word that the last one began.
-/
def ckMbuf (s : CkState) (m : CkMbuf) : CkState :=
  match m.data with
  | [] => s
  | b :: rest =>
    let (acc, w, data, len) :=
      if s.mlen = -1 then (s.acc.add (ckWord s.c0 b), m.addr + 1, rest, s.len - 1) else (s.acc,
        m.addr, m.data, s.len)
    let data := data.take len
    ckData acc w data s.c0 (len - data.length)

def ckLoop : CkState → List CkMbuf → CkState
  | s, [] => s
  | s, m :: next => if s.len = 0 then s else ckLoop (ckMbuf s m) next

/-- `in_cksum_c(m, len)`, and the largest value that was to go into `sum`. -/
def inCksumC (m : List CkMbuf) (len : Nat) : Nat × Nat :=
  let s := ckLoop ⟨⟨0, 0, Nat.le_refl 0⟩, 0, 0, len⟩ m
  let acc := if s.mlen = -1 then s.acc.add (ckWord s.c0 0) else s.acc
  ((2 ^ 32 - 1 - acc.reduce.sum) % 2 ^ 16, acc.reduce.peak)

end Model

section Register

variable {a a' a'' : CkSum} {x y n : Nat} {bytes : List (BitVec 8)}

/-- `x` has been added without a carry out of the register. -/
structure Grown (a a' : CkSum) (x : Nat) : Prop where
  sum : a'.sum = a.sum + x
  peak : a'.peak = max a.peak (a.sum + x)

theorem Grown.refl (a : CkSum) : Grown a a 0 := ⟨rfl, (Nat.max_eq_left a.below).symm⟩

theorem Grown.trans (first : Grown a a' x) (second : Grown a' a'' y) : Grown a a'' (x + y) := by
  obtain ⟨sum, peak⟩ := first
  obtain ⟨sum', peak'⟩ := second
  constructor <;> lia

theorem add_grown (room : a.sum + x < 2 ^ 32) : Grown a (a.add x) x := ⟨Nat.mod_eq_of_lt room, rfl⟩

theorem reduce_same (room : a.sum < 2 ^ 32) : SameOnes a.reduce.sum a.sum ∧ a.reduce.sum ≤ 65535 ∧
    a.reduce.peak = a.peak := by
  have halves := halves_same a.sum
  have below := a.below
  obtain ⟨mod, zero⟩ := halves
  have folded : a.reduce.sum = ADDCARRY (a.sum % 65536 + a.sum / 65536) := by
    apply Nat.mod_eq_of_lt
    unfold ADDCARRY
    split <;> lia
  have peak : a.reduce.peak = max a.peak (ADDCARRY (a.sum % 65536 + a.sum / 65536)) := rfl
  rw [peak, folded]
  unfold ADDCARRY
  refine ⟨?_, ?_, ?_⟩
  · constructor <;> split <;> lia
  · split <;> lia
  · split <;> lia

theorem shift_sum (word : a.sum ≤ 65535) : a.shift.sum = 256 * a.sum ∧
    a.shift.peak = max a.peak (256 * a.sum) :=
  ⟨Nat.mod_eq_of_lt (by omega), rfl⟩

theorem addWords_grown (n : Nat) (enough : 2 * n ≤ bytes.length)
    (room : a.sum + wordsSum (bytes.take (2 * n)) < 2 ^ 32) :
    (addWords n a bytes).2 = bytes.drop (2 * n) ∧
      Grown a (addWords n a bytes).1 (wordsSum (bytes.take (2 * n))) := by
  induction n generalizing a bytes with
  | zero =>
    refine ⟨by simp [addWords], ?_⟩
    rw [addWords]
    · exact .refl a
    · exact nofun
  | succ n ih =>
    obtain ⟨b, c, rest, rfl⟩ : ∃ b c rest, bytes = b :: c :: rest := by
      match bytes, enough with
      | b :: c :: rest, _ => exact ⟨b, c, rest, rfl⟩
    have front : (b :: c :: rest).take (2 * (n + 1)) = b :: c :: rest.take (2 * n) := rfl
    have back : (b :: c :: rest).drop (2 * (n + 1)) = rest.drop (2 * n) := rfl
    rw [front, wordsSum] at room ⊢
    have first : Grown a (a.add (ckWord b c)) (ckWord b c) := add_grown (by unfold ckWord; lia)
    have shorter : 2 * n ≤ rest.length := by
      rw [List.length_cons, List.length_cons] at enough
      lia
    obtain ⟨left, later⟩ :=
      @ih (a.add (ckWord b c)) rest shorter (by rw [first.sum]; unfold ckWord; lia)
    rw [addWords, back]
    exact ⟨left, first.trans later⟩

theorem unroll_grown (positive : 0 < n) (fuel : Nat) (enough : bytes.length ≤ fuel)
    (room : a.sum + wordsSum bytes < 2 ^ 32) :
    ∃ front rest a', bytes = front ++ rest ∧ 2 * n ∣ front.length ∧ rest.length < 2 * n ∧
      unroll n fuel a bytes = (a', rest) ∧ Grown a a' (wordsSum front) := by
  induction fuel generalizing a bytes with
  | zero =>
    obtain rfl : bytes = [] := List.length_eq_zero_iff.mp (Nat.le_zero.mp enough)
    exact ⟨[], [], a, rfl, Nat.dvd_zero _, by simpa using positive, rfl, .refl a⟩
  | succ fuel ih =>
    rw [unroll]
    split
    · rename_i more
      have parts := List.take_append_drop (2 * n) bytes
      have length : (bytes.take (2 * n)).length = 2 * n := List.length_take_of_le more
      have total := @wordsSum_append (bytes.take (2 * n)) (bytes.drop (2 * n)) (by lia)
      rw [parts] at total
      obtain ⟨left, first⟩ := @addWords_grown a bytes n more (by lia)
      have sum := first.sum
      obtain ⟨front, rest, a', split, divides, short, run, later⟩ :=
        @ih (addWords n a bytes).1 (bytes.drop (2 * n)) (by rw [List.length_drop]; lia) (by lia)
      refine ⟨bytes.take (2 * n) ++ front, rest, a', ?_, ?_, short, ?_, ?_⟩
      · rw [List.append_assoc, ← split, parts]
      · rw [List.length_append, length]
        exact Nat.dvd_add (Nat.dvd_refl _) divides
      · rw [← left] at run
        exact run
      · rw [wordsSum_append (by lia)]
        exact first.trans later
    · rename_i few
      exact ⟨[], bytes, a, rfl, Nat.dvd_zero _, Nat.lt_of_not_le few, rfl, .refl a⟩

end Register

section Chain

variable {a a' : CkSum} {s : CkState} {xs data : List (BitVec 8)} {x w len : Nat} {c0 : BitVec 8}

/-- No more than this is in the register behind a turned mbuf: a word shifted by 8 bits, and another
word. -/
def turned : Nat := 256 * 65535 + 65535

/-- The register has the sum of the bytes so far, but for the first byte of a word that is not
complete. -/
structure CkInv (xs : List (BitVec 8)) (s : CkState) : Prop where
  odd : s.mlen = -1 → xs.length % 2 = 1 ∧ SameOnes (s.acc.sum + s.c0.toNat) (wordsSum xs)
  even : s.mlen ≠ -1 → xs.length % 2 = 0 ∧ SameOnes s.acc.sum (wordsSum xs)
  sum : s.acc.sum ≤ turned + 65535 * (xs.length / 2)
  peak : s.acc.peak ≤ turned + 65535 * ((xs.length + 1) / 2)

theorem wordsSum_le_even (even : data.length % 2 = 0) :
    wordsSum data ≤ 65535 * (data.length / 2) := by
  have most := wordsSum_le data
  have half : (data.length + 1) / 2 = data.length / 2 := by lia
  rw [half] at most
  exact most

theorem unrolled_grown (room : a.sum + wordsSum data < 2 ^ 32) :
    ∃ front rest a', data = front ++ rest ∧ front.length % 2 = 0 ∧
      (data.length % 8 = 0 → rest = []) ∧
      (unroll 4 (unroll 16 data.length a data).2.length (unroll 16 data.length a data).1
        (unroll 16 data.length a data).2) =
        (a', rest) ∧ Grown a a' (wordsSum front) := by
  obtain ⟨front, rest, a', rfl, divides, -, run, grown⟩ :=
    unroll_grown (by decide : 0 < 16) data.length (Nat.le_refl _) room
  have even : front.length % 2 = 0 := by lia
  have sum := grown.sum
  rw [wordsSum_append even] at room
  obtain ⟨front', rest', a'', rfl, divides', short, run', grown'⟩ :=
    @unroll_grown a' 4 rest (by decide) rest.length (Nat.le_refl _) (by lia)
  refine ⟨front ++ front', rest', a'', (List.append_assoc ..).symm, ?_, fun whole => ?_, ?_, ?_⟩
  · rw [List.length_append]
    lia
  · rw [List.length_append, List.length_append] at whole
    exact List.length_eq_zero_iff.mp (by lia)
  · rw [run]
    exact run'
  · rw [wordsSum_append even]
    exact grown.trans grown'

theorem folded_grown (rest : List (BitVec 8)) (room : a.sum < 2 ^ 32)
    (few : wordsSum rest + 65535 < 2 ^ 32) :
    ∃ front left a', rest = front ++ left ∧ front.length % 2 = 0 ∧ left.length < 2 ∧
      unroll 1 rest.length a.reduce rest = (a', left) ∧ SameOnes a'.sum (a.sum + wordsSum front) ∧
      a'.sum ≤ 65535 + wordsSum front ∧ a'.peak = max a.peak a'.sum := by
  obtain ⟨same, word, peak⟩ := reduce_same room
  obtain ⟨front, left, a', rfl, divides, short, run, grown⟩ :=
    @unroll_grown a.reduce 1 rest (by decide) rest.length (Nat.le_refl _) (by lia)
  refine ⟨front, left, a', rfl, by lia, short, run, ?_, ?_, ?_⟩
  · rw [grown.sum]
    exact same.add _
  · rw [grown.sum]
    lia
  · rw [grown.peak, grown.sum, peak]

/-- Turned twice, a sum is as it was, and what was added in between is turned once. -/
theorem turn_add (x y : Nat) : SameOnes (256 * (256 * x + y)) (x + 256 * y) := by
  constructor <;> lia

theorem wordsSum_single (b : BitVec 8) : wordsSum [b] = b.toNat := rfl

def straightEnd (acc : CkSum) (data : List (BitVec 8)) (c0 : BitVec 8) (len : Nat) : CkState :=
  if data = [] then ⟨acc, 0, c0, len⟩
  else
    match unroll 1 data.length acc.reduce data with
    | (acc, b :: _) => ⟨acc, -1, b, len⟩
    | (acc, []) => ⟨acc, -2, c0, len⟩

def turnedEnd (acc : CkSum) (data : List (BitVec 8)) (c0 : BitVec 8) (len : Nat) : CkState :=
  match unroll 1 data.length acc.reduce data with
  | (acc, b :: _) => ⟨acc.reduce.shift.add (ckWord c0 b), 0, c0, len⟩
  | (acc, []) => ⟨acc.reduce.shift, -1, c0, len⟩

theorem ckData_straight {rest : List (BitVec 8)} (even : w % 2 = 1 → data = [])
    (run : (unroll 4 (unroll 16 data.length a data).2.length (unroll 16 data.length a data).1
      (unroll 16 data.length a data).2) =
      (a', rest)) : ckData a w data c0 len = straightEnd a' rest c0 len := by
  cases data with
  | nil =>
    cases run
    rfl
  | cons b data =>
    unfold ckData straightEnd
    dsimp only
    rw [if_neg fun odd => absurd (even odd) (List.cons_ne_nil _ _)]
    dsimp only
    generalize unroll 16 (b :: data).length a (b :: data) = p at *
    obtain ⟨a₁, data₁⟩ := p
    dsimp only at run ⊢
    rw [run]
    dsimp only
    by_cases done : rest = []
    · rw [if_pos ⟨done, rfl⟩, if_pos done]
    · rw [if_neg fun both => done both.1, if_neg done]
      generalize unroll 1 rest.length a'.reduce rest = q
      obtain ⟨a₂, data₂⟩ := q
      cases data₂ with
      | nil => rfl
      | cons b data₂ => rfl

theorem ckData_turned {b : BitVec 8} {rest : List (BitVec 8)} (odd : w % 2 = 1)
    (run : (unroll 4 (unroll 16 data.length a.reduce.shift data).2.length
      (unroll 16 data.length a.reduce.shift data).1
      (unroll 16 data.length a.reduce.shift data).2) = (a', rest)) :
    ckData a w (b :: data) c0 len = turnedEnd a' rest b len := by
  unfold ckData turnedEnd
  dsimp only
  rw [if_pos odd]
  dsimp only
  generalize unroll 16 data.length a.reduce.shift data = p at *
  obtain ⟨a₁, data₁⟩ := p
  dsimp only at run ⊢
  rw [run]
  dsimp only
  rw [if_neg fun both => absurd both.2 (by decide)]
  generalize unroll 1 rest.length a'.reduce rest = q
  obtain ⟨a₂, data₂⟩ := q
  cases data₂ with
  | nil => rfl
  | cons b data₂ => rfl

theorem short_cases {left : List (BitVec 8)} (short : left.length < 2) :
    left = [] ∨ ∃ b, left = [b] := by
  match left, short with
  | [], _ => exact .inl rfl
  | [b], _ => exact .inr ⟨b, rfl⟩

theorem straight_inv (even : xs.length % 2 = 0) (same : SameOnes a.sum (wordsSum xs))
    (sum : a.sum ≤ turned + 65535 * (xs.length / 2))
    (peak : a.peak ≤ turned + 65535 * ((xs.length + 1) / 2)) (few : (xs ++ data).length ≤ 65535)
    (place : w % 2 = 1 → data = []) : CkInv (xs ++ data) (ckData a w data c0 len) := by
  rw [List.length_append] at few
  have most := wordsSum_le data
  have room : a.sum + wordsSum data < 2 ^ 32 := by
    unfold turned at sum
    lia
  obtain ⟨front, rest, a', rfl, evenFront, -, run, grown⟩ := unrolled_grown room
  rw [ckData_straight place run, straightEnd]
  have small := wordsSum_le_even evenFront
  have peak' := grown.peak
  have sum' := grown.sum
  have same' : SameOnes a'.sum (wordsSum (xs ++ front)) := by
    rw [sum', wordsSum_append even]
    exact same.add _
  rw [List.length_append] at few
  by_cases done : rest = []
  · rw [if_pos done, done, List.append_nil]
    refine ⟨fun odd => absurd odd (show ¬ (0 : Int) = -1 by decide), fun _ => ⟨?_, same'⟩, ?_, ?_⟩
    · rw [List.length_append]
      lia
    · rw [List.length_append]
      dsimp only
      lia
    · rw [List.length_append]
      dsimp only
      lia
  · rw [if_neg done]
    have mostRest := wordsSum_le rest
    obtain ⟨front', left, a'', rfl, evenFront', short, run', same'', sum'', peak''⟩ :=
      folded_grown (a := a') rest (by unfold turned at *; lia) (by lia)
    rw [run']
    have small' := wordsSum_le_even evenFront'
    have whole : SameOnes a''.sum (wordsSum (xs ++ front ++ front')) := by
      rw [wordsSum_append (by rw [List.length_append]; lia)]
      exact same''.trans (same'.add _)
    rcases short_cases short with rfl | ⟨b, rfl⟩
    · rw [List.append_nil, ← List.append_assoc]
      refine ⟨fun odd => absurd odd (show ¬ (-2 : Int) = -1 by decide), fun _ => ⟨?_, whole⟩, ?_,
        ?_⟩
      · rw [List.length_append, List.length_append]
        lia
      · rw [List.length_append, List.length_append]
        unfold turned at *
        dsimp only
        lia
      · rw [List.length_append, List.length_append]
        unfold turned at *
        dsimp only
        lia
    · rw [← List.append_assoc, ← List.append_assoc]
      refine ⟨fun _ => ⟨?_, ?_⟩, fun odd => absurd rfl odd, ?_, ?_⟩
      · rw [List.length_append, List.length_append, List.length_append, List.length_singleton]
        lia
      · rw [wordsSum_append (by rw [List.length_append, List.length_append]; lia), wordsSum_single]
        exact whole.add _
      · rw [List.length_append, List.length_append, List.length_append, List.length_singleton]
        unfold turned at *
        dsimp only
        lia
      · rw [List.length_append, List.length_append, List.length_append, List.length_singleton]
        unfold turned at *
        dsimp only
        lia

/-- The bytes of an mbuf at an odd address are turned with the sum so far, and back with it. -/
theorem turned_inv {b : BitVec 8} (even : xs.length % 2 = 0) (same : SameOnes a.sum (wordsSum xs))
    (sum : a.sum ≤ turned + 65535 * (xs.length / 2))
    (peak : a.peak ≤ turned + 65535 * ((xs.length + 1) / 2))
    (few : (xs ++ b :: data).length ≤ 65535) (place : w % 2 = 1) :
    CkInv (xs ++ b :: data) (ckData a w (b :: data) c0 len) := by
  rw [List.length_append, List.length_cons] at few
  have most := wordsSum_le data
  obtain ⟨same₁, word₁, peak₁⟩ := reduce_same (a := a) (by unfold turned at sum; lia)
  obtain ⟨sum₂, peak₂⟩ := shift_sum word₁
  obtain ⟨front, rest, a₃, rfl, evenFront, -, run, grown⟩ :=
    @unrolled_grown a.reduce.shift data (by lia)
  rw [ckData_turned place run, turnedEnd]
  have small := wordsSum_le_even evenFront
  have peak₃ := grown.peak
  have sum₃ := grown.sum
  have mostRest := wordsSum_le rest
  rw [List.length_append] at few
  obtain ⟨front', left, a₄, rfl, evenFront', short, run', same₄, sum₄, peak₄⟩ :=
    folded_grown (a := a₃) rest (by lia) (by lia)
  rw [run']
  have small' := wordsSum_le_even evenFront'
  rw [List.length_append] at few
  obtain ⟨same₅, word₅, peak₅⟩ := reduce_same (a := a₄) (by lia)
  obtain ⟨sum₆, peak₆⟩ := shift_sum word₅
  -- the sum so far is back in its place, and the words in between are turned
  have back : SameOnes a₄.reduce.shift.sum (wordsSum xs + 256 * wordsSum (front ++ front')) := by
    rw [sum₆, wordsSum_append evenFront]
    have inner :
      SameOnes a₄.reduce.sum (256 * a.reduce.sum + (wordsSum front + wordsSum front')) := by
      refine same₅.trans (same₄.trans ?_)
      rw [sum₃, sum₂, Nat.add_assoc]
      exact .refl _
    exact inner.shift.trans ((turn_add _ _).trans ((same₁.trans same).add _))
  have length : (xs ++ b :: (front ++ front')).length = xs.length + (front.length + front'.length) +
      1 := by
    simp only [List.length_append, List.length_cons]
    lia
  rcases short_cases short with rfl | ⟨c, rfl⟩
  · rw [List.append_nil]
    refine ⟨fun _ => ⟨by lia, ?_⟩, fun odd => absurd rfl odd, ?_, ?_⟩
    · rw [wordsSum_append even]
      have pending := (wordsSum_cons b (front ++ front')).add (wordsSum xs)
      have first := back.add b.toNat
      rw [show wordsSum xs + 256 * wordsSum (front ++ front') + b.toNat =
        b.toNat + 256 * wordsSum (front ++ front') + wordsSum xs by lia] at first
      rw [Nat.add_comm (wordsSum xs)]
      exact first.trans pending
    · rw [length]
      unfold turned at *
      dsimp only
      lia
    · rw [length]
      unfold turned at *
      dsimp only
      lia
  · have last := @add_grown a₄.reduce.shift (ckWord b c) (by
      have low := byte_lt b
      have high := byte_lt c
      unfold ckWord
      lia)
    have sum₇ := last.sum
    have peak₇ := last.peak
    have low := byte_lt b
    have high := byte_lt c
    have added : ckWord b c ≤ 65535 := by
      unfold ckWord
      lia
    have length' : (xs ++ b :: (front ++ (front' ++ [c]))).length =
        xs.length + (front.length + front'.length) + 2 := by
      simp only [List.length_append, List.length_cons, List.length_nil]
      lia
    refine ⟨fun odd => absurd odd (show ¬ (0 : Int) = -1 by decide), fun _ => ⟨by lia, ?_⟩, ?_, ?_⟩
    · have joined : b :: (front ++ (front' ++ [c])) =
        b :: ((front ++ front') ++ [c]) := by rw [List.append_assoc]
      have words : wordsSum ((front ++ front') ++ [c]) = wordsSum (front ++ front') + c.toNat := by
        rw [wordsSum_append (by rw [List.length_append]; lia), wordsSum_single]
      have turn := (wordsSum_cons b ((front ++ front') ++ [c])).add (wordsSum xs)
      have first := back.add (ckWord b c)
      rw [words] at turn
      rw [show wordsSum xs + 256 * wordsSum (front ++ front') + ckWord b c =
        b.toNat + 256 * (wordsSum (front ++ front') + c.toNat) +
          wordsSum xs by unfold ckWord; lia] at first
      dsimp only
      rw [wordsSum_append even, joined, sum₇, Nat.add_comm (wordsSum xs)]
      exact first.trans turn
    · rw [length']
      unfold turned at *
      dsimp only
      lia
    · rw [length']
      unfold turned at *
      dsimp only
      lia

theorem ckData_inv (even : xs.length % 2 = 0) (same : SameOnes a.sum (wordsSum xs))
    (sum : a.sum ≤ turned + 65535 * (xs.length / 2))
    (peak : a.peak ≤ turned + 65535 * ((xs.length + 1) / 2)) (few : (xs ++ data).length ≤ 65535) :
    CkInv (xs ++ data) (ckData a w data c0 len) := by
  cases data with
  | nil => exact straight_inv even same sum peak few fun _ => rfl
  | cons b data =>
    by_cases odd : w % 2 = 1
    · exact turned_inv even same sum peak few odd
    · exact straight_inv even same sum peak few fun this => absurd this odd

theorem ckData_len (a : CkSum) (w : Nat) (data : List (BitVec 8)) (c0 : BitVec 8) (len : Nat) :
    (ckData a w data c0 len).len = len := by
  unfold ckData
  dsimp only
  repeat' split
  all_goals rfl

theorem ckMbuf_inv {m : CkMbuf} (inv : CkInv xs s) (more : s.len ≠ 0)
    (few : xs.length + s.len ≤ 65535) :
    CkInv (xs ++ m.data.take s.len) (ckMbuf s m) ∧ (ckMbuf s m).len = s.len - m.data.length := by
  unfold ckMbuf
  cases found : m.data with
  | nil =>
    rw [List.take_nil, List.append_nil]
    exact ⟨inv, rfl⟩
  | cons b rest =>
    dsimp only
    by_cases pending : s.mlen = -1
    · rw [if_pos pending]
      dsimp only
      obtain ⟨odd, same⟩ := inv.odd pending
      obtain ⟨len, count⟩ : ∃ len, s.len = len + 1 := Nat.exists_eq_succ_of_ne_zero more
      have bound := inv.sum
      have most := inv.peak
      have low := byte_lt s.c0
      have high := byte_lt b
      have word : ckWord s.c0 b ≤ 65535 := by
        unfold ckWord
        lia
      have room : s.acc.sum + ckWord s.c0 b < 2 ^ 32 := by
        unfold turned at bound
        lia
      have grown := add_grown room
      have sum := grown.sum
      have peak := grown.peak
      -- the word is complete
      have joined : SameOnes (s.acc.add (ckWord s.c0 b)).sum (wordsSum (xs ++ [b])) := by
        have added := same.add (256 * b.toNat)
        rw [← wordsSum_concat odd] at added
        rw [sum, ckWord, ← Nat.add_assoc]
        exact added
      have length :
        (xs ++ [b]).length = xs.length + 1 := by rw [List.length_append, List.length_singleton]
      have split : xs ++ (b :: rest).take s.len = (xs ++ [b]) ++ rest.take (s.len - 1) := by
        rw [count, List.take_succ_cons, Nat.add_sub_cancel, List.append_assoc]
        rfl
      rw [split, ckData_len]
      constructor
      · apply ckData_inv (by lia) joined
        · rw [length]
          lia
        · rw [length]
          lia
        · rw [List.length_append, length, List.length_take]
          lia
      · rw [List.length_cons, List.length_take]
        lia
    · rw [if_neg pending]
      obtain ⟨even, same⟩ := inv.even pending
      dsimp only
      rw [ckData_len]
      constructor
      · apply ckData_inv even same inv.sum inv.peak
        rw [List.length_append, List.length_take]
        lia
      · rw [List.length_take]
        lia

theorem ckLoop_inv {m : List CkMbuf} (inv : CkInv xs s) (few : xs.length + s.len ≤ 65535) :
    CkInv (xs ++ (m.flatMap CkMbuf.data).take s.len) (ckLoop s m) := by
  induction m generalizing xs s with
  | nil =>
    rw [List.flatMap_nil, List.take_nil, List.append_nil]
    exact inv
  | cons m next ih =>
    rw [ckLoop, List.flatMap_cons, List.take_append]
    split
    · rename_i done
      rw [done, List.take_zero, Nat.zero_sub, List.take_zero, List.append_nil, List.append_nil]
      exact inv
    · rename_i more
      obtain ⟨inv', left⟩ := ckMbuf_inv inv more few
      have later := ih inv' (by
        rw [left, List.length_append, List.length_take]
        lia)
      rw [left, List.append_assoc] at later
      exact later

/-- The checksum is that of the bytes, however they are split and wherever they lie, and no carry is
lost. -/
theorem in_cksum_ones (m : List CkMbuf) (len : Nat) (few : len ≤ 65535)
    (enough : len ≤ (m.flatMap CkMbuf.data).length) :
    (inCksumC m len).1 = 65535 - onesSum ((m.flatMap CkMbuf.data).take len) ∧
      (inCksumC m len).2 < 2 ^ 32 := by
  have start : CkInv [] ⟨⟨0, 0, Nat.le_refl 0⟩, 0, 0, len⟩ :=
    ⟨fun odd => absurd odd (show ¬ (0 : Int) = -1 by decide), fun _ => ⟨rfl, .refl 0⟩,
      Nat.zero_le _, Nat.zero_le _⟩
  have inv := ckLoop_inv (m := m) start (by rw [List.length_nil, Nat.zero_add]; exact few)
  rw [List.nil_append] at inv
  have length : ((m.flatMap CkMbuf.data).take len).length = len := List.length_take_of_le enough
  unfold inCksumC
  dsimp only at inv ⊢
  generalize (m.flatMap CkMbuf.data).take len = bytes at *
  generalize ckLoop ⟨⟨0, 0, Nat.le_refl 0⟩, 0, 0, len⟩ m = s at *
  have bound := inv.sum
  have most := inv.peak
  unfold turned at bound most
  -- the last byte counts even if its word is not complete
  obtain ⟨acc, final, same, room, peak⟩ :
      ∃ acc, (if s.mlen = -1 then s.acc.add (ckWord s.c0 0) else s.acc) = acc ∧
      SameOnes acc.sum (wordsSum bytes) ∧ acc.sum < 2 ^ 32 ∧ acc.peak < 2 ^ 32 := by
    refine ⟨_, rfl, ?_⟩
    split
    · rename_i pending
      obtain ⟨odd, same⟩ := inv.odd pending
      have low := byte_lt s.c0
      have zero : ckWord s.c0 0 = s.c0.toNat := rfl
      have grown := @add_grown s.acc (ckWord s.c0 0) (by omega)
      have sum := grown.sum
      have peak := grown.peak
      rw [zero] at *
      refine ⟨?_, by omega, by omega⟩
      rw [sum]
      exact same
    · rename_i whole
      exact ⟨(inv.even whole).2, by omega, by omega⟩
  rw [final]
  obtain ⟨same', word, peak'⟩ := reduce_same room
  have value := onesSum_eq (same'.trans same) word
  constructor
  · rw [← value]
    omega
  · rw [peak']
    exact peak

/-- Eleven bytes in three mbufs, the second at an odd address. -/
theorem in_cksum_ones_three :
    (inCksumC [⟨0, [1, 2, 3]⟩, ⟨7, [4, 5, 6, 7, 8]⟩, ⟨2, []⟩, ⟨4, [9, 10, 11, 12]⟩] 11).1 =
    65535 - onesSum [1, 2, 3, 4, 5, 6, 7, 8, 9, 10, 11] :=
  (in_cksum_ones [⟨0, [1, 2, 3]⟩, ⟨7, [4, 5, 6, 7, 8]⟩, ⟨2, []⟩,
    ⟨4, [9, 10, 11, 12]⟩] 11 (by decide) (by decide)).1

theorem ckMbuf_grown {m : CkMbuf} (whole : s.mlen ≠ -1) (even : m.addr % 2 = 0)
    (octets : m.data.length % 8 = 0) (some : m.data ≠ []) (all : m.data.length ≤ s.len)
    (room : s.acc.sum + wordsSum m.data < 2 ^ 32) :
    Grown s.acc (ckMbuf s m).acc (wordsSum m.data) ∧ (ckMbuf s m).mlen = 0 ∧
      (ckMbuf s m).len = s.len - m.data.length := by
  obtain ⟨front, rest, a', split, -, done, run, grown⟩ := unrolled_grown room
  obtain rfl := done octets
  rw [List.append_nil] at split
  have straight := @ckData_straight s.acc a' m.data m.addr (s.len - m.data.length) s.c0 []
    (by omega) run
  have unfolded : ckMbuf s m = ckData s.acc m.addr m.data s.c0 (s.len - m.data.length) := by
    unfold ckMbuf
    cases found : m.data with
    | nil => exact absurd found some
    | cons b rest =>
      rw [found] at all
      dsimp only
      rw [if_neg whole]
      dsimp only
      rw [List.take_of_length_le all]
  rw [unfolded, straight, straightEnd, if_pos rfl]
  exact ⟨split ▸ grown, rfl, rfl⟩

theorem ckLoop_grown {m : CkMbuf} (n : Nat) (whole : s.mlen ≠ -1) (even : m.addr % 2 = 0)
    (octets : m.data.length % 8 = 0) (some : m.data ≠ []) (all : n * m.data.length ≤ s.len)
    (room : s.acc.sum + n * wordsSum m.data < 2 ^ 32) :
    Grown s.acc (ckLoop s (List.replicate n m)).acc (n * wordsSum m.data) ∧
      (ckLoop s (List.replicate n m)).mlen ≠ -1 := by
  induction n generalizing s with
  | zero =>
    rw [Nat.zero_mul]
    exact ⟨.refl _, whole⟩
  | succ n ih =>
    have positive := List.length_pos_iff.mpr some
    rw [Nat.succ_mul] at all room
    obtain ⟨grown, mlen, left⟩ := ckMbuf_grown whole even octets some (by lia) (by lia)
    have sum := grown.sum
    obtain ⟨later, last⟩ := ih (by rw [mlen]; decide) (by lia) (by lia)
    rw [List.replicate_succ, ckLoop, if_neg (by lia), Nat.succ_mul, Nat.add_comm]
    exact ⟨grown.trans later, last⟩

/-- Ten bytes, the last two at an odd address, and 35 clusters with 1872 bytes each. -/
def heavy : List CkMbuf :=
  ⟨0, List.replicate 8 255⟩ :: ⟨1, List.replicate 2 255⟩ :: List.replicate 35 ⟨0,
    List.replicate 1872 255⟩

theorem heavy_peak : 2 ^ 31 ≤ (inCksumC heavy 65530).2 := by
  -- the register and the length when the clusters are reached
  obtain ⟨s, loop, sum, mlen, len⟩ : ∃ s,
      ckLoop ⟨⟨0, 0, Nat.le_refl 0⟩, 0, 0, 65530⟩ heavy =
      ckLoop s (List.replicate 35 ⟨0, List.replicate 1872 255⟩) ∧
      s.acc.sum = 16842495 ∧ s.mlen = 0 ∧ s.len = 65520 := by
    have first : (ckMbuf ⟨⟨0, 0, Nat.le_refl 0⟩, 0, 0, 65530⟩ ⟨0, List.replicate 8 255⟩).len =
        65522 := by decide +kernel
    refine ⟨ckMbuf (ckMbuf ⟨⟨0, 0, Nat.le_refl 0⟩, 0, 0, 65530⟩ ⟨0, List.replicate 8 255⟩) ⟨1,
      List.replicate 2 255⟩, ?_, by decide +kernel, by decide +kernel, by decide +kernel⟩
    rw [heavy, ckLoop, if_neg (by decide), ckLoop, if_neg (by lia)]
  have words : wordsSum (List.replicate 1872 255) = 65535 * 936 := wordsSum_replicate 936
  obtain ⟨grown, last⟩ := @ckLoop_grown s ⟨0, List.replicate 1872 255⟩ 35 (by lia) rfl
    (by rw [List.length_replicate])
    (List.ne_nil_of_length_pos (by rw [List.length_replicate]; decide))
      (by rw [List.length_replicate]; lia)
    (by rw [words]; lia)
  have peak := grown.peak
  dsimp only at peak
  rw [words] at peak
  unfold inCksumC
  dsimp only
  rw [loop, if_neg last]
  generalize ckLoop s (List.replicate 35 ⟨0, List.replicate 1872 255⟩) = t at peak ⊢
  have fold : t.acc.peak ≤ t.acc.reduce.peak := Nat.le_max_left _ _
  lia

theorem heavy_length : (heavy.flatMap CkMbuf.data).length = 65530 := by
  have same : ∀ (n : Nat) (m : CkMbuf), ((List.replicate n m).flatMap CkMbuf.data).length =
      n * m.data.length := by
    intro n m
    rw [List.length_flatMap, List.map_replicate, List.sum_replicate_nat]
  rw [heavy, List.flatMap_cons, List.flatMap_cons, List.length_append, List.length_append, same,
    List.length_replicate, List.length_replicate, List.length_replicate]

/-- The register is not always an `int` without overflow. -/
theorem in_cksum_overflows : ¬ ∀ (m : List CkMbuf) (len : Nat), len ≤ 65535 →
    len ≤ (m.flatMap CkMbuf.data).length →
    (inCksumC m len).1 = 65535 - onesSum ((m.flatMap CkMbuf.data).take len) ∧
      (inCksumC m len).2 < 2 ^ 31 := by
  intro claim
  have below := (claim heavy 65530 (by decide) heavy_length.ge).2
  exact absurd below (Nat.not_lt.mpr heavy_peak)

end Chain

end FreeBsd.Netinet
