import Mathlib.Tactic.IntervalCases
import FreeBsd.Net.BpfValidate

/-! The two packet representations of `bpf_filter` compared: a chain of mbufs and
the flattened bytes in one buffer. A load from a chain has its own code for data
that crosses an mbuf boundary. The exact condition under which it agrees with the
buffer is stated per load and then carried over whole runs. -/
namespace FreeBsd.Net

open FreeBsd.Lib
open Bpf (decode)

theorem data_length (m : Mbuf) : m.data.length = m.len := by
  simp only [Mbuf.data, List.length_map, List.length_range]

theorem data_get {m : Mbuf} {i : Nat} (inside : i < m.len) : m.data[i]? = some (m.mem i) := by
  simp only [Mbuf.data, List.getElem?_map, List.getElem?_range inside, Option.map_some]

@[simp] theorem flat_nil : flat [] = [] := rfl

@[simp] theorem flat_cons (m : Mbuf) (rest : List Mbuf) : flat (m :: rest) = m.data ++ flat rest :=
  List.flatMap_cons

/-- The mbuf `mindex` stops at holds the byte at offset `k` of the flat packet. -/
theorem mindex_some {chain : List Mbuf} {k : Int} {m : Mbuf} {rest : List Mbuf} {j : Int}
    (positive : 0 ≤ k) (found : mindex chain k = some (m, rest, j)) :
    0 ≤ j ∧ j < m.len ∧
      ∃ front, flat chain = front ++ (m.data ++ flat rest) ∧ k = front.length + j := by
  induction chain generalizing k with
  | nil => cases found
  | cons m' chain ih =>
    simp only [mindex] at found
    split at found
    · obtain ⟨low, high, front, split, offset⟩ := ih (by lia) found
      refine ⟨low, high, m'.data ++ front, ?_, ?_⟩
      · rw [flat_cons, split, List.append_assoc]
      · rw [List.length_append, data_length]
        lia
    · simp only [Option.some.injEq, Prod.mk.injEq] at found
      obtain ⟨rfl, rfl, rfl⟩ := found
      exact ⟨positive, by lia, [], by simp, by simp⟩

theorem mindex_none {chain : List Mbuf} {k : Int} (lost : mindex chain k = none) :
    (flat chain).length ≤ k ∨ k < 0 := by
  induction chain generalizing k with
  | nil => simp only [flat_nil, List.length_nil, Nat.cast_zero]; omega
  | cons m chain ih =>
    simp only [mindex] at lost
    split at lost
    · have h := ih lost
      simp only [flat_cons, List.length_append, data_length]
      omega
    · cases lost

/-- The bytes from offset `k` on, read in the mbuf found and in the flat packet. -/
theorem mindex_byte {chain : List Mbuf} {k : Int} {m : Mbuf} {rest : List Mbuf} {j : Int}
    (positive : 0 ≤ k) (found : mindex chain k = some (m, rest, j)) (i : Nat) :
    byteAt (flat chain) (k + i) = (m.data ++ flat rest)[j.toNat + i]? := by
  obtain ⟨low, _, front, split, offset⟩ := mindex_some positive found
  have index : (k + i).toNat = front.length + (j.toNat + i) := by lia
  rw [byteAt, if_neg (by lia), split, index, List.getElem?_append_right (by lia),
    Nat.add_sub_cancel_left]

theorem mindex_byte_here {chain : List Mbuf} {k : Int} {m : Mbuf} {rest : List Mbuf} {j : Int}
    (positive : 0 ≤ k) (found : mindex chain k = some (m, rest, j)) (i : Nat)
    (inside : j + i < m.len) : byteAt (flat chain) (k + i) = some (m.mem (j + i)) := by
  have low := (mindex_some positive found).1
  have below : j.toNat + i < m.len := by lia
  rw [mindex_byte positive found, List.getElem?_append_left (by rw [data_length]; exact below),
    data_get below]
  congr 2
  lia

theorem mindex_byte_next {chain : List Mbuf} {k : Int} {m m0 : Mbuf} {rest : List Mbuf} {j : Int}
    (positive : 0 ≤ k) (found : mindex chain k = some (m, m0 :: rest, j)) (i n : Nat)
    (past : j + i = m.len + n) (inside : n < m0.len) :
    byteAt (flat chain) (k + i) = some (m0.mem n) := by
  have low := (mindex_some positive found).1
  have index : j.toNat + i = m.data.length + n := by rw [data_length]; lia
  rw [mindex_byte positive found, index, List.getElem?_append_right (by lia),
    Nat.add_sub_cancel_left, flat_cons,
    List.getElem?_append_left (by rw [data_length]; exact inside), data_get inside]

theorem byteAt_eq_none {bytes : List Byte} {i : Int} (past : bytes.length ≤ i) :
    byteAt bytes i = none := by
  rw [byteAt]
  split
  · rfl
  · exact List.getElem?_eq_none (by omega)

theorem extractLong_append (a b c d : Byte) : extractLong a b c d = a ++ b ++ c ++ d := by
  apply BitVec.eq_of_getLsbD_eq
  intro i below
  simp only [extractLong, BitVec.getLsbD_or, BitVec.getLsbD_shiftLeft, BitVec.getLsbD_setWidth,
    BitVec.getLsbD_append]
  interval_cases i <;> simp

theorem extractShort_append (a b : Byte) : extractShort a b = (a ++ b).setWidth 32 := by
  apply BitVec.eq_of_getLsbD_eq
  intro i below
  simp only [extractShort, BitVec.getLsbD_or, BitVec.getLsbD_shiftLeft, BitVec.getLsbD_setWidth,
    BitVec.getLsbD_append]
  interval_cases i <;> simp

theorem extractLong_inj {a b c d a' b' c' d' : Byte}
    (same : extractLong a b c d = extractLong a' b' c' d') :
    a = a' ∧ b = b' ∧ c = c' ∧ d = d' := by
  rw [extractLong_append, extractLong_append] at same
  obtain ⟨same, hd⟩ := append_inj same
  obtain ⟨same, hc⟩ := append_inj same
  obtain ⟨ha, hb⟩ := append_inj same
  exact ⟨ha, hb, hc, hd⟩

theorem extractShort_inj {a b a' b' : Byte} (same : extractShort a b = extractShort a' b') :
    a = a' ∧ b = b' := by
  rw [extractShort_append, extractShort_append] at same
  apply append_inj
  have narrow := congrArg (BitVec.setWidth 16) same
  rwa [BitVec.setWidth_setWidth_of_le _ (by decide), BitVec.setWidth_setWidth_of_le _ (by decide),
    BitVec.setWidth_eq, BitVec.setWidth_eq] at narrow

theorem ofChar_eq_iff : ∀ b : Byte, ofChar b = ofUchar b ↔ b.msb = false := by decide

theorem nibble_char : ∀ b : Byte, (ofChar b &&& 0xf) <<< 2 = (ofUchar b &&& 0xf) <<< 2 := by decide

section Tests

variable {bytes : List Byte} {k : Word}

theorem word_test (fits : bytes.length < 2 ^ 32) (positive : 0 ≤ k.toInt) :
    (Packet.buf bytes).buflen < k + 4 ↔ (bytes.length : Int) < k.toInt + 4 := by
  obtain ⟨value, low⟩ := toInt_of_nonneg positive
  have four : (4 : Word).toNat = 4 := rfl
  rw [BitVec.lt_def, BitVec.toNat_add, four, value]
  simp only [Packet.buflen, BitVec.toNat_ofNat]
  lia

theorem half_test (fits : bytes.length < 2 ^ 32) (positive : 0 ≤ k.toInt) :
    (Packet.buf bytes).buflen < k + 2 ↔ (bytes.length : Int) < k.toInt + 2 := by
  obtain ⟨value, low⟩ := toInt_of_nonneg positive
  have two : (2 : Word).toNat = 2 := rfl
  rw [BitVec.lt_def, BitVec.toNat_add, two, value]
  simp only [Packet.buflen, BitVec.toNat_ofNat]
  lia

theorem byte_test (fits : bytes.length < 2 ^ 32) (positive : 0 ≤ k.toInt) :
    (Packet.buf bytes).buflen ≤ k ↔ (bytes.length : Int) ≤ k.toInt := by
  obtain ⟨value, low⟩ := toInt_of_nonneg positive
  rw [BitVec.le_def, value]
  simp only [Packet.buflen, BitVec.toNat_ofNat]
  lia

theorem chain_test (c : List Mbuf) (n : Word) (small : n.toNat = 4 ∨ n.toNat = 2)
    (positive : 0 ≤ k.toInt) : (Packet.chain c).buflen < k + n := by
  obtain ⟨value, low⟩ := toInt_of_nonneg positive
  have none : (0 : Word).toNat = 0 := rfl
  rw [BitVec.lt_def, BitVec.toNat_add]
  simp only [Packet.buflen, none]
  lia

theorem chain_byte_test (c : List Mbuf) : (Packet.chain c).buflen ≤ k := by
  rw [BitVec.le_def]
  exact Nat.zero_le _

end Tests

/-- A word load from a chain agrees with the buffer: it lies in one mbuf, or is
past the end, or the next mbuf holds all the rest and the doubled offset happens
to read the right bytes. -/
def WordOk (c : List Mbuf) (k : Int) : Prop :=
  match mindex c k with
  | none => True
  | some (m, rest, j) =>
    4 ≤ m.len - j ∨ (flat c).length < k + 4 ∨
    match rest with
    | [] => False
    | m0 :: _ =>
      4 ≤ m0.len + m.len - j ∧ ∀ i : Nat, i < m.len - j → m.mem (j + (j + i)) = m.mem (j + i)

/-- A half-word load likewise. Past the end the absolute mode goes on with 0,
and the next mbuf is read even when it is empty. -/
def HalfOk (mode : Bpf.Mode) (c : List Mbuf) (k : Int) : Prop :=
  match mindex c k with
  | none => mode = .ind
  | some (m, rest, j) =>
    2 ≤ m.len - j ∨
    match rest with
    | [] => mode = .ind
    | m0 :: _ => m.mem (j + j) = m.mem j ∧ byteAt (flat c) (k + 1) = some (m0.mem 0)

def ByteOk (mode : Bpf.Mode) (c : List Mbuf) (k : Int) : Prop :=
  match mode, mindex c k with
  | .ind, some (m, _, j) => (m.mem j).msb = false
  | _, _ => True

def LoadOk (size : Bpf.Size) (mode : Bpf.Mode) (c : List Mbuf) (k : Int) : Prop :=
  match size with
  | .w => WordOk c k
  | .h => HalfOk mode c k
  | .b => ByteOk mode c k

section Agree

variable {c : List Mbuf} {k : Word} {m : Mbuf} {rest : List Mbuf} {j : Int}

theorem loadWord_chain (positive : 0 ≤ k.toInt) :
    loadWord (.chain c) k = afterMerr .reject (mXword c k.toInt) := by
  rw [loadWord, if_pos (chain_test c 4 (.inl rfl) positive)]

theorem loadWord_past (nonempty : (Packet.buf (flat c)).buflen ≠ 0)
    (fits : (flat c).length < 2 ^ 32) (positive : 0 ≤ k.toInt)
    (past : ((flat c).length : Int) < k.toInt + 4) : loadWord (.buf (flat c)) k = .reject := by
  simp only [loadWord, if_pos ((word_test fits positive).mpr past), noChain, if_pos nonempty]

theorem loadWord_inside (fits : (flat c).length < 2 ^ 32) (positive : 0 ≤ k.toInt)
    {b0 b1 b2 b3 : Byte} (inside : k.toInt + 4 ≤ (flat c).length)
    (h0 : byteAt (flat c) k.toInt = some b0) (h1 : byteAt (flat c) (k.toInt + 1) = some b1)
    (h2 : byteAt (flat c) (k.toInt + 2) = some b2) (h3 : byteAt (flat c) (k.toInt + 3) = some b3) :
    loadWord (.buf (flat c)) k = .val (extractLong b0 b1 b2 b3) := by
  have test : ¬ (Packet.buf (flat c)).buflen < k + 4 := by
    rw [word_test fits positive]
    omega
  simp only [loadWord, if_neg test, h0, h1, h2, h3]

theorem flat_length (positive : 0 ≤ k.toInt) (found : mindex c k.toInt = some (m, rest, j)) :
    ((flat c).length : Int) = k.toInt + (m.len - j) + (flat rest).length := by
  obtain ⟨_, _, front, split, offset⟩ := mindex_some positive found
  have len := congrArg List.length split
  simp only [List.length_append, data_length] at len
  omega

/-- The straddling cases of `m_xword` against the bytes of the flat packet. -/
theorem straddle_word {m0 : Mbuf} {tail : List Mbuf} (fits : (flat c).length < 2 ^ 32)
    (positive : 0 ≤ k.toInt) (found : mindex c k.toInt = some (m, m0 :: tail, j))
    (part : ¬ 4 ≤ (m.len : Int) - j) (enough : ¬ (m0.len : Int) + m.len - j < 4) :
    ((if (m.len : Int) - j = 1 then
        some (extractLong (m.mem (j + j)) (m0.mem 0) (m0.mem 1) (m0.mem 2))
      else if (m.len : Int) - j = 2 then
        some (extractLong (m.mem (j + j)) (m.mem (j + (j + 1))) (m0.mem 0) (m0.mem 1))
      else
        some (extractLong (m.mem (j + j)) (m.mem (j + (j + 1))) (m.mem (j + (j + 2)))
          (m0.mem 0))).map
        Load.val = some (loadWord (.buf (flat c)) k)) ↔
      ∀ i : Nat, (i : Int) < m.len - j → m.mem (j + (j + i)) = m.mem (j + i) := by
  obtain ⟨low, high, -⟩ := mindex_some positive found
  have len := flat_length positive found
  simp only [flat_cons, List.length_append, data_length, Nat.cast_add] at len
  have here := mindex_byte_here positive found
  have next := mindex_byte_next positive found
  have h0 := here 0 (by simpa using high)
  simp only [Nat.cast_zero, add_zero] at h0
  by_cases one : (m.len : Int) - j = 1
  · have g1 := next 1 0 (by lia) (by lia)
    have g2 := next 2 1 (by lia) (by lia)
    have g3 := next 3 2 (by lia) (by lia)
    rw [if_pos one, loadWord_inside fits positive (by lia) h0 g1 g2 g3]
    simp only [Option.map_some, Option.some.injEq, Load.val.injEq]
    constructor
    · intro same i below
      have zero : i = 0 := by lia
      subst zero
      simpa using (extractLong_inj same).1
    · intro same
      have b0 := same 0 (by lia)
      simp only [Nat.cast_zero, add_zero] at b0
      rw [b0]
      rfl
  · by_cases two : (m.len : Int) - j = 2
    · have g1 := here 1 (by lia)
      have g2 := next 2 0 (by lia) (by lia)
      have g3 := next 3 1 (by lia) (by lia)
      rw [if_neg one, if_pos two, loadWord_inside fits positive (by lia) h0 g1 g2 g3]
      simp only [Option.map_some, Option.some.injEq, Load.val.injEq]
      constructor
      · intro same i below
        obtain ⟨b0, b1, -⟩ := extractLong_inj same
        have index : i = 0 ∨ i = 1 := by lia
        rcases index with rfl | rfl
        · simpa using b0
        · exact b1
      · intro same
        have b0 := same 0 (by lia)
        have b1 := same 1 (by lia)
        simp only [Nat.cast_zero, add_zero, Nat.cast_one] at b0 b1
        rw [b0, b1]
        rfl
    · have g1 := here 1 (by lia)
      have g2 := here 2 (by lia)
      have g3 := next 3 0 (by lia) (by lia)
      rw [if_neg one, if_neg two, loadWord_inside fits positive (by lia) h0 g1 g2 g3]
      simp only [Option.map_some, Option.some.injEq, Load.val.injEq]
      constructor
      · intro same i below
        obtain ⟨b0, b1, b2, -⟩ := extractLong_inj same
        have index : i = 0 ∨ i = 1 ∨ i = 2 := by lia
        rcases index with rfl | rfl | rfl
        · simpa using b0
        · exact b1
        · exact b2
      · intro same
        have b0 := same 0 (by lia)
        have b1 := same 1 (by lia)
        have b2 := same 2 (by lia)
        simp only [Nat.cast_zero, add_zero, Nat.cast_one, Nat.cast_ofNat] at b0 b1 b2
        rw [b0, b1, b2]
        rfl

theorem loadWord_agrees (nonempty : (Packet.buf (flat c)).buflen ≠ 0)
    (fits : (flat c).length < 2 ^ 32) (positive : 0 ≤ k.toInt) :
    loadWord (.chain c) k = loadWord (.buf (flat c)) k ↔ WordOk c k.toInt := by
  rw [loadWord_chain positive]
  cases found : mindex c k.toInt with
  | none =>
    have past : ((flat c).length : Int) < k.toInt + 4 := by
      have := mindex_none found
      lia
    simp only [mXword, found, WordOk, loadWord_past nonempty fits positive past, afterMerr_none]
  | some at_k =>
    obtain ⟨m, rest, j⟩ := at_k
    obtain ⟨low, high, -⟩ := mindex_some positive found
    have len := flat_length positive found
    have here := mindex_byte_here positive found
    have h0 := here 0 (by simpa using high)
    simp only [Nat.cast_zero, add_zero] at h0
    simp only [mXword, found, WordOk]
    by_cases whole : 4 ≤ (m.len : Int) - j
    · have h1 := here 1 (by lia)
      have h2 := here 2 (by lia)
      have h3 := here 3 (by lia)
      rw [loadWord_inside fits positive (by lia) h0 h1 h2 h3]
      simp [whole]
    · rw [if_neg whole]
      by_cases past : ((flat c).length : Int) < k.toInt + 4
      · rw [loadWord_past nonempty fits positive past]
        cases rest with
        | nil => simp [past]
        | cons m0 tail =>
          simp only [flat_cons, List.length_append, data_length, Nat.cast_add] at len
          have short : (m0.len : Int) + m.len - j < 4 := by lia
          simp [past, short]
      · cases rest with
        | nil =>
          simp only [flat_nil, List.length_nil, Nat.cast_zero] at len
          lia
        | cons m0 tail =>
          simp only [whole, past, false_or]
          by_cases short : (m0.len : Int) + m.len - j < 4
          · obtain ⟨b0, g0⟩ := byteAt_in_range (flat c) (i := k.toInt) positive (by lia)
            obtain ⟨b1, g1⟩ := byteAt_in_range (flat c) (i := k.toInt + 1) (by lia) (by lia)
            obtain ⟨b2, g2⟩ := byteAt_in_range (flat c) (i := k.toInt + 2) (by lia) (by lia)
            obtain ⟨b3, g3⟩ := byteAt_in_range (flat c) (i := k.toInt + 3) (by lia) (by lia)
            rw [loadWord_inside fits positive (by lia) g0 g1 g2 g3, if_pos short]
            simp only [afterMerr_none, reduceCtorEq, false_iff, not_and]
            intro enough
            lia
          · have bytes := straddle_word fits positive found whole short
            rw [if_neg short, ← bytes]
            split_ifs <;> simp [not_lt.mp short]

theorem loadHalf_past {mode : Bpf.Mode} (nonempty : (Packet.buf (flat c)).buflen ≠ 0)
    (fits : (flat c).length < 2 ^ 32) (positive : 0 ≤ k.toInt)
    (past : ((flat c).length : Int) < k.toInt + 2) :
    loadHalf mode (.buf (flat c)) k = .reject := by
  simp only [loadHalf, if_pos ((half_test fits positive).mpr past), noChain, if_pos nonempty]

theorem loadHalf_inside {mode : Bpf.Mode} (fits : (flat c).length < 2 ^ 32)
    (positive : 0 ≤ k.toInt) {b0 b1 : Byte} (inside : k.toInt + 2 ≤ (flat c).length)
    (h0 : byteAt (flat c) k.toInt = some b0) (h1 : byteAt (flat c) (k.toInt + 1) = some b1) :
    loadHalf mode (.buf (flat c)) k = .val (extractShort b0 b1) := by
  have test : ¬ (Packet.buf (flat c)).buflen < k + 2 := by
    rw [half_test fits positive]
    omega
  simp only [loadHalf, if_neg test, h0, h1]

theorem loadHalf_chain (mode : Bpf.Mode) (positive : 0 ≤ k.toInt) :
    loadHalf mode (.chain c) k = afterMerr (badHalf mode) (mXhalf c k.toInt) := by
  rw [loadHalf, if_pos (chain_test c 2 (.inr rfl) positive)]

theorem badHalf_reject (mode : Bpf.Mode) : badHalf mode = .reject ↔ mode = .ind := by
  cases mode <;> simp [badHalf]

theorem loadHalf_agrees (mode : Bpf.Mode) (nonempty : (Packet.buf (flat c)).buflen ≠ 0)
    (fits : (flat c).length < 2 ^ 32) (positive : 0 ≤ k.toInt) :
    loadHalf mode (.chain c) k = loadHalf mode (.buf (flat c)) k ↔ HalfOk mode c k.toInt := by
  rw [loadHalf_chain mode positive]
  cases found : mindex c k.toInt with
  | none =>
    have past : ((flat c).length : Int) < k.toInt + 2 := by
      have := mindex_none found
      lia
    rw [loadHalf_past nonempty fits positive past]
    simp only [mXhalf, found, HalfOk, afterMerr_none, badHalf_reject]
  | some at_k =>
    obtain ⟨m, rest, j⟩ := at_k
    obtain ⟨low, high, -⟩ := mindex_some positive found
    have len := flat_length positive found
    have here := mindex_byte_here positive found
    have h0 := here 0 (by simpa using high)
    simp only [Nat.cast_zero, add_zero] at h0
    simp only [mXhalf, found, HalfOk]
    by_cases whole : 2 ≤ (m.len : Int) - j
    · have h1 := here 1 (by lia)
      rw [loadHalf_inside fits positive (by lia) h0 h1]
      simp [whole]
    · simp only [if_neg whole]
      cases rest with
      | nil =>
        simp only [flat_nil, List.length_nil, Nat.cast_zero] at len
        rw [loadHalf_past nonempty fits positive (by lia)]
        simp only [afterMerr_none, badHalf_reject, whole, false_or]
      | cons m0 tail =>
        by_cases past : ((flat c).length : Int) < k.toInt + 2
        · have gone : byteAt (flat c) (k.toInt + 1) = none := byteAt_eq_none (by lia)
          rw [loadHalf_past nonempty fits positive past]
          simp [whole, gone]
        · obtain ⟨b1, h1⟩ := byteAt_in_range (flat c) (i := k.toInt + 1) (by lia) (by lia)
          rw [loadHalf_inside fits positive (by lia) h0 h1]
          simp only [afterMerr_some, whole, false_or, h1, Load.val.injEq, Option.some.injEq]
          constructor
          · intro same
            obtain ⟨first, second⟩ := extractShort_inj same
            exact ⟨first, second.symm⟩
          · rintro ⟨first, second⟩
            rw [first, second]

theorem loadByte_agrees (ofByte ofChain : Byte → Word)
    (nonempty : (Packet.buf (flat c)).buflen ≠ 0)
    (fits : (flat c).length < 2 ^ 32) (positive : 0 ≤ k.toInt) :
    loadByte ofByte ofChain (.chain c) k = loadByte ofByte ofChain (.buf (flat c)) k ↔
      ∀ m rest j, mindex c k.toInt = some (m, rest, j) → ofChain (m.mem j) = ofByte (m.mem j) := by
  have test := chain_byte_test (k := k) c
  cases found : mindex c k.toInt with
  | none =>
    have past : ((flat c).length : Int) ≤ k.toInt := by
      have := mindex_none found
      lia
    simp only [loadByte, if_pos test, found, if_pos ((byte_test fits positive).mpr past), noChain,
      if_pos nonempty]
    simp
  | some at_k =>
    obtain ⟨m, rest, j⟩ := at_k
    obtain ⟨low, high, -⟩ := mindex_some positive found
    have len := flat_length positive found
    have h0 := mindex_byte_here positive found 0 (by simpa using high)
    simp only [Nat.cast_zero, add_zero] at h0
    have inside : ¬ (Packet.buf (flat c)).buflen ≤ k := by
      rw [byte_test fits positive]
      lia
    simp only [loadByte, if_pos test, found, if_neg inside, h0, Load.val.injEq, Option.some.injEq,
      Prod.mk.injEq]
    constructor
    · rintro same _ _ _ ⟨rfl, rfl, rfl⟩
      exact same
    · intro same
      exact same m rest j ⟨rfl, rfl, rfl⟩

/-- Exactly when a load from the chain agrees with the load from the bytes. -/
theorem loadPacket_agrees (size : Bpf.Size) (mode : Bpf.Mode)
    (nonempty : (Packet.buf (flat c)).buflen ≠ 0)
    (fits : (flat c).length < 2 ^ 32) (positive : 0 ≤ k.toInt) :
    loadPacket size mode (.chain c) k = loadPacket size mode (.buf (flat c)) k ↔
      LoadOk size mode c k.toInt := by
  cases size with
  | w => exact loadWord_agrees nonempty fits positive
  | h => exact loadHalf_agrees mode nonempty fits positive
  | b =>
    cases mode with
    | abs =>
      simp only [loadPacket, loadByte_agrees _ _ nonempty fits positive, LoadOk, ByteOk]
      simp
    | ind =>
      simp only [loadPacket, loadByte_agrees _ _ nonempty fits positive, LoadOk, ByteOk,
        ofChar_eq_iff]
      cases found : mindex c k.toInt with
      | none => simp
      | some at_k =>
        obtain ⟨m, rest, j⟩ := at_k
        simp only [Option.some.injEq, Prod.mk.injEq]
        constructor
        · intro all
          exact all m rest j ⟨rfl, rfl, rfl⟩
        · rintro here _ _ _ ⟨rfl, rfl, rfl⟩
          exact here

theorem loadMsh_agrees (nonempty : (Packet.buf (flat c)).buflen ≠ 0)
    (fits : (flat c).length < 2 ^ 32) (positive : 0 ≤ k.toInt) :
    loadMsh (.chain c) k = loadMsh (.buf (flat c)) k := by
  unfold loadMsh
  apply (loadByte_agrees _ _ nonempty fits positive).mpr
  intro m rest j found
  exact nibble_char (m.mem j)

end Agree

/-- The packet loads the instruction at `pc` makes have non-negative offsets. -/
def NonNegative (f : List BpfInsn) (s : Filter) : Prop :=
  ∀ i op, fetch f s.pc = some i → decode i.code = some op →
    match op with
    | .load _ mode => 0 ≤ (mode.offset i s).toInt
    | .ldxMsh => 0 ≤ i.k.toInt
    | _ => True

/-- The packet load the instruction at `pc` makes meets its condition. -/
def LoadsOk (f : List BpfInsn) (c : List Mbuf) (s : Filter) : Prop :=
  ∀ i size mode, fetch f s.pc = some i → decode i.code = some (.load size mode) →
    LoadOk size mode c (mode.offset i s).toInt

theorem afterLoad_inj {s : Filter} {l l' : Load}
    (same : afterLoad l (fun v => { s with A := v }) = afterLoad l' (fun v => { s with A := v })) :
    l = l' := by
  cases l <;> cases l' <;> simp_all [afterLoad, Filter.go]

theorem loadsOk_of_other {f : List BpfInsn} {c : List Mbuf} {s : Filter} {i : BpfInsn}
    (at_pc : fetch f s.pc = some i) (other : ∀ size mode, decode i.code ≠ some (.load size mode)) :
    LoadsOk f c s := by
  intro i' size mode at_pc' selected
  cases Option.some.inj (at_pc.symm.trans at_pc')
  exact absurd selected (other size mode)

/-- One step on the chain is the step on the bytes exactly when its load is. -/
theorem step_agrees {f : List BpfInsn} {c : List Mbuf} {wirelen : Word} {s : Filter}
    (nonempty : flat c ≠ []) (fits : (flat c).length < 2 ^ 32) (offsets : NonNegative f s) :
    filterStep f (.buf (flat c)) wirelen s = filterStep f (.chain c) wirelen s ↔
      LoadsOk f c s := by
  have buflen := buflen_ne_zero nonempty fits
  cases at_pc : fetch f s.pc with
  | none => simp [filterStep, at_pc, LoadsOk]
  | some i =>
    cases selected : decode i.code with
    | none =>
      have ok : LoadsOk f c s := loadsOk_of_other at_pc (by simp [selected])
      simp only [filterStep, at_pc, selected, ok]
    | some op =>
      have offset := offsets i op at_pc selected
      simp only [filterStep, at_pc, selected]
      cases op with
      | load size mode =>
        have agrees := loadPacket_agrees size mode buflen fits offset
        constructor
        · intro same i' size' mode' at_pc' selected'
          cases Option.some.inj (at_pc.symm.trans at_pc')
          cases Option.some.inj (selected.symm.trans selected')
          exact agrees.mp (afterLoad_inj same).symm
        · intro ok
          simp only [exec, agrees.mpr (ok i size mode at_pc selected)]
      | ldxMsh =>
        have ok : LoadsOk f c s := loadsOk_of_other at_pc (by simp [selected])
        simp only [exec, loadMsh_agrees buflen fits offset, ok]
      | alu o src =>
        have ok : LoadsOk f c s := loadsOk_of_other at_pc (by simp [selected])
        cases o <;> cases src <;> simp only [exec, ok]
      | _ =>
        have ok : LoadsOk f c s := loadsOk_of_other at_pc (by simp [selected])
        simp only [exec, ok]

/-- Over a whole run: the chain and the bytes go through the same states exactly
when every load of the run meets its condition, and then both calls return the
same value (or neither returns), whatever the split. -/
theorem bpfFilter_chain_agrees (f : List BpfInsn) (c : List Mbuf) (nonempty : flat c ≠ [])
    (fits : (flat c).length < 2 ^ 32) (wirelen A X : Word) (mem : Fin Bpf.memWords → Word)
    (offsets : ∀ s, Reaches (filterStep f (.buf (flat c)) wirelen) ⟨0, A, X, mem⟩ s →
      NonNegative f s) :
    ((∀ s, Reaches (filterStep f (.buf (flat c)) wirelen) ⟨0, A, X, mem⟩ s → LoadsOk f c s) →
      ∀ fuel, bpfFilter (some f) (.chain c) wirelen A X mem fuel =
        bpfFilter (some f) (.buf (flat c)) wirelen A X mem fuel) ∧
    ((∀ s, Reaches (filterStep f (.buf (flat c)) wirelen) ⟨0, A, X, mem⟩ s →
        filterStep f (.buf (flat c)) wirelen s = filterStep f (.chain c) wirelen s) ↔
      ∀ s, Reaches (filterStep f (.buf (flat c)) wirelen) ⟨0, A, X, mem⟩ s → LoadsOk f c s) := by
  have step : ∀ s, Reaches (filterStep f (.buf (flat c)) wirelen) ⟨0, A, X, mem⟩ s →
      (filterStep f (.buf (flat c)) wirelen s = filterStep f (.chain c) wirelen s ↔
        LoadsOk f c s) :=
    fun s reached => step_agrees nonempty fits (offsets s reached)
  constructor
  · intro ok fuel
    exact (run_congr (fun s reached => (step s reached).mpr (ok s reached)) fuel).symm
  · constructor
    · intro same s reached
      exact (step s reached).mp (same s reached)
    · intro ok s reached
      exact (step s reached).mpr (ok s reached)

def mbufOf (data : List Byte) : Mbuf := ⟨data.length, fun i => data.getD i.toNat 0⟩

/-- One load with the given code at offset `k`, then return `A`. -/
def loadReturn (code : BitVec 16) (k : Word) : List BpfInsn :=
  [⟨code, 0, 0, k⟩, ⟨Bpf.RET ||| Bpf.A, 0, 0, 0⟩]

theorem loadReturn_fetch {code : BitVec 16} {k : Word} {pc : Int} {i : BpfInsn}
    (at_pc : fetch (loadReturn code k) pc = some i) :
    i = ⟨code, 0, 0, k⟩ ∨ i = ⟨Bpf.RET ||| Bpf.A, 0, 0, 0⟩ := by
  simpa [loadReturn] using List.mem_of_getElem? (fetch_eq_some at_pc).2.2

/-- A word that starts an mbuf and ends in the next one, on either path. -/
theorem bpfFilter_chain_agrees_split :
    bpfValidate (loadReturn (Bpf.LD ||| Bpf.W ||| Bpf.ABS) 2) = true ∧
    ∀ fuel, bpfFilter (some (loadReturn (Bpf.LD ||| Bpf.W ||| Bpf.ABS) 2))
        (.chain [mbufOf [1, 2], mbufOf [3, 4], mbufOf [5, 6]]) 6 0 0 (fun _ => 0) fuel =
      bpfFilter (some (loadReturn (Bpf.LD ||| Bpf.W ||| Bpf.ABS) 2))
        (.buf (flat [mbufOf [1, 2], mbufOf [3, 4], mbufOf [5, 6]])) 6 0 0 (fun _ => 0) fuel := by
  refine ⟨by decide, (bpfFilter_chain_agrees _ _ (by decide) (by decide) _ _ _ _ ?_).1 ?_⟩
  · intro s _ i op at_pc selected
    have code := (Bpf.decode_eq_some_iff _ _).mp selected
    rcases loadReturn_fetch at_pc with rfl | rfl
    · cases Option.some.inj (selected.symm.trans (show _ = some (.load .w .abs) by decide))
      simp only [Bpf.Mode.offset]
      decide
    · cases Option.some.inj (selected.symm.trans (show _ = some .retA by decide))
      trivial
  · intro s _ i size mode at_pc selected
    rcases loadReturn_fetch at_pc with rfl | rfl
    · cases Option.some.inj (selected.symm.trans (show _ = some (.load .w .abs) by decide))
      refine .inr (.inr ⟨by simp only [Bpf.Mode.offset]; decide, ?_⟩)
      intro i below
      have index : i = 0 ∨ i = 1 := by
        simp only [mbufOf, List.length_cons, List.length_nil, Bpf.Mode.offset] at below
        have two : (2 : Word).toInt = 2 := rfl
        omega
      rcases index with rfl | rfl <;> rfl
    · cases Option.some.inj (selected.symm.trans (show _ = some .retA by decide))

/-- Three loads on which the paths part: a word across a boundary, a half word
past the end, and an indexed byte with its top bit set. -/
theorem bpfFilter_chain_differs :
    (bpfValidate (loadReturn (Bpf.LD ||| Bpf.W ||| Bpf.ABS) 1) = true ∧
      bpfFilter (some (loadReturn (Bpf.LD ||| Bpf.W ||| Bpf.ABS) 1))
        (.chain [mbufOf [1, 2], mbufOf [3, 4, 5]]) 5 0 0 (fun _ => 0) 2 =
          some (.ret 0x00030405) ∧
      bpfFilter (some (loadReturn (Bpf.LD ||| Bpf.W ||| Bpf.ABS) 1))
        (.buf (flat [mbufOf [1, 2], mbufOf [3, 4, 5]])) 5 0 0 (fun _ => 0) 2 =
          some (.ret 0x02030405)) ∧
    (bpfFilter (some [⟨Bpf.LD ||| Bpf.H ||| Bpf.ABS, 0, 0, 9⟩, ⟨Bpf.RET ||| Bpf.K, 0, 0, 1⟩])
        (.chain [mbufOf [1, 2]]) 2 0 0 (fun _ => 0) 2 = some (.ret 1) ∧
      bpfFilter (some [⟨Bpf.LD ||| Bpf.H ||| Bpf.ABS, 0, 0, 9⟩, ⟨Bpf.RET ||| Bpf.K, 0, 0, 1⟩])
        (.buf (flat [mbufOf [1, 2]])) 2 0 0 (fun _ => 0) 2 = some (.ret 0)) ∧
    (bpfFilter (some (loadReturn (Bpf.LD ||| Bpf.B ||| Bpf.IND) 0))
        (.chain [mbufOf [0x80]]) 1 0 0 (fun _ => 0) 2 = some (.ret 0xffffff80) ∧
      bpfFilter (some (loadReturn (Bpf.LD ||| Bpf.B ||| Bpf.IND) 0))
        (.buf (flat [mbufOf [0x80]])) 1 0 0 (fun _ => 0) 2 = some (.ret 0x80)) := by
  decide

end FreeBsd.Net
