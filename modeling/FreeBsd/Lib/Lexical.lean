import Mathlib.Data.Nat.Find
import Mathlib.Order.Basic
import Mathlib.Tactic.Common

/-! Sequences of numbers that end with a zero, in lexicographic order. -/
namespace FreeBsd.Lib

variable {x y z : Nat → Nat} {d i k : Nat}

/-- Both sequences go on, and are the same, from `d` to `i`. -/
def Agree (d i : Nat) (x y : Nat → Nat) : Prop := ∀ k, d ≤ k → k < i → x k = y k ∧ x k ≠ 0

/-- From `d` on, `x` comes not after `y`: where they have been the same it is not the larger one. -/
def NotAfter (d : Nat) (x y : Nat → Nat) : Prop := ∀ i, d ≤ i → Agree d i x y → x i ≤ y i

theorem Agree.start (d : Nat) (x y : Nat → Nat) : Agree d d x y :=
  fun _ low high => absurd high (Nat.not_lt.mpr low)

theorem Agree.succ (agree : Agree d i x y) (same : x i = y i) (more : x i ≠ 0) :
    Agree d (i + 1) x y := by
  intro k low high
  by_cases last : k = i
  · rw [last]
    exact ⟨same, more⟩
  · exact agree k low (by omega)

namespace NotAfter

theorem trans (first : NotAfter d x y) (second : NotAfter d y z) : NotAfter d x z := by
  intro i low agree
  -- `y` lies between two sequences that are the same up to `i`
  have between : ∀ k, k ≤ i → Agree d k x y ∧ Agree d k y z := by
    intro k
    induction k with
    | zero => exact fun _ => ⟨fun j _ high => absurd high (Nat.not_lt_zero j),
      fun j _ high => absurd high (Nat.not_lt_zero j)⟩
    | succ k ih =>
      intro below
      obtain ⟨left, right⟩ := ih (by lia)
      by_cases early : k < d
      · exact ⟨fun j low' high => absurd low' (by lia), fun j low' high => absurd low' (by lia)⟩
      · have from' : d ≤ k := Nat.le_of_not_lt early
        obtain ⟨same, more⟩ := agree k from' (by lia)
        have up := first k from' left
        have down := second k from' right
        have here : x k = y k := by lia
        exact ⟨left.succ here more, right.succ (by lia) (here ▸ more)⟩
  obtain ⟨left, right⟩ := between i (Nat.le_refl i)
  exact (first i low left).trans (second i low right)

theorem total (after : ¬ NotAfter d x y) : NotAfter d y x := by
  unfold NotAfter at after
  push Not at after
  obtain ⟨i, low, agree, more⟩ := after
  intro j low' agree'
  rcases Nat.lt_trichotomy j i with before | rfl | behind
  · exact (agree j low' before).1.ge
  · exact more.le
  · exact absurd (agree' i low behind).1 more.ne

theorem of_lt (less : x d < y d) : NotAfter d x y := by
  intro i low agree
  by_cases here : i = d
  · rw [here]
    exact less.le
  · exact absurd (agree d (Nat.le_refl d) (by omega)).1 less.ne

theorem of_end (first : x d = 0) : NotAfter d x y := by
  intro i low agree
  by_cases here : i = d
  · rw [here, first]
    exact Nat.zero_le _
  · exact absurd first (agree d (Nat.le_refl d) (by omega)).2

/-- Sequences that are the same up to `d` are compared from there on. -/
theorem of_agree (agree : Agree 0 d x y) (rest : NotAfter d x y) : NotAfter 0 x y := by
  intro i _ agree'
  by_cases early : i < d
  · exact (agree i (Nat.zero_le i) early).1.le
  · exact rest i (Nat.le_of_not_lt early) fun k _ high => agree' k (Nat.zero_le k) high

theorem of_succ (same : x d = y d) (rest : NotAfter (d + 1) x y) : NotAfter d x y := by
  intro i low agree
  by_cases here : i = d
  · rw [here]
    exact same.le
  · exact rest i (by omega) fun k low' high => agree k (by omega) high

theorem succ (order : NotAfter d x y) (same : x d = y d) (more : x d ≠ 0) :
    NotAfter (d + 1) x y := by
  intro i low agree
  refine order i (by omega) fun k low' high => ?_
  by_cases here : k = d
  · rw [here]
    exact ⟨same, more⟩
  · exact agree k (by omega) high

end NotAfter

def upTo (x : Nat → Nat) (ends : ∃ i, x i = 0) : List Nat := (List.range (Nat.find ends)).map x

theorem upTo_length (ends : ∃ i, x i = 0) : (upTo x ends).length = Nat.find ends := by
  rw [upTo, List.length_map, List.length_range]

theorem upTo_get (ends : ∃ i, x i = 0) (inside : i < (upTo x ends).length) :
    (upTo x ends)[i] = x i := by
  simp only [upTo, List.getElem_map, List.getElem_range]

theorem notAfter_iff (endX : ∃ i, x i = 0) (endY : ∃ i, y i = 0) :
    NotAfter 0 x y ↔ List.le (upTo x endX) (upTo y endY) := by
  have moreX {k : Nat} (less : k < Nat.find endX) : x k ≠ 0 := Nat.find_min endX less
  have moreY {k : Nat} (less : k < Nat.find endY) : y k ≠ 0 := Nat.find_min endY less
  refine Iff.trans ?_ List.le_iff_exists.symm
  constructor
  · intro order
    by_cases pre : ∀ k, k < Nat.find endX → k < Nat.find endY ∧ x k = y k
    · left
      refine List.ext_getElem ?_ fun k first second => ?_
      · rw [List.length_take, upTo_length, upTo_length]
        by_cases some : Nat.find endX = 0
        · rw [some, Nat.zero_min]
        · have last := (pre (Nat.find endX - 1) (by lia)).1
          lia
      · rw [List.getElem_take, upTo_get, upTo_get]
        rw [upTo_length] at first
        exact (pre k first).2
    · right
      push Not at pre
      obtain ⟨⟨inside, differ⟩, least⟩ :=
        And.intro (Nat.find_spec pre) fun m (less : m < Nat.find pre) => Nat.find_min pre less
      generalize Nat.find pre = k at inside differ least
      have before : ∀ j, j < k → j < Nat.find endY ∧ x j = y j := by
        intro j less
        by_contra wrong
        exact least j less ⟨by lia, fun insideY same => wrong ⟨insideY, same⟩⟩
      have up := order k (Nat.zero_le k) fun j _ less => ⟨(before j less).2, moreX (by lia)⟩
      have insideY : k < Nat.find endY := by
        by_contra past
        have here : k = Nat.find endY := by
          by_cases zero : k = 0
          · lia
          · have last := (before (k - 1) (by lia)).1
            lia
        have zero : y k = 0 := here ▸ Nat.find_spec endY
        exact moreX inside (by lia)
      refine ⟨k, by rw [upTo_length]; exact inside, by rw [upTo_length]; exact insideY, fun j less => ?_, ?_⟩
      · rw [upTo_get, upTo_get]
        exact (before j less).2
      · rw [upTo_get, upTo_get]
        exact Nat.lt_of_le_of_ne up (differ insideY)
  · rintro (pre | ⟨k, first, second, before, less⟩) i - agree
    · have long : i ≤ Nat.find endX := by
        by_contra past
        exact (agree (Nat.find endX) (Nat.zero_le _) (by lia)).2 (Nat.find_spec endX)
      have shorter : Nat.find endX ≤ Nat.find endY := by
        have lengths := congrArg List.length pre
        rw [List.length_take, upTo_length, upTo_length] at lengths
        lia
      by_cases last : i = Nat.find endX
      · rw [last, Nat.find_spec endX]
        exact Nat.zero_le _
      · have inside : i < (upTo x endX).length := by
          rw [upTo_length]
          lia
        have insideY : i < (upTo y endY).length := by
          rw [upTo_length]
          lia
        have same : (upTo x endX)[i]? = (upTo y endY)[i]? := by
          rw [pre, List.getElem?_take_of_lt inside]
        rw [List.getElem?_eq_getElem inside, List.getElem?_eq_getElem insideY, upTo_get,
          upTo_get] at same
        exact (Option.some.inj same).le
    · rw [upTo_get, upTo_get] at less
      rcases Nat.lt_trichotomy i k with early | rfl | late
      · have same := before i early
        rw [upTo_get, upTo_get] at same
        exact same.le
      · exact less.le
      · exact absurd (agree k (Nat.zero_le k) late).1 less.ne

end FreeBsd.Lib
