import FreeBsd.Lib.Rearrange

/-! Heaps in cells that are numbered from 1. -/
namespace FreeBsd.Lib

variable {α : Type} {le : α → α → Prop} {lo n i j k : Nat} {v : Nat → α}

def Child (i j : Nat) : Prop := j = i * 2 ∨ j = i * 2 + 1

/-- Of the cells up to `n`, none is above its parent from `lo` on. -/
def Heap (le : α → α → Prop) (lo n : Nat) (v : Nat → α) : Prop :=
  ∀ i j, lo ≤ i → Child i j → j ≤ n → le (v j) (v i)

/-- The same but for the children of `i`, which are not above the parent of `i`. -/
structure Sinking (le : α → α → Prop) (lo i n : Nat) (v : Nat → α) : Prop where
  others : ∀ k j, lo ≤ k → k ≠ i → Child k j → j ≤ n → le (v j) (v k)
  grand : ∀ k j, lo ≤ k → Child k i → Child i j → j ≤ n → le (v j) (v k)

theorem Heap.sinking (heap : Heap le (i + 1) n v) (root : 1 ≤ i) : Sinking le i i n v := by
  refine ⟨fun k j low other => heap k j (by lia), fun k j low parent => ?_⟩
  rcases parent with eq | eq
  · lia
  · lia

/-- The first cell changes places with the last one, which leaves the heap. -/
theorem Heap.swapped (heap : Heap le 1 (n + 1) v) :
    Sinking le 1 1 n (exchange v 1 (n + 1)) := by
  refine ⟨fun k j low other child last => ?_, fun k j low parent => ?_⟩
  · have apart : j ≠ 1 ∧ j ≠ n + 1 ∧ k ≠ n + 1 := by
      rcases child with eq | eq
      · lia
      · lia
    rw [exchange_other apart.1 apart.2.1, exchange_other other apart.2.2]
    exact heap k j low child (by lia)
  · rcases parent with eq | eq
    · lia
    · lia

namespace Sinking

theorem stop (sinking : Sinking le lo i n v) (above : ∀ j, Child i j → j ≤ n → le (v j) (v i)) :
    Heap le lo n v := by
  intro k j low child last
  by_cases here : k = i
  · rw [here] at child ⊢
    exact above j child last
  · exact sinking.others k j low here child last

theorem down (sinking : Sinking le lo i n v) (root : 1 ≤ i) (low : lo ≤ i) (child : Child i j)
    (inside : j ≤ n) (largest : ∀ k, Child i k → k ≤ n → le (v k) (v j)) (less : le (v i) (v j)) :
      Sinking le lo j n (exchange v i j) := by
  have order : i < j := by
    rcases child with eq | eq
    · lia
    · lia
  refine ⟨fun k m low' other child' last => ?_, fun k m low' parent child' last => ?_⟩
  · by_cases here : k = i
    · rw [here] at child' ⊢
      rw [exchange_left]
      by_cases same : m = j
      · rw [same, exchange_right]
        exact less
      · have apart : m ≠ i := by
          rcases child' with eq | eq
          · lia
          · lia
        rw [exchange_other apart same]
        exact largest m child' last
    · rw [exchange_other here other]
      by_cases top : m = i
      · rw [top, exchange_left]
        rw [top] at child'
        exact sinking.grand k j low' child' child inside
      · have apart : m ≠ j := by
          rintro rfl
          rcases child with eq | eq
          · rcases child' with eq' | eq'
            · lia
            · lia
          · rcases child' with eq' | eq'
            · lia
            · lia
        rw [exchange_other top apart]
        exact sinking.others k m low' here child' last
  · -- the only parent of `j` is `i`, and the children of `j` were below it
    have here : k = i := by
      rcases parent with eq | eq
      · rcases child with eq' | eq'
        · lia
        · lia
      · rcases child with eq' | eq'
        · lia
        · lia
    have apart : m ≠ i ∧ m ≠ j := by
      rcases child' with eq | eq
      · lia
      · lia
    rw [here, exchange_left, exchange_other apart.1 apart.2]
    exact sinking.others j m (by lia) order.ne' child' last

end Sinking

theorem Heap.root (refl : ∀ a, le a a) (trans : ∀ a b c, le a b → le b c → le a c)
    (heap : Heap le 1 n v) (low : 1 ≤ i) (high : i ≤ n) : le (v i) (v 1) := by
  induction i using Nat.strong_induction_on with
  | _ i ih =>
    by_cases first : i = 1
    · rw [first]
      exact refl _
    · have child : Child (i / 2) i := by
        unfold Child
        lia
      exact trans _ _ _ (heap (i / 2) i (by lia) child high) (ih (i / 2) (by lia) (by lia) (by lia))

end FreeBsd.Lib
