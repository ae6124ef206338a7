import FreeBsd.Lib.Heap
import FreeBsd.Stdlib.Qsort
import Mathlib.Tactic.Ring

/-! `heapsort`: a heap of elements that are numbered from 1, so that their addresses count from
`size` bytes below the first one. -/
namespace FreeBsd.Stdlib
open FreeBsd.Lib

section Model

def EINVAL : Nat := 22

structure Sorted where
  mem : Memory
  errno : Nat
  ret : Int

variable {size : Nat} (compar : Element size → Element size → Int)

/-- `HEAP(i)`, `none` where the fuel does not last. `j` is compared with a `size_t`. -/
def HEAP (nmemb : Nat) : (fuel : Nat) → (mem : Memory) → (i : Nat) → Option Memory
  | 0, _, _ => none
  | fuel + 1, mem, i =>
    let j := i * 2 % 2 ^ 32
    if j ≤ nmemb then
      let p :=
        if j < nmemb ∧ compar (elements size mem j) (elements size mem (j + 1)) < 0 then j + 1
        else j
      if compar (elements size mem p) (elements size mem i) ≤ 0 then some mem
      else HEAP nmemb fuel (SWAP size mem i p) p
    else some mem

/-- The loop that builds the heap, with `l` elements to go. -/
def build (fuel nmemb : Nat) : (l : Nat) → (mem : Memory) → Option Memory
  | 0, mem => some mem
  | l + 1, mem => (HEAP compar nmemb fuel mem (l + 1)).bind fun mem => build fuel nmemb l mem

def extract (fuel : Nat) : (nmemb : Nat) → (mem : Memory) → Option Memory
  | 0, mem => some mem
  | n + 1, mem =>
    if 1 < n + 1 then (HEAP compar n fuel (SWAP size mem 1 (n + 1)) 1).bind fun mem =>
      extract fuel n mem else some mem

def heapsort (fuel : Nat) (mem : Memory) (nmemb errno : Nat) : Option Sorted :=
  if nmemb ≤ 1 then some ⟨mem, errno, 0⟩
  else if size = 0 then some ⟨mem, EINVAL, -1⟩
  else ((build compar fuel nmemb (nmemb / 2) mem).bind fun mem => extract compar fuel nmemb mem).map
    fun mem => ⟨mem, errno, 0⟩

end Model

section Sorting

variable {size nmemb fuel i l : Nat} {compar : Element size → Element size → Int} {mem : Memory}

theorem TotalPreorder.of_not_lt (order : TotalPreorder compar) {a b : Element size}
    (not : ¬ compar a b < 0) :
    le compar b a := by
  by_contra more
  exact not (order.total more)

theorem HEAP_spec {lo : Nat} (order : TotalPreorder compar) (few : nmemb < 2 ^ 30) (root : 1 ≤ lo)
    (low : lo ≤ i) (inside : i ≤ nmemb)
    (sinking : Sinking (le compar) lo i nmemb (elements size mem)) (enough : nmemb < i + fuel) :
    ∃ mem', HEAP compar nmemb fuel mem i = some mem' ∧
      Heap (le compar) lo nmemb (elements size mem') ∧
      Rearranges lo (nmemb + 1) (elements size mem) (elements size mem') := by
  induction fuel generalizing mem i with
  | zero => lia
  | succ fuel ih =>
    have exact' : i * 2 % 2 ^ 32 = i * 2 := Nat.mod_eq_of_lt (by lia)
    rw [HEAP, exact']
    by_cases parent : i * 2 ≤ nmemb
    · rw [if_pos parent]
      obtain ⟨p, eq, child, last, largest⟩ : ∃ p,
          (if i * 2 < nmemb ∧
              compar (elements size mem (i * 2)) (elements size mem (i * 2 + 1)) < 0 then
             i * 2 + 1
           else i * 2) = p ∧
          Child i p ∧ p ≤ nmemb ∧ ∀ k, Child i k → k ≤ nmemb →
            le compar (elements size mem k) (elements size mem p) := by
        split
        · rename_i second
          refine ⟨_, rfl, .inr rfl, second.1, fun k child _ => ?_⟩
          rcases child with rfl | rfl
          · exact second.2.le
          · exact order.self _
        · rename_i first
          refine ⟨_, rfl, .inl rfl, parent, fun k child last => ?_⟩
          rcases child with rfl | rfl
          · exact order.self _
          · exact order.of_not_lt fun less => first ⟨last, less⟩
      rw [eq]
      by_cases stops : compar (elements size mem p) (elements size mem i) ≤ 0
      · rw [if_pos stops]
        refine ⟨mem, rfl, sinking.stop fun k child last => order.trans _ _ _ (largest k child last)
          stops, .refl _ _ _⟩
      · rw [if_neg stops]
        have below : i < p := by
          rcases child with rfl | rfl
          · lia
          · lia
        have swapped := @elements_SWAP size i p mem below.ne
        have sunk := sinking.down (by lia) low child last largest (order.total stops).le
        rw [← swapped] at sunk
        obtain ⟨mem', run, heap, rearranged⟩ := ih (by lia) last sunk (by lia)
        refine ⟨mem', run, heap, .trans ?_ rearranged⟩
        rw [swapped]
        exact .swap (by lia) (by lia)
    · rw [if_neg parent]
      refine ⟨mem, rfl, sinking.stop fun k child last => ?_, .refl _ _ _⟩
      rcases child with rfl | rfl
      · exact absurd last parent
      · lia

theorem build_spec (order : TotalPreorder compar) (few : nmemb < 2 ^ 30) (half : l ≤ nmemb)
    (heap : Heap (le compar) (l + 1) nmemb (elements size mem)) (enough : nmemb ≤ fuel) :
    ∃ mem', build compar fuel nmemb l mem = some mem' ∧
      Heap (le compar) 1 nmemb (elements size mem') ∧
      Rearranges 1 (nmemb + 1) (elements size mem) (elements size mem') := by
  induction l generalizing mem with
  | zero => exact ⟨mem, rfl, heap, .refl _ _ _⟩
  | succ l ih =>
    obtain ⟨mem', run, heap', moved⟩ :=
      HEAP_spec order few (Nat.le_add_left 1 l) (Nat.le_refl (l + 1)) half
      (heap.sinking (Nat.le_add_left 1 l)) (by lia : nmemb < l + 1 + fuel)
    obtain ⟨mem'', run', heap'', moved'⟩ := ih (by lia) heap'
    refine ⟨mem'', ?_, heap'', (moved.mono (by lia) (Nat.le_refl _)).trans moved'⟩
    rw [build, run, Option.bind_some, run']

/-- The elements up to `nmemb` are a heap, those from there to `N` are in order, and none of them is
below one of the heap. -/
structure Extracted (le : Element size → Element size → Prop) (nmemb N : Nat)
    (v : Nat → Element size) : Prop where
  heap : Heap le 1 nmemb v
  ordered : Ordered le (nmemb + 1) (N + 1) v
  above : ∀ i k, 1 ≤ i → i ≤ nmemb → nmemb < k → k ≤ N → le (v i) (v k)

/-- The largest element of the heap takes the last place, and the heap is made again of the others.
-/
theorem Extracted.step {n N : Nat} (order : TotalPreorder compar) (few : N < 2 ^ 30)
    (inside : n + 1 ≤ N) (left : 1 ≤ n)
    (extracted : Extracted (le compar) (n + 1) N (elements size mem)) (enough : N ≤ fuel) :
    ∃ mem', HEAP compar n fuel (SWAP size mem 1 (n + 1)) 1 = some mem' ∧
      Extracted (le compar) n N (elements size mem') ∧
      Rearranges 1 (N + 1) (elements size mem) (elements size mem') := by
  obtain ⟨heap, ordered, above⟩ := extracted
  have swapped := @elements_SWAP size 1 (n + 1) mem (by lia)
  have sinking := heap.swapped
  have largest {i : Nat} (low : 1 ≤ i) (high : i ≤ n + 1) :=
    heap.root order.self order.trans low high
  rw [← swapped] at sinking
  obtain ⟨mem', run, heap', moved⟩ :=
    HEAP_spec order (by lia) (Nat.le_refl 1) (Nat.le_refl 1) left sinking
    (by lia : n < 1 + fuel)
  rw [swapped] at moved
  have last : elements size mem' (n + 1) = elements size mem 1 := by
    rw [moved.outside (by lia), exchange_right]
  have behind {k : Nat} (past : n + 1 < k) : elements size mem' k = elements size mem k := by
    rw [moved.outside (by lia), exchange_other (by lia) (by lia)]
  -- what bounds the old heap bounds the new one
  have bounds {b : Element size} (bound : ∀ i, 1 ≤ i → i ≤ n + 1 →
      le compar (elements size mem i) b) :
      ∀ i, 1 ≤ i → i < n + 1 → le compar (elements size mem' i) b := by
    refine moved.keeps (P := fun a => le compar a b) fun i low high => ?_
    by_cases first : i = 1
    · rw [first, exchange_left]
      exact bound (n + 1) (by lia) (Nat.le_refl _)
    · rw [exchange_other first (by lia)]
      exact bound i low (by lia)
  refine ⟨mem', run, ⟨heap', fun i j low less high => ?_, fun i k low high past within => ?_⟩, ?_⟩
  · rw [behind (by lia : n + 1 < j)]
    by_cases first : i = n + 1
    · rw [first, last]
      exact above 1 j (Nat.le_refl 1) (by lia) (by lia) (by lia)
    · rw [behind (by lia : n + 1 < i)]
      exact ordered i j (by lia) less high
  · by_cases first : k = n + 1
    · rw [first, last]
      exact bounds (fun i low high => largest low high) i low (by lia)
    · rw [behind (by lia : n + 1 < k)]
      exact bounds (fun i low high => above i k low high (by lia) within) i low (by lia)
  · exact (Rearranges.swap (by lia) (by lia)).trans (moved.mono (Nat.le_refl 1) (by lia))

theorem extract_spec {N : Nat} (order : TotalPreorder compar) (few : N < 2 ^ 30)
    (inside : nmemb ≤ N) (extracted : Extracted (le compar) nmemb N (elements size mem))
    (enough : N ≤ fuel) :
    ∃ mem', extract compar fuel nmemb mem = some mem' ∧
      Sorts (le compar) 1 (N + 1) (elements size mem) (elements size mem') := by
  induction nmemb generalizing mem with
  | zero => exact ⟨mem, rfl, .refl _ _ _, extracted.ordered⟩
  | succ n ih =>
    rw [extract]
    by_cases more : 1 < n + 1
    · rw [if_pos more]
      obtain ⟨mem', run, extracted', moved⟩ := extracted.step order few inside (by lia) enough
      obtain ⟨mem'', run', sorts⟩ := ih (by lia) extracted'
      refine ⟨mem'', ?_, .after moved sorts⟩
      rw [run, Option.bind_some, run']
    · rw [if_neg more]
      refine ⟨mem, rfl, .refl _ _ _, fun i j low less high => ?_⟩
      by_cases first : i = 1
      · exact extracted.above i j low (by lia) (by lia) (by lia)
      · exact extracted.ordered i j (by lia) less high

end Sorting

/-- `heapsort` returns 0 with the elements in another order that is the order of the comparison, and
changes no byte outside them. -/
theorem heapsort_sorts {size : Nat} (compar : Element size → Element size → Int)
    (positive : 1 ≤ size) (order : TotalPreorder compar) (mem : Memory) (nmemb errno : Nat)
    (few : nmemb < 2 ^ 30) :
    ∃ enough, ∀ fuel, enough ≤ fuel →
      ∃ mem', heapsort compar fuel mem nmemb errno = some ⟨mem', errno, 0⟩ ∧
      (cells (elements size mem') 1 nmemb).Perm (cells (elements size mem) 1 nmemb) ∧
      (cells (elements size mem') 1 nmemb).Pairwise (le compar) ∧
      ∀ p, p < size ∨ (nmemb + 1) * size ≤ p → mem' p = mem p := by
  refine ⟨nmemb, fun fuel enough => ?_⟩
  obtain ⟨mem', run, sorts⟩ : ∃ mem', heapsort compar fuel mem nmemb errno = some ⟨mem', errno, 0⟩ ∧
      Sorts (le compar) 1 (nmemb + 1) (elements size mem) (elements size mem') := by
    unfold heapsort
    split
    · exact ⟨mem, rfl, .refl _ _ _, .short (by omega)⟩
    · rw [if_neg (by omega)]
      have leaves : Heap (le compar) (nmemb / 2 + 1) nmemb (elements size mem) := by
        intro i j low child last
        rcases child with rfl | rfl
        · omega
        · omega
      obtain ⟨mem1, built, heap, moved⟩ :=
        build_spec order few (Nat.div_le_self nmemb 2) leaves enough
      obtain ⟨mem2, run, sorts⟩ :=
        extract_spec order few (Nat.le_refl nmemb) ⟨heap, .short (by omega),
        fun i k _ _ past within =>
        absurd past (by omega)⟩ enough
      refine ⟨mem2, ?_, .after moved sorts⟩
      rw [built, Option.bind_some, run]
      rfl
  rw [Nat.add_comm nmemb 1] at sorts
  refine ⟨mem', run, sorts.rearranges.cells_perm, sorts.ordered.pairwise, fun p out => ?_⟩
  -- every byte is one of an element
  have same := sorts.rearranges.outside (i := p / size) (fun inside => by
    rcases out with before | behind
    · have first := Nat.div_eq_of_lt before
      omega
    · have past : nmemb + 1 ≤ p / size := (Nat.le_div_iff_mul_le positive).mpr behind
      omega)
  have byte := congrFun same ⟨p % size, Nat.mod_lt p positive⟩
  have address : p / size * size + p % size = p := Nat.div_add_mod' p size
  unfold elements at byte
  dsimp only at byte
  rw [address] at byte
  exact byte

/-- Bytes by their value, six of them. -/
theorem heapsort_sorts_bytes : ∃ enough, ∀ fuel, enough ≤ fuel → ∃ mem',
    @heapsort 1 (fun a b => (a 0).toNat - (b 0).toNat) fuel (fun p => if p < 4 then 3 else 8) 6 0 =
      some ⟨mem', 0, 0⟩ ∧
      (cells (elements 1 mem') 1 6).Perm (cells (elements 1 fun p => if p < 4 then 3 else 8) 1 6) ∧
      (cells (elements 1 mem') 1 6).Pairwise (le fun a b => (a 0).toNat - (b 0).toNat) ∧
      ∀ p, p < 1 ∨ (6 + 1) * 1 ≤ p → mem' p = if p < 4 then 3 else 8 :=
  heapsort_sorts (fun a b => (a 0).toNat - (b 0).toNat) (by decide)
    ⟨fun a b => by omega, fun a b c first second => by omega⟩ _ 6 0 (by decide)

end FreeBsd.Stdlib
