import Mathlib.Algebra.BigOperators.Group.Finset.Basic
import Mathlib.Data.Multiset.UnionInter
import Mathlib.Tactic.Abel

/-! Trees of pointers with a fixed fan-out `n`, kept in a store that gives each block its entries.
A tree of height 0 is one block that is not followed further, and `0` stands for no tree. -/
namespace FreeBsd.Fanout

open Finset

variable {α : Type*} [Zero α] [DecidableEq α] {n : Nat}

def tree (n : Nat) : Nat → (α → Nat → α) → α → Multiset α
  | 0, _, q => if q = 0 then 0 else {q}
  | h + 1, s, q => if q = 0 then 0 else q ::ₘ ∑ i ∈ range n, tree n h s (s q i)

def leaf (n : Nat) : Nat → (α → Nat → α) → α → Nat → Option α
  | 0, _, q, _ => if q = 0 then none else some q
  | h + 1, s, q, k => if q = 0 then none else leaf n h s (s q (k / n ^ h % n)) k

@[simp] theorem tree_zero (h : Nat) (s : α → Nat → α) : tree n h s 0 = 0 := by
  cases h <;> simp [tree]

@[simp] theorem leaf_zero (h : Nat) (s : α → Nat → α) (k : Nat) : leaf n h s 0 k = none := by
  cases h <;> simp [leaf]

theorem tree_succ {q : α} (hq : q ≠ 0) (h : Nat) (s : α → Nat → α) :
    tree n (h + 1) s q = q ::ₘ ∑ i ∈ range n, tree n h s (s q i) := by
  simp [tree, hq]

theorem tree_split {q : α} (hq : q ≠ 0) (h : Nat) (s : α → Nat → α) {l : Nat} (hl : l < n) :
    tree n (h + 1) s q = q ::ₘ (∑ i ∈ range l, tree n h s (s q i) + tree n h s (s q l) +
      ∑ i ∈ range (n - (l + 1)), tree n h s (s q (l + 1 + i))) := by
  rw [tree_succ hq, ← sum_range_succ, ← sum_range_add, Nat.add_sub_cancel' hl]

theorem leaf_succ {q : α} (hq : q ≠ 0) (h : Nat) (s : α → Nat → α) (k : Nat) :
    leaf n (h + 1) s q k = leaf n h s (s q (k / n ^ h % n)) k := by
  simp [leaf, hq]

theorem mem_tree_self {q : α} (hq : q ≠ 0) (h : Nat) (s : α → Nat → α) : q ∈ tree n h s q := by
  cases h <;> simp [tree, hq]

theorem mem_tree_entry {q x : α} (hq : q ≠ 0) {h i : Nat} {s : α → Nat → α} (hi : i < n)
    (hx : x ∈ tree n h s (s q i)) : x ∈ tree n (h + 1) s q := by
  rw [tree_succ hq, Multiset.mem_cons, Multiset.mem_sum]
  exact Or.inr ⟨i, mem_range.mpr hi, hx⟩

theorem tree_congr {s t : α → Nat → α} {h : Nat} {q : α} (same : ∀ x ∈ tree n h s q, t x = s x) :
    tree n h t q = tree n h s q := by
  induction h generalizing q with
  | zero => rfl
  | succ h ih =>
    by_cases hq : q = 0
    · simp [hq]
    · rw [tree_succ hq, tree_succ hq, same q (mem_tree_self hq _ _)]
      congr 1
      apply sum_congr rfl
      intro i hi
      apply ih
      intro x hx
      exact same x (mem_tree_entry hq (mem_range.mp hi) hx)

theorem leaf_congr (hn : 0 < n) {s t : α → Nat → α} {h : Nat} {q : α}
    (same : ∀ x ∈ tree n h s q, t x = s x) (k : Nat) : leaf n h t q k = leaf n h s q k := by
  induction h generalizing q with
  | zero => rfl
  | succ h ih =>
    by_cases hq : q = 0
    · simp [hq]
    · rw [leaf_succ hq, leaf_succ hq, same q (mem_tree_self hq _ _)]
      apply ih
      intro x hx
      exact same x (mem_tree_entry hq (Nat.mod_lt _ hn) hx)

omit [Zero α] [DecidableEq α] in
theorem notMem_of_nodup_add {a b : Multiset α} (apart : (a + b).Nodup) {x : α} (hx : x ∈ a) :
    x ∉ b :=
  Multiset.disjoint_left.mp (Multiset.nodup_add.mp apart).2.2 hx

omit [Zero α] [DecidableEq α] in
theorem sum_replace {β : Type*} [AddCommMonoid β] {f g : Nat → β} {i : Nat} (hi : i < n)
    (others : ∀ j < n, j ≠ i → g j = f j) :
    ∑ j ∈ range n, g j + f i = ∑ j ∈ range n, f j + g i := by
  have rest : ∑ j ∈ (range n).erase i, g j = ∑ j ∈ (range n).erase i, f j :=
    sum_congr rfl fun j hj => others j (mem_range.mp (mem_of_mem_erase hj)) (ne_of_mem_erase hj)
  rw [← sum_erase_add _ g (mem_range.mpr hi), ← sum_erase_add _ f (mem_range.mpr hi), rest]
  abel

/-- Where only entry `i` of the root and its tree change, the whole tree changes by as much. -/
theorem tree_replace {s t : α → Nat → α} {h : Nat} {q : α} (hq : q ≠ 0) {i : Nat} (hi : i < n)
    (others : ∀ j < n, j ≠ i → t q j = s q j ∧ ∀ x ∈ tree n h s (s q j), t x = s x) :
    tree n (h + 1) t q + tree n h s (s q i) = tree n (h + 1) s q + tree n h t (t q i) := by
  have same : ∀ j < n, j ≠ i → tree n h t (t q j) = tree n h s (s q j) := by
    intro j hj ne
    rw [(others j hj ne).1]
    exact tree_congr (others j hj ne).2
  rw [tree_succ hq, tree_succ hq, Multiset.cons_add, Multiset.cons_add, sum_replace hi same]

theorem leaf_replace (hn : 0 < n) {s t : α → Nat → α} {h : Nat} {q : α} (hq : q ≠ 0) {i k : Nat}
    (others : ∀ j < n, j ≠ i → t q j = s q j ∧ ∀ x ∈ tree n h s (s q j), t x = s x)
    (ne : k / n ^ h % n ≠ i) : leaf n (h + 1) t q k = leaf n (h + 1) s q k := by
  have here := others _ (Nat.mod_lt _ hn) ne
  rw [leaf_succ hq, leaf_succ hq, here.1]
  exact leaf_congr hn here.2 k

/-- No block of a tree without repetitions is in two of its entries, and none is its root. -/
theorem root_notMem_entry {q : α} (hq : q ≠ 0) {h : Nat} {s : α → Nat → α}
    (apart : (tree n (h + 1) s q).Nodup) {i : Nat} (hi : i < n) : q ∉ tree n h s (s q i) := by
  intro hx
  rw [tree_succ hq, Multiset.nodup_cons, Multiset.mem_sum] at apart
  exact apart.1 ⟨i, mem_range.mpr hi, hx⟩

theorem entries_nodup {q : α} (hq : q ≠ 0) {h : Nat} {s : α → Nat → α}
    (apart : (tree n (h + 1) s q).Nodup) : (∑ i ∈ range n, tree n h s (s q i)).Nodup := by
  rw [tree_succ hq, Multiset.nodup_cons] at apart
  exact apart.2

theorem entry_le {q : α} (hq : q ≠ 0) (h : Nat) (s : α → Nat → α) {i : Nat} (hi : i < n) :
    tree n h s (s q i) ≤ tree n (h + 1) s q := by
  rw [tree_succ hq, ← sum_erase_add _ _ (mem_range.mpr hi)]
  exact le_trans (Multiset.le_add_left _ _) (Multiset.le_cons_self _ _)

theorem entry_nodup {q : α} (hq : q ≠ 0) {h : Nat} {s : α → Nat → α}
    (apart : (tree n (h + 1) s q).Nodup) {i : Nat} (hi : i < n) : (tree n h s (s q i)).Nodup :=
  Multiset.nodup_of_le (entry_le hq h s hi) apart

theorem entries_apart {q : α} (hq : q ≠ 0) {h : Nat} {s : α → Nat → α}
    (apart : (tree n (h + 1) s q).Nodup) {i j : Nat} (hi : i < n) (hj : j < n) (ne : i ≠ j) {x : α}
    (hx : x ∈ tree n h s (s q i)) : x ∉ tree n h s (s q j) := by
  have whole := entries_nodup hq apart
  rw [← sum_erase_add _ _ (mem_range.mpr hj)] at whole
  apply notMem_of_nodup_add whole
  exact Multiset.mem_sum.mpr ⟨i, mem_erase.mpr ⟨ne, mem_range.mpr hi⟩, hx⟩

/-- Block `b` heads a tree of height `m` within the tree at `q`. -/
inductive Heads (n : Nat) (s : α → Nat → α) : Nat → α → Nat → α → Prop
  | root (h : Nat) (q : α) : Heads n s h q h q
  | entry {h m i : Nat} {q b : α} (hq : q ≠ 0) (hi : i < n) (below : Heads n s h (s q i) m b) :
    Heads n s (h + 1) q m b

omit [DecidableEq α] in
theorem Heads.next {s : α → Nat → α} {h m i : Nat} {q b : α} (path : Heads n s h q (m + 1) b)
    (hb : b ≠ 0) (hi : i < n) : Heads n s h q m (s b i) := by
  generalize top : m + 1 = k at path
  induction path with
  | root h q =>
    subst top
    exact .entry hb hi (.root m _)
  | entry hq hj _ ih => exact .entry hq hj (ih hb top)

theorem Heads.mem {s : α → Nat → α} {h m : Nat} {q b : α} (path : Heads n s h q m b) (hb : b ≠ 0) :
    b ∈ tree n h s q := by
  induction path with
  | root h q => exact mem_tree_self hb h s
  | entry _ hi _ ih => exact mem_tree_entry ‹_› hi (ih hb)

/-- An empty entry of a block within a tree is filled: the tree gains what hangs there. -/
theorem Heads.graft {s t : α → Nat → α} {h m i : Nat} {q b : α} (path : Heads n s h q (m + 1) b)
    (apart : (tree n h s q).Nodup) (hb : b ≠ 0) (hi : i < n) (hole : s b i = 0)
    (same : ∀ x ∈ tree n h s q, x ≠ b → t x = s x) (entries : ∀ j ≠ i, t b j = s b j) :
    tree n h t q = tree n h s q + tree n m t (t b i) ∧ Heads n t h q (m + 1) b := by
  generalize top : m + 1 = k at path
  induction path with
  | root h q =>
    subst top
    have others : ∀ j < n, j ≠ i → t q j = s q j ∧ ∀ x ∈ tree n m s (s q j), t x = s x := by
      intro j hj ne
      refine ⟨entries j ne, fun x hx => same x (mem_tree_entry hb hj hx) ?_⟩
      rintro rfl
      exact root_notMem_entry hb apart hj hx
    have change := tree_replace hb hi others
    rw [hole, tree_zero, add_zero] at change
    exact ⟨change, .root _ _⟩
  | @entry h k i' q b hq hj below ih =>
    have inner := below.mem hb
    have away : q ≠ b := by
      rintro rfl
      exact root_notMem_entry hq apart hj inner
    have root : t q = s q := same q (mem_tree_self hq _ _) away
    obtain ⟨gain, path⟩ := ih (entry_nodup hq apart hj) hb hole
      (fun x hx => same x (mem_tree_entry hq hj hx)) entries top
    have others : ∀ j < n, j ≠ i' → t q j = s q j ∧ ∀ x ∈ tree n h s (s q j), t x = s x := by
      intro j hj' ne
      refine ⟨by rw [root], fun x hx => same x (mem_tree_entry hq hj' hx) ?_⟩
      rintro rfl
      exact entries_apart hq apart hj' hj ne hx inner
    have change := tree_replace hq hj others
    rw [root, gain] at change
    refine ⟨?_, .entry hq hj (by rwa [root])⟩
    apply add_right_cancel (b := tree n h s (s q i'))
    rw [change]
    abel

end FreeBsd.Fanout
