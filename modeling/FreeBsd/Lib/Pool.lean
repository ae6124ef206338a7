import Mathlib.Data.Finset.Card
import Mathlib.Logic.Function.Basic
import Mathlib.Tactic.Common

/-! A pool of numbered units: a finite set of free ones, and the three summaries an
allocator keeps of it, a map of the used ones, a count, and a place to search from. -/
namespace FreeBsd.Lib

structure Pool (size : Nat) (free : Finset Nat) (used : Nat → Bool) (count start : Nat) : Prop where
  within : ∀ n ∈ free, n < size
  used_iff : ∀ n < size, used n = false ↔ n ∈ free
  count_eq : count = free.card
  start_le : ∀ n ∈ free, start ≤ n

variable {size count start : Nat} {free : Finset Nat} {used : Nat → Bool} {n : Nat}

theorem Pool.empty (full : ∀ n < size, used n = true) (start : Nat) : Pool size ∅ used 0 start where
  within n member := absurd member (Finset.notMem_empty n)
  used_iff n below := by simp [full n below]
  count_eq := rfl
  start_le n member := absurd member (Finset.notMem_empty n)

theorem Pool.release (pool : Pool size free used count start) (taken : n ∉ free)
    (below : n < size) :
    Pool size (insert n free) (Function.update used n false) (count + 1) (min start n) where
  within m member := by
    rcases Finset.mem_insert.mp member with rfl | old
    · exact below
    · exact pool.within m old
  used_iff m small := by
    by_cases same : m = n
    · simp [same]
    · simp [same, pool.used_iff m small]
  count_eq := by rw [Finset.card_insert_of_notMem taken, pool.count_eq]
  start_le m member := by
    rcases Finset.mem_insert.mp member with rfl | old
    · exact min_le_right _ _
    · exact le_trans (min_le_left _ _) (pool.start_le m old)

/-- The search may go on above a unit that is claimed where it was the lowest one. -/
theorem Pool.claim (pool : Pool size free used count start) (available : n ∈ free)
    (lowest : ∀ m ∈ free, n ≤ m) :
    Pool size (free.erase n) (Function.update used n true) (count - 1) (n + 1) where
  within m member := pool.within m (Finset.mem_of_mem_erase member)
  used_iff m small := by
    by_cases same : m = n
    · simp [same]
    · simp [same, pool.used_iff m small]
  count_eq := by rw [Finset.card_erase_of_mem available, pool.count_eq]
  start_le m member := by
    have apart := Finset.ne_of_mem_erase member
    have above := lowest m (Finset.mem_of_mem_erase member)
    omega

/-- What a search that starts at or below the start passes over and then finds is the lowest unit.
-/
theorem Pool.lowest (pool : Pool size free used count start) {low : Nat} (early : low ≤ start)
    (below : n < size) (clear : used n = false) (passed : ∀ m, low ≤ m → m < n → used m = true) :
    n ∈ free ∧ ∀ m ∈ free, n ≤ m := by
  constructor
  · exact (pool.used_iff n below).mp clear
  · intro m member
    by_contra before
    have set := passed m (le_trans early (pool.start_le m member)) (by omega)
    rw [(pool.used_iff m (pool.within m member)).mpr member] at set
    cases set

theorem Pool.none_free (pool : Pool size free used count start) {low : Nat} (early : low ≤ start)
    (passed : ∀ m, low ≤ m → m < size → used m = true) : free = ∅ := by
  apply Finset.eq_empty_of_forall_notMem
  intro m member
  have below := pool.within m member
  have set := passed m (le_trans early (pool.start_le m member)) below
  rw [(pool.used_iff m below).mpr member] at set
  cases set

end FreeBsd.Lib
