import Mathlib.Data.List.Range
import Mathlib.Tactic.Common

/-! Circular buffers over any type of element: the elements from a place on, round the end of
the buffer, and what a copy into the buffer does to them. -/
namespace FreeBsd.Lib

variable {α : Type}

def wrap (size n : Nat) : Nat := if n < size then n else n - size

def window (buf : Nat → α) (size first n : Nat) : List α :=
  (List.range n).map fun i => buf (wrap size (first + i))

def put (buf : Nat → α) (size first : Nat) (data : List α) : Nat → α :=
  fun j => (data[wrap size (j + size - first)]?).getD (buf j)

variable {buf buf' : Nat → α} {size first m n : Nat} {data : List α}

@[simp] theorem window_length : (window buf size first n).length = n := by simp [window]

@[simp] theorem window_zero : window buf size first 0 = [] := rfl

theorem wrap_wrap (below : first < size) (most : m + n ≤ size) :
    wrap size (wrap size (first + m) + n) = wrap size (first + (m + n)) := by
  unfold wrap
  split <;> split <;> split <;> lia

theorem window_add (below : first < size) (most : m + n ≤ size) :
    window buf size first (m + n) =
      window buf size first m ++ window buf size (wrap size (first + m)) n := by
  unfold window
  rw [List.range_add, List.map_append, List.map_map]
  congr 1
  apply List.map_congr_left
  intro i member
  have short := List.mem_range.mp member
  rw [wrap_wrap below (by omega)]
  rfl

theorem window_succ (below : first < size) (most : n < size) :
    window buf size first (n + 1) = buf first :: window buf size (wrap size (first + 1)) n := by
  have here : wrap size first = first := if_pos below
  rw [Nat.add_comm, window_add below (by omega)]
  simp [window, here]

theorem window_last (below : first < size) (most : n < size) :
    window buf size first (n + 1) = window buf size first n ++ [buf (wrap size (first + n))] := by
  have small : wrap size (first + n) < size := by
    unfold wrap
    split <;> lia
  have here : wrap size (wrap size (first + n)) = wrap size (first + n) := if_pos small
  rw [window_add below (by lia)]
  simp [window, here]

theorem window_congr (same : ∀ i < n, buf (wrap size (first + i)) = buf' (wrap size (first + i))) :
    window buf size first n = window buf' size first n := by
  apply List.map_congr_left
  intro i member
  exact same i (List.mem_range.mp member)

theorem window_put (below : first < size) (most : data.length ≤ size) :
    window (put buf size first data) size first data.length = data := by
  apply List.ext_getElem
  · simp
  · intro i short within
    have place : wrap size (wrap size (first + i) + size - first) = i := by
      unfold wrap
      split <;> split <;> lia
    simp [window, put, place, within]

theorem window_put_before (below : first < size) (most : n + data.length ≤ size) :
    window (put buf size (wrap size (first + n)) data) size first n = window buf size first n := by
  apply window_congr
  intro i short
  have place : data.length ≤ wrap size (wrap size (first + i) + size - wrap size (first + n)) := by
    unfold wrap
    split <;> split <;> split <;> lia
  rw [put, List.getElem?_eq_none place, Option.getD_none]

theorem window_append (below : first < size) (most : n + data.length ≤ size) :
    window (put buf size (wrap size (first + n)) data) size first (n + data.length) =
      window buf size first n ++ data := by
  have within : wrap size (first + n) < size ∨ data.length = 0 := by
    unfold wrap
    split <;> lia
  rw [window_add below most, window_put_before below most]
  rcases within with within | none
  · rw [window_put within (by lia)]
  · rw [none, List.length_eq_zero_iff.mp none]
    simp

end FreeBsd.Lib
