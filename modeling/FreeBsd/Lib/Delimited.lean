import Mathlib.Data.List.TakeWhile
import Mathlib.Tactic.Ring

/-! Lists that are cut into records, over any type: behind each separator, or after a number of
elements. -/
namespace FreeBsd.Lib

variable {α : Type}

section Pieces

variable [DecidableEq α] {sep a : α} {l rest : List α}

/-- The elements up to each separator. What is behind the last one is a piece if it is not empty. -/
def pieces (sep : α) : List α → List (List α)
  | [] => []
  | a :: rest =>
    if a = sep then [] :: pieces sep rest
    else
      match pieces sep rest with
      | [] => [[a]]
      | first :: others => (a :: first) :: others

def undelimited (sep : α) (l : List α) : Bool := l.getLast?.any (· ≠ sep)

def behind (sep : α) (l : List α) : List α := (l.dropWhile (· ≠ sep)).drop 1

theorem pieces_ne_nil (some : l ≠ []) : pieces sep l ≠ [] := by
  cases l with
  | nil => exact absurd rfl some
  | cons a rest =>
    rw [pieces]
    split
    · exact List.cons_ne_nil _ _
    · split <;> exact List.cons_ne_nil _ _

theorem pieces_cons (some : l ≠ []) :
    pieces sep l = l.takeWhile (· ≠ sep) :: pieces sep (behind sep l) := by
  induction l with
  | nil => exact absurd rfl some
  | cons a rest ih =>
    rw [pieces]
    by_cases same : a = sep
    · rw [if_pos same, List.takeWhile_cons_of_neg (by simpa using same), behind,
        List.dropWhile_cons_of_neg (by simpa using same)]
      rfl
    · rw [if_neg same, List.takeWhile_cons_of_pos (by simpa using same), behind,
        List.dropWhile_cons_of_pos (by simpa using same)]
      cases rest with
      | nil => rfl
      | cons b rest =>
        rw [ih (List.cons_ne_nil _ _)]
        rfl

theorem takeWhile_of_not_mem (none : sep ∉ l) : l.takeWhile (· ≠ sep) = l :=
  List.takeWhile_eq_self_iff.mpr fun _ member => decide_eq_true (ne_of_mem_of_not_mem member none)

theorem behind_of_not_mem (none : sep ∉ l) : behind sep l = [] := by
  rw [behind, List.dropWhile_eq_nil_iff.mpr fun a member =>
    decide_eq_true (ne_of_mem_of_not_mem member none)]
  rfl

theorem pieces_of_not_mem (none : sep ∉ l) (some : l ≠ []) : pieces sep l = [l] := by
  rw [pieces_cons some, takeWhile_of_not_mem none, behind_of_not_mem none]
  rfl

theorem undelimited_of_not_mem (none : sep ∉ l) (some : l ≠ []) : undelimited sep l = true := by
  rw [undelimited, List.getLast?_eq_some_getLast some]
  exact decide_eq_true (ne_of_mem_of_not_mem (List.getLast_mem some) none)

theorem undelimited_behind (member : sep ∈ l) :
    undelimited sep (behind sep l) = undelimited sep l := by
  obtain ⟨a, more, rest⟩ : ∃ a more, l.dropWhile (· ≠ sep) = a :: more :=
    List.ne_nil_iff_exists_cons.mp fun none => by
    simpa using List.dropWhile_eq_nil_iff.mp none sep member
  have stops : a = sep := by
    have head := List.head?_dropWhile_not (· ≠ sep) l
    rw [rest] at head
    simpa using head
  have whole := @List.takeWhile_append_dropWhile α (· ≠ sep) l
  rw [rest, stops] at whole
  have last := @List.getLast?_append α (l.takeWhile (· ≠ sep)) (sep :: more)
  rw [whole] at last
  rw [behind, rest, undelimited, undelimited, last]
  cases more with
  | nil => simp
  | cons b more =>
    rw [List.getLast?_cons_cons, List.getLast?_eq_some_getLast (List.cons_ne_nil b more)]
    rfl

end Pieces

section Blocks

variable {r : Nat} {pad : α} {l : List α}

def blocks (r : Nat) (pad : α) (l : List α) : List (List α) :=
  (List.range ((l.length + r - 1) / r)).map fun i =>
    (l.drop (i * r)).take r ++ List.replicate (r - ((l.drop (i * r)).take r).length) pad

theorem blocks_nil (positive : 0 < r) : blocks r pad [] = [] := by
  rw [blocks, List.length_nil, Nat.div_eq_of_lt (by omega)]
  rfl

theorem blocks_one (some : l ≠ []) (short : l.length ≤ r) :
    blocks r pad l = [l ++ List.replicate (r - l.length) pad] := by
  have positive := List.length_pos_iff.mpr some
  have one : (l.length + r - 1) / r = 1 := by
    rw [Nat.div_eq_iff (by lia)]
    lia
  rw [blocks, one]
  simp [List.take_of_length_le short, Nat.min_eq_right short]

end Blocks

end FreeBsd.Lib
