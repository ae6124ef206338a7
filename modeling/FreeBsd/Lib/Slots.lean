import Mathlib.Data.List.InsertIdx

/-! Lists as rows of slots: what is put in, taken out or changed between a front and a back, over
any type. -/
namespace FreeBsd.Lib

variable {α : Type}

theorem insertIdx_middle (front back : List α) (x : α) :
    (front ++ back).insertIdx front.length x = front ++ x :: back := by
  induction front with
  | nil => rfl
  | cons y front ih =>
    rw [List.cons_append, List.length_cons, List.insertIdx_succ_cons, ih]
    rfl

theorem getElem?_middle (front back : List α) (x : α) :
    (front ++ x :: back)[front.length]? = some x := by
  rw [List.getElem?_append_right (Nat.le_refl _), Nat.sub_self]
  rfl

theorem split_at {l : List α} {i : Nat} (inside : i ≤ l.length) : ∃ front back, l = front ++ back ∧
    front.length = i :=
  ⟨l.take i, l.drop i, (List.take_append_drop i l).symm, List.length_take_of_le inside⟩

end FreeBsd.Lib
