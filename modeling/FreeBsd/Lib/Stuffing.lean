import Mathlib.Data.List.Basic
import Mathlib.Tactic.Common

/-! Byte stuffing: a special symbol is sent as an escape and a code for it. -/
namespace FreeBsd.Lib

variable {B S : Type}

def stuff (special : B → Bool) (esc : B) (code : B → B) (l : List B) : List B :=
  l.flatMap fun c => if special c then [esc, code c] else [c]

variable {special : B → Bool} {esc : B} {code : B → B}

theorem stuff_cons (c : B) (l : List B) :
    stuff special esc code (c :: l) = (if special c then [esc, code c] else [c]) ++
      stuff special esc code l := rfl

theorem stuff_append (l k : List B) :
    stuff special esc code (l ++ k) = stuff special esc code l ++ stuff special esc code k := by
  simp only [stuff, List.flatMap_append]

theorem stuff_plain {l : List B} (plain : ∀ c ∈ l, special c = false) :
    stuff special esc code l = l := by
  induction l with
  | nil => rfl
  | cons c l ih =>
    obtain ⟨first, others⟩ := List.forall_mem_cons.mp plain
    rw [stuff_cons, first, ih others]
    rfl

theorem length_stuff (l : List B) : (stuff special esc code l).length ≤ 2 * l.length := by
  induction l with
  | nil => exact Nat.le_refl 0
  | cons c l ih =>
    rw [stuff_cons, List.length_append, List.length_cons]
    split
    · rw [List.length_cons, List.length_singleton]
      lia
    · rw [List.length_singleton]
      lia

/-- A receiver that takes a plain symbol as it is and an escaped one after its escape is in the end
where the symbols themselves would have put it. `P` is what it has to know about the symbols ahead.
-/
theorem foldl_stuff {recv put : S → B → S} {P : List B → S → Prop}
    (plain : ∀ s c l, P (c :: l) s → special c = false → recv s c = put s c)
    (escaped : ∀ s c l, P (c :: l) s → special c = true → recv (recv s esc) (code c) = put s c)
    (kept : ∀ s c l, P (c :: l) s → P l (put s c)) (l : List B) {s : S} (start : P l s) :
    (stuff special esc code l).foldl recv s = l.foldl put s := by
  induction l generalizing s with
  | nil => rfl
  | cons c l ih =>
    rw [stuff_cons, List.foldl_append, List.foldl_cons, ← ih (kept s c l start)]
    cases sort : special c with
    | true => rw [if_pos rfl, List.foldl_cons, List.foldl_cons, List.foldl_nil,
      escaped s c l start sort]
    | false => rw [if_neg Bool.false_ne_true, List.foldl_cons, List.foldl_nil,
      plain s c l start sort]

end FreeBsd.Lib
