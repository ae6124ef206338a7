import Mathlib.Data.List.Basic

/-! Histories with the newest first, over any type of things that happen: what has followed the
latest one of a kind. -/
namespace FreeBsd.Lib

variable {α : Type} {kind : α → Prop} {P : α → List α → Prop} {a b : α} {older newer : List α}

/-- There is one of the kind, and `P` holds of the latest with what has followed it. -/
def Latest (kind : α → Prop) (P : α → List α → Prop) (history : List α) : Prop :=
  ∃ newer a older, history = newer ++ a :: older ∧ kind a ∧ (∀ b ∈ newer, ¬ kind b) ∧ P a newer

theorem Latest.now (here : kind a) (holds : P a []) : Latest kind P (a :: older) :=
  ⟨[], a, older, rfl, here, fun _ wrong => absurd wrong List.not_mem_nil, holds⟩

theorem Latest.after {Q : α → List α → Prop} (latest : Latest kind P older) (other : ¬ kind b)
    (goes : ∀ a newer, kind a → P a newer → Q a (b :: newer)) : Latest kind Q (b :: older) := by
  obtain ⟨newer, a, rest, rfl, here, none, holds⟩ := latest
  refine ⟨b :: newer, a, rest, rfl, here, fun c member => ?_, goes a newer here holds⟩
  cases member with
  | head => exact other
  | tail _ member => exact none c member

theorem Latest.later (latest : Latest kind P older) (other : ¬ kind b)
    (kept : ∀ a rest, P a rest → P a (b :: rest)) :
    Latest kind P (b :: older) :=
  latest.after other fun a rest _ => kept a rest

theorem Latest.prepend (latest : Latest kind P older) (others : ∀ b ∈ newer, ¬ kind b)
    (kept : ∀ a b rest, P a rest → P a (b :: rest)) : Latest kind P (newer ++ older) := by
  induction newer with
  | nil => exact latest
  | cons b newer ih =>
    have rest := ih fun c member => others c (List.mem_cons_of_mem b member)
    exact rest.later (others b List.mem_cons_self) fun a rest => kept a b rest

end FreeBsd.Lib
