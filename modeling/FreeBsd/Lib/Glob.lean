import Mathlib.Computability.Language
import Mathlib.Tactic.Common

/-! Languages of wildcard patterns over an arbitrary alphabet: one symbol of a set, any
string that keeps clear of a barrier, and how a matcher may take them apart. -/
namespace FreeBsd.Lib

variable {α : Type} {L : Language α} {barrier accepts : Set α}

def oneOf (accepts : Set α) : Language α := {s | ∃ a ∈ accepts, s = [a]}

def clearOf (barrier : Set α) : Language α := {s | ∀ a ∈ s, a ∉ barrier}

theorem mem_oneOf_mul {s : List α} :
    s ∈ oneOf accepts * L ↔ ∃ a t, s = a :: t ∧ a ∈ accepts ∧ t ∈ L := by
  rw [Language.mem_mul]
  constructor
  · rintro ⟨_, ⟨a, accepted, rfl⟩, t, member, rfl⟩
    exact ⟨a, t, rfl, accepted, member⟩
  · rintro ⟨a, t, rfl, accepted, member⟩
    exact ⟨[a], ⟨a, accepted, rfl⟩, t, member, rfl⟩

theorem nil_notMem_oneOf_mul : [] ∉ oneOf accepts * L := by
  rw [mem_oneOf_mul]
  rintro ⟨a, t, empty, _⟩
  cases empty

theorem cons_mem_oneOf_mul {a : α} {t : List α} : a :: t ∈ oneOf accepts * L ↔ a ∈ accepts ∧
    t ∈ L := by
  rw [mem_oneOf_mul]
  constructor
  · rintro ⟨_, _, same, accepted, member⟩
    cases same
    exact ⟨accepted, member⟩
  · rintro ⟨accepted, member⟩
    exact ⟨a, t, rfl, accepted, member⟩

theorem nil_mem_clearOf_mul : [] ∈ clearOf barrier * L ↔ [] ∈ L := by
  rw [Language.mem_mul]
  constructor
  · rintro ⟨s, _, t, member, empty⟩
    obtain ⟨rfl, rfl⟩ := List.append_eq_nil_iff.mp empty
    exact member
  · intro member
    exact ⟨[], fun a none => absurd none List.not_mem_nil, [], member, rfl⟩

theorem cons_mem_clearOf_mul {a : α} {t : List α} :
    a :: t ∈ clearOf barrier * L ↔ a :: t ∈ L ∨ a ∉ barrier ∧ t ∈ clearOf barrier * L := by
  simp only [Language.mem_mul]
  constructor
  · rintro ⟨s, clear, u, member, split⟩
    cases s with
    | nil => exact .inl (split ▸ member)
    | cons b s =>
      cases split
      exact .inr ⟨clear a List.mem_cons_self, s,
        fun c here => clear c (List.mem_cons_of_mem _ here), u, member, rfl⟩
  · rintro (member | ⟨free, s, clear, u, member, rfl⟩)
    · exact ⟨[], fun a none => absurd none List.not_mem_nil, a :: t, member, rfl⟩
    · refine ⟨a :: s, fun c here => ?_, u, member, rfl⟩
      rcases List.mem_cons.mp here with rfl | later
      · exact free
      · exact clear c later

theorem clearOf_mul_clearOf : clearOf barrier * (clearOf barrier * L) = clearOf barrier * L := by
  ext s
  induction s with
  | nil => simp only [nil_mem_clearOf_mul]
  | cons a t ih =>
    rw [cons_mem_clearOf_mul, ih, cons_mem_clearOf_mul]
    tauto

theorem mem_clearOf_mul_one {s : List α} : s ∈ clearOf barrier * (1 : Language α) ↔
    ∀ a ∈ s, a ∉ barrier := by
  rw [mul_one]
  rfl

theorem mem_clearOf_mul_oneOf [DecidableEq α] {sep : α} {s : List α} :
    s ∈ clearOf {sep} * (oneOf {sep} * L) ↔ ∃ t, s.dropWhile (· ≠ sep) = sep :: t ∧ t ∈ L := by
  induction s with
  | nil =>
    rw [nil_mem_clearOf_mul]
    constructor
    · exact fun member => absurd member nil_notMem_oneOf_mul
    · rintro ⟨t, none, _⟩
      cases none
  | cons a t ih =>
    rw [cons_mem_clearOf_mul, cons_mem_oneOf_mul, ih]
    by_cases here : a = sep
    · subst here
      simp
    · simp [here]

end FreeBsd.Lib
