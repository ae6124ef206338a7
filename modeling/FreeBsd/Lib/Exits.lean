import Mathlib.Tactic.Common

/-! Computations that go on with a value or leave early: what holds at either end, over any
types of values and exits. -/
namespace FreeBsd.Lib

variable {α β ε : Type} {P : α → Prop} {Q : ε → Prop}

/-- The value satisfies `P`, or the exit satisfies `Q`. -/
def Ends (P : α → Prop) (Q : ε → Prop) : Except ε α → Prop
  | .ok a => P a
  | .error e => Q e

theorem Ends.bind {P' : β → Prop} {r : Except ε α} {f : α → Except ε β} (first : Ends P Q r)
    (next : ∀ a, P a → Ends P' Q (f a)) : Ends P' Q (r >>= f) := by
  cases r with
  | ok a => exact next a first
  | error e => exact first

theorem Ends.known {r : Except ε α} (ends : Ends P Q r) : Ends (fun a => P a ∧ r = .ok a) Q r := by
  cases r with
  | ok a => exact ⟨ends, rfl⟩
  | error e => exact ends

theorem Ends.mono {P' : α → Prop} {Q' : ε → Prop} {r : Except ε α} (ends : Ends P Q r)
    (value : ∀ a, P a → P' a) (exit : ∀ e, Q e → Q' e) : Ends P' Q' r := by
  cases r with
  | ok a => exact value a ends
  | error e => exact exit e ends

theorem Ends.ite {c : Prop} [Decidable c] {a b : Except ε α} (pos : c → Ends P Q a)
    (neg : ¬ c → Ends P Q b) : Ends P Q (if c then a else b) := by
  split
  · exact pos ‹_›
  · exact neg ‹_›

end FreeBsd.Lib
