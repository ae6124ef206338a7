import Mathlib.Tactic.Common

/-! Labelled transition systems over arbitrary states and events, and their runs. -/
namespace FreeBsd.Lib

variable {S E : Type} {Step : S → E → S → Prop}

inductive Run (Step : S → E → S → Prop) : S → List E → S → Prop where
  | nil (s : S) : Run Step s [] s
  | cons {s t u : S} {event : E} {events : List E} :
      Step s event t → Run Step t events u → Run Step s (event :: events) u

/-- What each allowed step preserves holds at the end of every run of allowed events. -/
theorem Run.invariant {P : S → Prop} {allowed : E → Prop}
    (preserved : ∀ s event t, allowed event → P s → Step s event t → P t)
    {s t : S} {events : List E} (run : Run Step s events t)
    (every : ∀ event ∈ events, allowed event) (initial : P s) : P t := by
  induction run with
  | nil s => exact initial
  | cons step rest ih =>
    have first := preserved _ _ _ (every _ List.mem_cons_self) initial step
    exact ih (fun event member => every event (List.mem_cons_of_mem _ member)) first

theorem Run.append {s t u : S} {first second : List E} (left : Run Step s first t)
    (right : Run Step t second u) : Run Step s (first ++ second) u := by
  induction left with
  | nil s => exact right
  | cons step rest ih => exact .cons step (ih right)

theorem Run.map {F : Type} {f : F → E} {s t : S} {labels : List F}
    (run : Run (fun s label t => Step s (f label) t) s labels t) : Run Step s (labels.map f) t := by
  induction run with
  | nil s => exact .nil s
  | cons step rest ih => exact .cons step ih

theorem Run.simulate {T : Type} {Spec : T → E → T → Prop} {R : S → T → Prop}
    (steps : ∀ s event s' t, R s t → Step s event s' → ∃ t', Spec t event t' ∧ R s' t')
    {s s' : S} {events : List E} (run : Run Step s events s') {t : T} (start : R s t) :
    ∃ t', Run Spec t events t' ∧ R s' t' := by
  induction run generalizing t with
  | nil s => exact ⟨t, .nil t, start⟩
  | cons step rest ih =>
    obtain ⟨u, first, related⟩ := steps _ _ _ _ start step
    obtain ⟨t', later, last⟩ := ih related
    exact ⟨t', .cons first later, last⟩

def replay (step : S → E → Option S) : S → List E → Option S
  | s, [] => some s
  | s, event :: events => (step s event).bind fun t => replay step t events

theorem replay_append (step : S → E → Option S) (s : S) (first second : List E) :
    replay step s (first ++ second) = (replay step s first).bind fun t => replay step t second := by
  induction first generalizing s with
  | nil => rfl
  | cons event first ih =>
    rw [List.cons_append, replay, replay, Option.bind_assoc]
    exact congrArg _ (funext ih)

theorem replay_run {step : S → E → Option S}
    (sound : ∀ s event t, step s event = some t → Step s event t) {s t : S} {events : List E}
    (replayed : replay step s events = some t) : Run Step s events t := by
  induction events generalizing s with
  | nil =>
    cases replayed
    exact .nil _
  | cons event events ih =>
    obtain ⟨u, first, rest⟩ := Option.bind_eq_some_iff.mp replayed
    exact .cons (sound s event u first) (ih rest)

theorem Run.replay {step : S → E → Option S}
    (complete : ∀ s event t, Step s event t → step s event = some t) {s t : S} {events : List E}
    (run : Run Step s events t) : replay step s events = some t := by
  induction run with
  | nil s => rfl
  | cons first rest ih =>
    rw [FreeBsd.Lib.replay, complete _ _ _ first]
    exact ih

end FreeBsd.Lib
