import Mathlib.Logic.Relation
import Mathlib.Tactic.Common

/-! Deterministic step machines over arbitrary states and results. A step either
moves on or halts with a result; a run is a step function iterated under a fuel
bound, and every reachable state is reached through finitely many moves. -/
namespace FreeBsd.Lib

variable {S T R : Type}

inductive Outcome (S R : Type) where
  | next (s : S)
  | halt (r : R)
  deriving DecidableEq, Repr

def run (step : S → Outcome S R) : Nat → S → Option R
  | 0, _ => none
  | n + 1, s =>
    match step s with
    | .next t => run step n t
    | .halt r => some r

def Moves (step : S → Outcome S R) (s t : S) : Prop := step s = .next t

/-- The states of the run from `s`, the start included. -/
def Reaches (step : S → Outcome S R) (s t : S) : Prop :=
  Relation.ReflTransGen (Moves step) s t

theorem Reaches.refl {step : S → Outcome S R} (s : S) : Reaches step s s :=
  Relation.ReflTransGen.refl

theorem Reaches.head {step : S → Outcome S R} {s t u : S} (move : step s = .next t)
    (rest : Reaches step t u) : Reaches step s u :=
  Relation.ReflTransGen.head move rest

theorem Reaches.tail {step : S → Outcome S R} {s t u : S} (first : Reaches step s t)
    (move : step t = .next u) : Reaches step s u :=
  Relation.ReflTransGen.tail first move

/-- What holds at the start and survives each move from a reached state holds
in every reached state. -/
theorem Reaches.invariant {step : S → Outcome S R} {s : S} {P : S → Prop} (initial : P s)
    (preserved : ∀ t u, Reaches step s t → P t → step t = .next u → P u)
    {t : S} (reached : Reaches step s t) : P t := by
  induction reached with
  | refl => exact initial
  | tail before move ih => exact preserved _ _ before ih move

theorem run_halts_of_bound (step : S → Outcome S R) (measure : S → Nat) (n : Nat) (s : S)
    (bound : measure s ≤ n)
    (drops : ∀ t u, Reaches step s t → step t = .next u → measure u < measure t) :
    ∃ r, run step (n + 1) s = some r := by
  induction n generalizing s with
  | zero =>
    cases h : step s with
    | halt r => exact ⟨r, by simp only [run, h]⟩
    | next t =>
      have below := drops s t (.refl s) h
      omega
  | succ n ih =>
    cases h : step s with
    | halt r => exact ⟨r, by simp only [run, h]⟩
    | next t =>
      have below := drops s t (.refl s) h
      obtain ⟨r, hr⟩ := ih t (by omega) (fun u v reached => drops u v (reached.head h))
      exact ⟨r, by rw [run, h]; exact hr⟩

/-- A measure that drops at each move of the run bounds the fuel it needs. -/
theorem run_halts_of_measure (step : S → Outcome S R) (measure : S → Nat) (s : S)
    (drops : ∀ t u, Reaches step s t → step t = .next u → measure u < measure t) :
    ∃ r, run step (measure s + 1) s = some r :=
  run_halts_of_bound step measure _ s (Nat.le_refl _) drops

theorem run_some {step : S → Outcome S R} {n : Nat} {s : S} {r : R}
    (halts : run step n s = some r) : ∃ t, Reaches step s t ∧ step t = .halt r := by
  induction n generalizing s with
  | zero => cases halts
  | succ n ih =>
    rw [run] at halts
    cases h : step s with
    | halt q =>
      simp only [h, Option.some.injEq] at halts
      exact ⟨s, .refl s, by rw [h, halts]⟩
    | next t =>
      simp only [h] at halts
      obtain ⟨u, reached, last⟩ := ih halts
      exact ⟨u, reached.head h, last⟩

theorem run_of_reaches {step : S → Outcome S R} {s t : S} {r : R} (reached : Reaches step s t)
    (last : step t = .halt r) : ∃ n, run step n s = some r := by
  induction reached using Relation.ReflTransGen.head_induction_on with
  | refl => exact ⟨1, by rw [run, last]⟩
  | head move _ ih =>
    obtain ⟨n, halts⟩ := ih
    refine ⟨n + 1, ?_⟩
    rw [run, show step _ = .next _ from move]
    exact halts

/-- Two step functions that agree on the states one of them reaches have the
same run under every fuel bound. -/
theorem run_congr {stepA stepB : S → Outcome S R} {s : S}
    (agree : ∀ t, Reaches stepA s t → stepA t = stepB t) (n : Nat) :
    run stepA n s = run stepB n s := by
  induction n generalizing s with
  | zero => rfl
  | succ n ih =>
    rw [run, run, ← agree s (.refl s)]
    cases h : stepA s with
    | halt r => rfl
    | next t => exact ih (fun u reached => agree u (reached.head h))

end FreeBsd.Lib
