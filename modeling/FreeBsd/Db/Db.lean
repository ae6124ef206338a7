import Mathlib.Tactic.Ring
import FreeBsd.Lib.Trace
import Mathlib.Logic.Function.Basic

/-! The calls of a database, and the finite map that they are about. -/
namespace FreeBsd.Db

open FreeBsd.Lib

abbrev Bytes := List UInt8

/-- Why a call does not come to its end: it returns an error, or it is somewhere that is not
modelled (records kept outside of their page, memory that it does not own, a loop without end). -/
inductive Fault where
  | failure
  | astray
  deriving DecidableEq

inductive Action where
  | get (key : Bytes)
  | put (key val : Bytes)
  | putnew (key val : Bytes)
  | delete (key : Bytes)
  deriving DecidableEq

def Action.key : Action → Bytes
  | get key | put key _ | putnew key _ | delete key => key

/-- What a call returns when it does not fail: 0, with the data it finds, or 1. -/
inductive Answer where
  | success
  | data (val : Bytes)
  | abnormal
  deriving DecidableEq

def answerOf (m : Bytes → Option Bytes) : Action → (Bytes → Option Bytes) × Answer
  | .get key =>
    match m key with
    | some val => (m, .data val)
    | none => (m, .abnormal)
  | .put key val => (Function.update m key (some val), .success)
  | .putnew key val =>
    match m key with
    | some _ => (m, .abnormal)
    | none => (Function.update m key (some val), .success)
  | .delete key =>
    match m key with
    | some _ => (Function.update m key none, .success)
    | none => (m, .abnormal)

def MapCall (m : Bytes → Option Bytes) (call : Action × Answer) (m' : Bytes → Option Bytes) :
    Prop :=
  answerOf m call.1 = (m', call.2)

def tryMap (m : Bytes → Option Bytes) (call : Action × Answer) : Option (Bytes → Option Bytes) :=
  if (answerOf m call.1).2 = call.2 then some (answerOf m call.1).1 else none

theorem MapCall.tried (m : Bytes → Option Bytes) (ret : Action × Answer) (m' : Bytes → Option Bytes)
    (called : MapCall m ret m') : tryMap m ret = some m' := by
  rw [MapCall] at called
  rw [tryMap, called, if_pos rfl]

/-- Where the map cannot follow the calls of a list, no run of the map has them. -/
theorem not_mapRun {m : Bytes → Option Bytes} {calls : List (Action × Answer)}
    (stuck : (replay tryMap m calls).isSome = false) : ¬ ∃ m', Run MapCall m calls m' := by
  rintro ⟨m', run⟩
  have answered := run.replay MapCall.tried
  rw [answered] at stuck
  cases stuck

end FreeBsd.Db
