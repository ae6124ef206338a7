import FreeBsd.Lib.Trace
import Mathlib.Data.List.Perm.Basic

/-! A server with two queues, each first in, first out, of which one goes before the other. -/
namespace FreeBsd.Lib

variable {α : Type}

structure Queues (α : Type) where
  fast : List α
  slow : List α
  taken : List α

namespace Queues

variable {q r s : Queues α} {x : Option (Bool × α)} {xs : List (Option (Bool × α))}

def empty : Queues α := ⟨[], [], []⟩

def all (q : Queues α) : List α := q.taken ++ q.fast ++ q.slow

def put (q : Queues α) : Option (Bool × α) → Queues α
  | none => q
  | some (true, a) => { q with fast := q.fast ++ [a] }
  | some (false, a) => { q with slow := q.slow ++ [a] }

/-- Some elements have been taken, none of the slow queue while the fast one had any. -/
structure Served (q r : Queues α) : Prop where
  taken : ∃ l, r.taken = q.taken ++ l ∧ l ++ (r.fast ++ r.slow) = q.fast ++ q.slow
  order : r.fast = [] ∨ r.slow = q.slow

theorem Served.refl (q : Queues α) : Served q q :=
  ⟨⟨[], (List.append_nil _).symm, rfl⟩, .inr rfl⟩

theorem Served.fast {a : α} {l : List α} (first : q.fast = a :: l) :
    Served q { q with fast := l, taken := q.taken ++ [a] } :=
  ⟨⟨[a], rfl, by rw [first]; rfl⟩, .inr rfl⟩

theorem Served.slow {a : α} {l : List α} (none : q.fast = []) (first : q.slow = a :: l) :
    Served q { q with slow := l, taken := q.taken ++ [a] } :=
  ⟨⟨[a], rfl, by rw [none, first]; rfl⟩, .inl none⟩

theorem Served.trans (first : Served q r) (second : Served r s) : Served q s := by
  obtain ⟨l, taken, rest⟩ := first.taken
  obtain ⟨k, taken', rest'⟩ := second.taken
  refine ⟨⟨l ++ k, ?_, ?_⟩, ?_⟩
  · rw [taken', taken, List.append_assoc]
  · rw [List.append_assoc, rest', rest]
  · rcases second.order with none | same
    · exact .inl none
    rcases first.order with none | same'
    · -- only the slow queue was left, and nothing of it is gone
      rw [none, same, List.nil_append, ← List.append_assoc] at rest'
      have gone := List.append_left_eq_self.mp rest'
      exact .inl (List.append_eq_nil_iff.mp gone).2
    · exact .inr (same.trans same')

theorem Served.perm (served : Served q r) : List.Perm r.all q.all := by
  obtain ⟨l, taken, rest⟩ := served.taken
  have same : r.all = q.all := by
    unfold all
    rw [List.append_assoc, taken, List.append_assoc, rest, List.append_assoc]
  rw [same]

def Step (q : Queues α) (x : Option (Bool × α)) (r : Queues α) : Prop := Served (q.put x) r

theorem put_perm (q : Queues α) (x : Option (Bool × α)) :
    List.Perm (q.put x).all (q.all ++ (x.map Prod.snd).toList) := by
  obtain _ | ⟨_ | _, a⟩ := x
  · exact .of_eq (List.append_nil _).symm
  · exact .of_eq (List.append_assoc _ _ _).symm
  · unfold all put
    simp only [List.append_assoc]
    exact ((@List.perm_append_comm _ [a] _).append_left _).append_left _

theorem run_perm (run : Run Step q xs r) :
    List.Perm r.all (q.all ++ xs.flatMap fun x => (x.map Prod.snd).toList) := by
  induction run with
  | nil q => exact .of_eq (List.append_nil _).symm
  | cons step _ ih =>
    rw [List.flatMap_cons, ← List.append_assoc]
    exact ih.trans ((step.perm.trans (put_perm _ _)).append_right _)

end Queues

end FreeBsd.Lib
