import Mathlib.Data.List.Nodup
import Mathlib.Logic.Function.Basic
import Mathlib.Tactic.Common

/-! Lists threaded through memory: the word at each address is the address of the next element, and
zero ends the list. -/
namespace FreeBsd.Lib

inductive Threads (mem : Nat → Nat) : Nat → List Nat → Prop where
  | nil : Threads mem 0 []
  | cons {a : Nat} {xs : List Nat} : a ≠ 0 → Threads mem (mem a) xs → Threads mem a (a :: xs)

variable {mem mem' : Nat → Nat} {head a : Nat} {xs ys : List Nat}

theorem Threads.congr (threads : Threads mem head xs) (same : ∀ a ∈ xs, mem' a = mem a) :
    Threads mem' head xs := by
  induction threads with
  | nil => exact .nil
  | cons other _ ih =>
    obtain ⟨first, rest⟩ := List.forall_mem_cons.mp same
    refine .cons other ?_
    rw [first]
    exact ih rest

theorem Threads.unique (first : Threads mem head xs) (second : Threads mem head ys) : xs = ys := by
  induction first generalizing ys with
  | nil =>
    cases second with
    | nil => rfl
    | cons other _ => exact absurd rfl other
  | cons other _ ih =>
    cases second with
    | nil => exact absurd rfl other
    | cons _ rest => rw [ih rest]

theorem Threads.suffix (threads : Threads mem head xs) (member : a ∈ xs) :
    ∃ ys, Threads mem a (a :: ys) ∧ ys.length < xs.length := by
  induction threads with
  | nil => cases member
  | @cons b rest other threads ih =>
    rcases List.mem_cons.mp member with rfl | later
    · exact ⟨rest, .cons other threads, by simp⟩
    · obtain ⟨ys, found, shorter⟩ := ih later
      exact ⟨ys, found, by simp only [List.length_cons]; omega⟩

theorem Threads.nodup (threads : Threads mem head xs) : xs.Nodup := by
  induction threads with
  | nil => exact List.nodup_nil
  | @cons a rest other threads ih =>
    refine List.nodup_cons.mpr ⟨fun again => ?_, ih⟩
    obtain ⟨ys, found, shorter⟩ := threads.suffix again
    have same := (Threads.cons other threads).unique found
    cases same
    omega

theorem Threads.pop (threads : Threads mem head xs) (some : head ≠ 0) :
    ∃ rest, xs = head :: rest ∧ Threads mem (mem head) rest := by
  cases threads with
  | nil => exact absurd rfl some
  | cons _ rest => exact ⟨_, rfl, rest⟩

theorem Threads.head_eq (threads : Threads mem head (a :: xs)) : head = a := by
  cases threads with
  | cons _ _ => rfl

theorem Threads.tail (threads : Threads mem head (a :: xs)) : Threads mem (mem a) xs := by
  cases threads with
  | cons _ rest => exact rest

theorem Threads.push (threads : Threads mem head xs) (fresh : a ∉ xs) (positive : a ≠ 0) :
    Threads (Function.update mem a head) a (a :: xs) := by
  refine .cons positive ?_
  rw [Function.update_self]
  refine threads.congr fun b member => Function.update_of_ne ?_ _ _
  rintro rfl
  exact fresh member

end FreeBsd.Lib
