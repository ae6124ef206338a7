import Mathlib.Data.List.Pairwise
import Mathlib.Tactic.Common

/-! Reversing pieces of a memory in place, over any type of cells. -/
namespace FreeBsd.Lib

structure Place where
  start : Nat
  size : Nat
  deriving DecidableEq, Repr

namespace Place

variable {p q : Place} {a lo hi lo' hi' : Nat}

def Holds (p : Place) (a : Nat) : Prop := p.start ≤ a ∧ a < p.start + p.size

instance : Decidable (p.Holds a) := inferInstanceAs (Decidable (_ ∧ _))

def mirror (p : Place) (a : Nat) : Nat := p.start + (p.start + p.size - 1 - a)

/-- The place has no cell before `lo` and none from `hi` on. -/
def Within (p : Place) (lo hi : Nat) : Prop := lo ≤ p.start ∧ p.start + p.size ≤ hi

def Apart (p q : Place) : Prop := p.start + p.size ≤ q.start ∨ q.start + q.size ≤ p.start

instance : Decidable (p.Within lo hi) := inferInstanceAs (Decidable (_ ∧ _))

instance : Decidable (p.Apart q) := inferInstanceAs (Decidable (_ ∨ _))

theorem mirror_holds (holds : p.Holds a) : p.Holds (p.mirror a) := by
  unfold Holds mirror at *
  lia

theorem mirror_mirror (holds : p.Holds a) : p.mirror (p.mirror a) = a := by
  unfold Holds mirror at *
  lia

theorem Apart.not_holds (apart : p.Apart q) (holds : p.Holds a) : ¬ q.Holds a := by
  unfold Apart Holds at *
  omega

theorem Apart.symm (apart : p.Apart q) : q.Apart p := Or.symm apart

instance : Std.Symm Apart := ⟨fun _ _ => Apart.symm⟩

theorem Within.mono (inside : p.Within lo hi) (low : lo' ≤ lo) (high : hi ≤ hi') :
    p.Within lo' hi' :=
  ⟨Nat.le_trans low inside.1, Nat.le_trans inside.2 high⟩

theorem Within.apart (inside : p.Within lo hi) (inside' : q.Within lo' hi')
    (order : hi ≤ lo' ∨ hi' ≤ lo) :
    p.Apart q := by
  unfold Within Apart at *
  lia

theorem Within.holds (inside : p.Within lo hi) (holds : p.Holds a) : lo ≤ a ∧ a < hi := by
  unfold Within Holds at *
  omega

end Place

section Flip

variable {α : Type} {m : Nat → α} {p : Place} {l l' : List Place} {a : Nat}

def flip (m : Nat → α) (p : Place) : Nat → α := fun a => if p.Holds a then m (p.mirror a) else m a

def flips (m : Nat → α) (l : List Place) : Nat → α := l.foldl flip m

theorem flips_append (m : Nat → α) (l l' : List Place) : flips m (l ++ l') = flips (flips m l) l' :=
  List.foldl_append ..

theorem flips_outside (outside : ∀ p ∈ l, ¬ p.Holds a) : flips m l a = m a := by
  induction l generalizing m with
  | nil => rfl
  | cons p l ih =>
    have rest := @ih (flip m p) fun q member => outside q (List.mem_cons_of_mem p member)
    exact rest.trans (if_neg (outside p List.mem_cons_self))

theorem flips_inside (apart : l.Pairwise Place.Apart) (member : p ∈ l) (holds : p.Holds a) :
    flips m l a = m (p.mirror a) := by
  induction l generalizing m with
  | nil => cases member
  | cons q l ih =>
    obtain ⟨first, apart⟩ := List.pairwise_cons.mp apart
    change flips (flip m q) l a = _
    rcases List.mem_cons.mp member with rfl | member
    · rw [flips_outside fun q' member' => (first q' member').not_holds holds]
      exact if_pos holds
    · rw [ih apart member]
      refine if_neg fun other => ?_
      exact (first p member).not_holds other (Place.mirror_holds holds)

theorem holder_unique {q : Place} (apart : l.Pairwise Place.Apart) (member : p ∈ l)
    (member' : q ∈ l) (holds : p.Holds a) (holds' : q.Holds a) : p = q := by
  by_contra different
  exact (apart.forall member member' different).not_holds holds holds'

theorem flips_back (apart : l.Pairwise Place.Apart) (apart' : l'.Pairwise Place.Apart)
    (sub : l' ⊆ l) (back : ∀ p ∈ l, p.Holds a → p ∈ l') : flips (flips m l) l' a = m a := by
  by_cases held : ∃ p ∈ l, p.Holds a
  · obtain ⟨p, member, holds⟩ := held
    rw [flips_inside apart' (back p member holds) holds,
      flips_inside apart member (Place.mirror_holds holds), Place.mirror_mirror holds]
  · have outside : ∀ p ∈ l, ¬ p.Holds a := fun p member holds => held ⟨p, member, holds⟩
    rw [flips_outside fun p member => outside p (sub member), flips_outside outside]

end Flip

end FreeBsd.Lib
