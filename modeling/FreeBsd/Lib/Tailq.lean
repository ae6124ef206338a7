import Mathlib.Data.List.Nodup
import Mathlib.Logic.Basic
import Mathlib.Logic.Function.Basic

/-! Lists whose elements point back at the link that points at them, with a pointer to the last
link, and the lists of elements they stand for. -/
namespace FreeBsd.Lib

variable {α : Type}

/-- Where a link is kept: the head of the list, or the next field of an element. -/
inductive Cell (α : Type) where
  | head
  | nxt (a : α)
  deriving DecidableEq

structure Tailq (α : Type) where
  link : Cell α → Option α
  prev : α → Option (Cell α)
  tail : Cell α

namespace Tailq

/-- From the link at `c` on, the elements of `l`, up to the link at `d`. -/
def Seg (q : Tailq α) : Cell α → List α → Cell α → Prop
  | c, [], d => c = d
  | c, a :: l, d => q.link c = some a ∧ q.prev a = some c ∧ Seg q (.nxt a) l d

def cells : Cell α → List α → List (Cell α)
  | _, [] => []
  | c, a :: l => c :: cells (.nxt a) l

variable {q q' : Tailq α} {c d e : Cell α} {l r : List α} {a b : α}

theorem Seg.congr (seg : Seg q c l d) (links : ∀ x ∈ cells c l, q'.link x = q.link x)
    (prevs : ∀ a ∈ l, q'.prev a = q.prev a) : Seg q' c l d := by
  induction l generalizing c with
  | nil => exact seg
  | cons a l ih =>
    obtain ⟨link, prev, rest⟩ := seg
    refine ⟨?_, ?_, ih rest ?_ ?_⟩
    · rw [links c List.mem_cons_self, link]
    · rw [prevs a List.mem_cons_self, prev]
    · exact fun x member => links x (List.mem_cons_of_mem _ member)
    · exact fun x member => prevs x (List.mem_cons_of_mem _ member)

theorem Seg.split (seg : Seg q c (l ++ r) e) : ∃ d, Seg q c l d ∧ Seg q d r e := by
  induction l generalizing c with
  | nil => exact ⟨c, rfl, seg⟩
  | cons a l ih =>
    obtain ⟨link, prev, rest⟩ := seg
    obtain ⟨d, first, second⟩ := ih rest
    exact ⟨d, ⟨link, prev, first⟩, second⟩

theorem Seg.append (first : Seg q c l d) (second : Seg q d r e) : Seg q c (l ++ r) e := by
  induction l generalizing c with
  | nil =>
    cases first
    exact second
  | cons a l ih =>
    obtain ⟨link, prev, rest⟩ := first
    exact ⟨link, prev, ih rest⟩

theorem Seg.end_cases (seg : Seg q c l d) : l = [] ∧ d = c ∨ ∃ a ∈ l, d = .nxt a := by
  induction l generalizing c with
  | nil => exact .inl ⟨rfl, Eq.symm seg⟩
  | cons a l ih =>
    rcases ih seg.2.2 with ⟨-, rfl⟩ | ⟨b, member, rfl⟩
    · exact .inr ⟨a, List.mem_cons_self, rfl⟩
    · exact .inr ⟨b, List.mem_cons_of_mem _ member, rfl⟩

theorem cells_cases {x : Cell α} (member : x ∈ cells c l) : x = c ∨ ∃ a ∈ l, x = .nxt a := by
  induction l generalizing c with
  | nil => cases member
  | cons a l ih =>
    rcases List.mem_cons.mp member with rfl | member
    · exact .inl rfl
    · rcases ih member with rfl | ⟨b, here, rfl⟩
      · exact .inr ⟨a, List.mem_cons_self, rfl⟩
      · exact .inr ⟨b, List.mem_cons_of_mem _ here, rfl⟩

theorem Seg.end_fresh (seg : Seg q c l d) (nodup : l.Nodup) (other : ∀ a ∈ l, c ≠ .nxt a) :
    d ∉ cells c l := by
  induction l generalizing c with
  | nil => exact List.not_mem_nil
  | cons a l ih =>
    obtain ⟨fresh, nodup⟩ := List.nodup_cons.mp nodup
    intro member
    rcases List.mem_cons.mp member with rfl | member
    · rcases seg.2.2.end_cases with ⟨-, same⟩ | ⟨b, here, same⟩
      · exact other a List.mem_cons_self same
      · exact other b (List.mem_cons_of_mem _ here) same
    · refine ih seg.2.2 nodup (fun b here same => ?_) member
      cases same
      exact fresh here

structure Holds (q : Tailq α) (l : List α) : Prop where
  seg : Seg q .head l q.tail
  stop : q.link q.tail = none
  nodup : l.Nodup

theorem Holds.head (holds : Holds q l) : q.link .head = l.head? := by
  cases l with
  | nil =>
    have same : Cell.head = q.tail := holds.seg
    rw [same]
    exact holds.stop
  | cons a l => exact holds.seg.1

theorem Holds.next (holds : Holds q (l ++ a :: r)) : q.link (.nxt a) = r.head? := by
  obtain ⟨d, -, -, -, rest⟩ := holds.seg.split
  cases r with
  | nil =>
    have same : Cell.nxt a = q.tail := rest
    rw [same]
    exact holds.stop
  | cons b r => exact rest.1

section Splices

variable [DecidableEq α]

/-- `*a->prev = a->nxt`, and what follows, or the tail, is told; none where a NULL is followed. -/
def remove (q : Tailq α) (a : α) : Option (Tailq α) :=
  match q.prev a with
  | none => none
  | some p =>
    let q := { q with link := Function.update q.link p (q.link (.nxt a)) }
    match q.link (.nxt a) with
    | some b => some { q with prev := Function.update q.prev b (some p) }
    | none => some { q with tail := p }

/-- At the head of a list; the first element is told even where there is none. -/
def insertHead (q : Tailq α) (a : α) : Option (Tailq α) :=
  let q := { q with
    link := Function.update q.link (.nxt a) (q.link .head)
    prev := Function.update q.prev a (some .head) }
  match q.link .head with
  | none => none
  | some b => some { q with
      prev := Function.update q.prev b (some (.nxt a))
      link := Function.update q.link .head (some a) }

def insertTail (q : Tailq α) (a : α) : Tailq α :=
  { link := Function.update (Function.update q.link (.nxt a) none) q.tail (some a)
    prev := Function.update q.prev a (some q.tail)
    tail := .nxt a }

theorem remove_spec (holds : Holds q (l ++ a :: r)) : ∃ q', remove q a = some q' ∧
    Holds q' (l ++ r) := by
  obtain ⟨p, first, link, prev, rest⟩ := holds.seg.split
  obtain ⟨nodupL, nodupR, apart⟩ := List.nodup_append.mp holds.nodup
  obtain ⟨fresh, nodupR⟩ := List.nodup_cons.mp nodupR
  have source := first.end_cases
  have notNext : Cell.nxt a ≠ p := by
    rintro rfl
    rcases source with ⟨-, same⟩ | ⟨b, member, same⟩
    · cases same
    · cases same
      exact apart a member a List.mem_cons_self rfl
  have next := holds.next
  have endFresh : p ∉ cells .head l := first.end_fresh nodupL fun _ _ same => by cases same
  unfold remove
  rw [prev]
  dsimp only
  rw [Function.update_of_ne notNext, next]
  cases r with
  | nil =>
    refine ⟨_, rfl, ?_, ?_, ?_⟩
    · rw [List.append_nil]
      refine first.congr (fun x member => ?_) fun _ _ => rfl
      exact Function.update_of_ne (ne_of_mem_of_not_mem member endFresh) _ _
    · exact Function.update_self _ _ _
    · rw [List.append_nil]
      exact nodupL
  | cons b r =>
    obtain ⟨-, -, later⟩ := rest
    obtain ⟨freshB, -⟩ := List.nodup_cons.mp nodupR
    have others (x : α) (member : x ∈ b :: r) : Cell.nxt x ≠ p := by
      rintro rfl
      rcases source with ⟨-, same⟩ | ⟨y, here, same⟩
      · cases same
      · cases same
        exact apart x here x (List.mem_cons_of_mem _ member) rfl
    refine ⟨_, rfl, ?_, ?_, ?_⟩
    · refine Seg.append (d := p) (first.congr (fun x member => ?_) fun x member => ?_) ⟨?_, ?_, ?_⟩
      · exact Function.update_of_ne (ne_of_mem_of_not_mem member endFresh) _ _
      · refine Function.update_of_ne (fun same => ?_) _ _
        exact apart x member b (List.mem_cons_of_mem _ List.mem_cons_self) same
      · exact Function.update_self _ _ _
      · exact Function.update_self _ _ _
      · refine later.congr (fun x member => ?_) fun x member => ?_
        · refine Function.update_of_ne (fun same => ?_) _ _
          rcases cells_cases member with here | ⟨y, there, here⟩
          · exact others b List.mem_cons_self (here.symm.trans same)
          · exact others y (List.mem_cons_of_mem _ there) (here.symm.trans same)
        · exact Function.update_of_ne (ne_of_mem_of_not_mem member freshB) _ _
    · have tail := later.end_cases
      refine (Function.update_of_ne (fun same => ?_) _ _).trans holds.stop
      rcases tail with ⟨-, here⟩ | ⟨y, there, here⟩
      · exact others b List.mem_cons_self (here.symm.trans same)
      · exact others y (List.mem_cons_of_mem _ there) (here.symm.trans same)
    · exact List.nodup_append.mpr ⟨nodupL, nodupR, fun x left y right =>
        apart x left y (List.mem_cons_of_mem _ right)⟩

theorem insertHead_none (holds : Holds q []) : insertHead q a = none := by
  unfold insertHead
  have empty : q.link .head = none := holds.head
  have headNot : (Cell.head : Cell α) ≠ .nxt a := fun same => by cases same
  dsimp only
  rw [Function.update_of_ne headNot, empty]

theorem insertHead_spec (holds : Holds q (b :: l)) (fresh : a ∉ b :: l) :
    ∃ q', insertHead q a = some q' ∧ Holds q' (a :: b :: l) := by
  obtain ⟨link, prev, rest⟩ := holds.seg
  obtain ⟨freshB, nodup⟩ := List.nodup_cons.mp holds.nodup
  have apart : b ≠ a := ne_of_mem_of_not_mem List.mem_cons_self fresh
  have others (x : α) (member : x ∈ b :: l) : Cell.nxt x ≠ Cell.nxt a := by
    intro same
    cases same
    exact fresh member
  unfold insertHead
  dsimp only
  have headNot : (Cell.head : Cell α) ≠ .nxt a := fun same => by cases same
  rw [Function.update_of_ne headNot, link]
  refine ⟨_, rfl, ?_⟩
  refine ⟨⟨?_, ?_, ?_, ?_, ?_⟩, ?_, ?_⟩
  · simp
  · simp [apart.symm]
  · simp
  · simp
  · refine rest.congr (fun x member => ?_) fun x member => ?_
    · have here : ∃ y ∈ b :: l, x = Cell.nxt y := by
        rcases cells_cases member with same | ⟨y, there, same⟩
        · exact ⟨b, List.mem_cons_self, same⟩
        · exact ⟨y, List.mem_cons_of_mem _ there, same⟩
      obtain ⟨y, there, rfl⟩ := here
      have notHead : (Cell.nxt y : Cell α) ≠ .head := fun same => by cases same
      refine (Function.update_of_ne notHead (some a) _).trans ?_
      exact Function.update_of_ne (others y there) _ _
    · refine (Function.update_of_ne (ne_of_mem_of_not_mem member freshB) _ _).trans ?_
      exact Function.update_of_ne (ne_of_mem_of_not_mem (List.mem_cons_of_mem _ member) fresh) _ _
  · have tail : ∃ y ∈ b :: l, q.tail = Cell.nxt y := by
      rcases rest.end_cases with ⟨-, same⟩ | ⟨y, there, same⟩
      · exact ⟨b, List.mem_cons_self, same⟩
      · exact ⟨y, List.mem_cons_of_mem _ there, same⟩
    obtain ⟨y, there, same⟩ := tail
    refine (Function.update_of_ne (fun wrong => ?_) _ _).trans
      ((Function.update_of_ne (fun wrong => ?_) _ _).trans holds.stop)
    · change q.tail = Cell.head at wrong
      rw [same] at wrong
      cases wrong
    · exact others y there (same.symm.trans wrong)
  · exact List.nodup_cons.mpr ⟨fresh, holds.nodup⟩

theorem insertTail_spec (holds : Holds q l) (fresh : a ∉ l) :
    Holds (insertTail q a) (l ++ [a]) := by
  have source := holds.seg.end_cases
  have apart : q.tail ≠ Cell.nxt a := by
    intro same
    rcases source with ⟨-, here⟩ | ⟨b, member, here⟩
    · rw [same] at here
      cases here
    · rw [same] at here
      cases here
      exact fresh member
  have endFresh : q.tail ∉ cells .head l :=
    holds.seg.end_fresh holds.nodup fun _ _ same => by cases same
  refine ⟨Seg.append (d := q.tail) (holds.seg.congr (fun x member => ?_) fun x member => ?_) ⟨?_,
    ?_, rfl⟩, ?_, ?_⟩
  · refine (Function.update_of_ne (ne_of_mem_of_not_mem member endFresh) _ _).trans ?_
    refine Function.update_of_ne (fun same => ?_) _ _
    rcases cells_cases member with here | ⟨y, there, here⟩
    · rw [same] at here
      cases here
    · rw [same] at here
      cases here
      exact fresh there
  · exact Function.update_of_ne (ne_of_mem_of_not_mem member fresh) _ _
  · exact Function.update_self _ _ _
  · exact Function.update_self _ _ _
  · refine (Function.update_of_ne apart.symm _ _).trans ?_
    exact Function.update_self _ _ _
  · refine List.nodup_append.mpr ⟨holds.nodup, List.nodup_singleton a, fun x left y right => ?_⟩
    rw [List.mem_singleton.mp right]
    rintro rfl
    exact fresh left

end Splices

end Tailq

end FreeBsd.Lib
