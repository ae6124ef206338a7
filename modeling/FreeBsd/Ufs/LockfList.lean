import FreeBsd.Ufs.Lockf
import Mathlib.Data.List.Pairwise

/-! What the two edits of a lock list do. An owner's entries are kept apart and in
increasing order, which is what makes the early exit of `lf_findoverlap` sound; under
that invariant setting and clearing a range act on the byte map an entry at a time. -/
namespace FreeBsd.Ufs

open FreeBsd.Lib (wrap32 wrap32_eq)

variable {ι : Type}

def Lockf.Contains (lf : Lockf ι) (x : Int) : Prop := lf.start ≤ x ∧ (lf.last = -1 ∨ x ≤ lf.last)

instance (lf : Lockf ι) (x : Int) : Decidable (lf.Contains x) :=
  inferInstanceAs (Decidable (_ ∧ _))

def Lockf.Valid (lf : Lockf ι) : Prop :=
  0 ≤ lf.start ∧ lf.start < 2 ^ 31 ∧ (lf.last = -1 ∨ lf.start ≤ lf.last ∧ lf.last < 2 ^ 31)

def Lockf.Short (lf : Lockf ι) : Prop := lf.last + 1 < 2 ^ 31

/-- Where a lock of the owner goes on to the end of file, it can go on behind the range. -/
def Room (unlock : Lockf ι) (list : List (Lockf ι)) : Prop :=
  ∀ h ∈ list, h.id = unlock.id → h.last = -1 → unlock.Short

/-- The same for a lock to be set, which does not cut one of its type that it is part of. -/
def SetRoom (lock : Lockf ι) (list : List (Lockf ι)) : Prop :=
  ∀ h ∈ list, h.id = lock.id → h.last = -1 → lock.Short ∨ h.type = lock.type ∧ h.start ≤ lock.start

theorem Lockf.Short.room {unlock : Lockf ι} (short : unlock.Short) (list : List (Lockf ι)) :
    Room unlock list := fun _ _ _ _ => short

theorem Room.set {lock : Lockf ι} {list : List (Lockf ι)} (room : Room lock list) :
    SetRoom lock list := fun h member same open_ => .inl (room h member same open_)

def Before (a b : Lockf ι) : Prop := a.last ≠ -1 ∧ a.last < b.start

/-- Each owner's entries are disjoint and in increasing order along the list. -/
def Sorted (list : List (Lockf ι)) : Prop := list.Pairwise (fun a b => a.id = b.id → Before a b)

structure Piece (p h : Lockf ι) : Prop where
  id : p.id = h.id
  type : p.type = h.type
  start : h.start ≤ p.start
  last : h.last = -1 ∨ p.last ≠ -1 ∧ p.last ≤ h.last

theorem Piece.refl (h : Lockf ι) : Piece h h := by
  refine ⟨rfl, rfl, le_refl _, ?_⟩
  by_cases open_ : h.last = -1
  · exact .inl open_
  · exact .inr ⟨open_, le_refl _⟩

theorem Piece.contains {p h : Lockf ι} (piece : Piece p h) {x : Int} (inside : p.Contains x) :
    h.Contains x := by
  obtain ⟨_, _, start, last⟩ := piece
  unfold Lockf.Contains at *
  lia

theorem Piece.trans {p q h : Lockf ι} (first : Piece p q) (second : Piece q h) : Piece p h := by
  obtain ⟨id₁, type₁, start₁, last₁⟩ := first
  obtain ⟨id₂, type₂, start₂, last₂⟩ := second
  exact ⟨id₁.trans id₂, type₁.trans type₂, by lia, by lia⟩

theorem Piece.before {p h r : Lockf ι} (piece : Piece p h) (before : Before h r) : Before p r := by
  obtain ⟨_, _, start, last⟩ := piece
  unfold Before at *
  omega

theorem Piece.after {p h r : Lockf ι} (piece : Piece p h) (before : Before r h) : Before r p := by
  obtain ⟨_, _, start, last⟩ := piece
  unfold Before at *
  lia

theorem sorted_replace {A B P : List (Lockf ι)} {h : Lockf ι} (sorted : Sorted (A ++ h :: B))
    (pieces : ∀ p ∈ P, Piece p h) (inner : Sorted P) : Sorted (A ++ (P ++ B)) := by
  unfold Sorted at *
  rw [List.pairwise_append, List.pairwise_cons] at sorted
  obtain ⟨left, ⟨head, right⟩, across⟩ := sorted
  rw [List.pairwise_append, List.pairwise_append]
  refine ⟨left, ⟨inner, right, ?_⟩, ?_⟩
  · intro p hp r hr same
    have piece := pieces p hp
    exact piece.before (head r hr (piece.id.symm.trans same))
  · intro a ha r hr same
    rcases List.mem_append.mp hr with hr | hr
    · have piece := pieces r hr
      exact piece.after (across a ha h List.mem_cons_self (same.trans piece.id))
    · exact across a ha r (List.mem_cons_of_mem _ hr) same

theorem sorted_insert {A B : List (Lockf ι)} {lock : Lockf ι} (sorted : Sorted (A ++ B))
    (left : ∀ a ∈ A, a.id = lock.id → Before a lock)
    (right : ∀ b ∈ B, b.id = lock.id → Before lock b) : Sorted (A ++ lock :: B) := by
  unfold Sorted at *
  rw [List.pairwise_append] at sorted ⊢
  obtain ⟨first, second, across⟩ := sorted
  refine ⟨first, List.pairwise_cons.mpr ⟨fun b hb same => right b hb same.symm, second⟩, ?_⟩
  intro a ha b hb same
  rcases List.mem_cons.mp hb with rfl | hb
  · exact left a ha same
  · exact across a ha b hb same

theorem sorted_after {A B : List (Lockf ι)} {h : Lockf ι} (sorted : Sorted (A ++ h :: B))
    {r : Lockf ι} (member : r ∈ B) (same : r.id = h.id) : Before h r := by
  unfold Sorted at sorted
  rw [List.pairwise_append, List.pairwise_cons] at sorted
  exact sorted.2.1.1 r member same.symm

/- The byte map of a list, as a relation: owner, byte and type. -/
def Covers (list : List (Lockf ι)) (o : ι) (x : Int) (t : LockType) : Prop :=
  ∃ l ∈ list, l.id = o ∧ l.Contains x ∧ l.type = t

@[simp] theorem covers_nil (o : ι) (x : Int) (t : LockType) : ¬ Covers [] o x t := by
  rintro ⟨l, member, _⟩
  cases member

@[simp] theorem covers_append (A B : List (Lockf ι)) (o : ι) (x : Int) (t : LockType) :
    Covers (A ++ B) o x t ↔ Covers A o x t ∨ Covers B o x t := by
  simp only [Covers, List.mem_append, or_and_right, exists_or]

@[simp] theorem covers_cons (l : Lockf ι) (B : List (Lockf ι)) (o : ι) (x : Int) (t : LockType) :
    Covers (l :: B) o x t ↔ (l.id = o ∧ l.Contains x ∧ l.type = t) ∨ Covers B o x t := by
  simp only [Covers, List.mem_cons, or_and_right, exists_or, exists_eq_left]

/-- The owner's entries stay clear of the range of `lock`. -/
def Apart (list : List (Lockf ι)) (lock : Lockf ι) : Prop :=
  ∀ l ∈ list, l.id = lock.id → Before l lock ∨ Before lock l

theorem apart_append {A B : List (Lockf ι)} {lock : Lockf ι} (left : Apart A lock)
    (right : Apart B lock) : Apart (A ++ B) lock := by
  intro l member
  rcases List.mem_append.mp member with member | member
  · exact left l member
  · exact right l member

theorem apart_of_before {A : List (Lockf ι)} {lock : Lockf ι}
    (before : ∀ a ∈ A, a.id = lock.id → Before a lock) : Apart A lock :=
  fun a member same => .inl (before a member same)

theorem apart_of_after {A : List (Lockf ι)} {lock : Lockf ι}
    (after : ∀ a ∈ A, a.id = lock.id → Before lock a) : Apart A lock :=
  fun a member same => .inr (after a member same)

theorem covers_outside {A : List (Lockf ι)} {lock : Lockf ι} (apart : Apart A lock) {x : Int}
    {t : LockType} (inside : lock.Contains x) : ¬ Covers A lock.id x t := by
  rintro ⟨l, member, same, contains, _⟩
  have away := apart l member same
  unfold Before at away
  unfold Lockf.Contains at *
  lia

def Cleared (old : List (Lockf ι)) (unlock : Lockf ι) (o : ι) (x : Int) (t : LockType) : Prop :=
  Covers old o x t ∧ ¬ (o = unlock.id ∧ unlock.Contains x)

/-- The byte map with the range of `lock` set to its type. -/
def Assigned (old : List (Lockf ι)) (lock : Lockf ι) (o : ι) (x : Int) (t : LockType) : Prop :=
  (o = lock.id ∧ lock.Contains x ∧ t = lock.type) ∨ Cleared old lock o x t

theorem cleared_of_apart {list : List (Lockf ι)} {unlock : Lockf ι} (apart : Apart list unlock)
    (o : ι) (x : Int) (t : LockType) : Covers list o x t ↔ Cleared list unlock o x t := by
  constructor
  · intro covers
    refine ⟨covers, ?_⟩
    rintro ⟨rfl, inside⟩
    exact covers_outside apart inside covers
  · exact fun cleared => cleared.1

/-- Replacing an entry of the owner by pieces that agree with it off the range. -/
theorem cleared_replace {A B P : List (Lockf ι)} {h unlock : Lockf ι} (own : h.id = unlock.id)
    (pieces : ∀ p ∈ P, Piece p h)
    (keep : ∀ x, h.Contains x → ¬ unlock.Contains x → ∃ p ∈ P, p.Contains x)
    (o : ι) (x : Int) (t : LockType) :
    Cleared (A ++ (P ++ B)) unlock o x t ↔ Cleared (A ++ h :: B) unlock o x t := by
  simp only [Cleared, covers_append, covers_cons]
  constructor
  · rintro ⟨(left | inner | right), off⟩
    · exact ⟨.inl left, off⟩
    · obtain ⟨p, member, same, inside, type⟩ := inner
      have piece := pieces p member
      exact ⟨.inr (.inl ⟨piece.id ▸ same, piece.contains inside, piece.type ▸ type⟩), off⟩
    · exact ⟨.inr (.inr right), off⟩
  · rintro ⟨(left | ⟨same, inside, type⟩ | right), off⟩
    · exact ⟨.inl left, off⟩
    · have outside : ¬ unlock.Contains x := fun within => off ⟨same ▸ own, within⟩
      obtain ⟨p, member, holds⟩ := keep x inside outside
      have piece := pieces p member
      exact ⟨.inr (.inl ⟨p, member, piece.id.trans same, holds, piece.type.trans type⟩), off⟩
    · exact ⟨.inr (.inr right), off⟩

theorem assigned_insert {A B old : List (Lockf ι)} {lock linked : Lockf ι}
    (apart : Apart (A ++ B) lock) (id : linked.id = lock.id) (type : linked.type = lock.type)
    (range : ∀ x, linked.Contains x ↔ lock.Contains x) {o : ι} {x : Int} {t : LockType}
    (rest : Cleared (A ++ B) lock o x t ↔ Cleared old lock o x t) :
    Covers (A ++ linked :: B) o x t ↔ Assigned old lock o x t := by
  rw [Assigned, ← rest, ← cleared_of_apart apart]
  simp only [covers_append, covers_cons, id, type, range]
  constructor
  · rintro (left | ⟨rfl, inside, rfl⟩ | right)
    · exact .inr (.inl left)
    · exact .inl ⟨rfl, inside, rfl⟩
    · exact .inr (.inr right)
  · rintro (⟨rfl, inside, rfl⟩ | left | right)
    · exact .inr (.inl ⟨rfl, inside, rfl⟩)
    · exact .inl left
    · exact .inr (.inr right)

section Overlap

variable {h lock : Lockf ι}

theorem ovcase_equal (c : ovcase h lock = .equal) : h.start = lock.start ∧ h.last = lock.last := by
  unfold ovcase at c
  split_ifs at c
  assumption

theorem ovcase_contains (c : ovcase h lock = .contains) :
    h.start ≤ lock.start ∧ lock.last ≠ -1 ∧ (lock.last ≤ h.last ∨ h.last = -1) ∧
      ¬ (h.start = lock.start ∧ h.last = lock.last) := by
  unfold ovcase at c
  split_ifs at c
  exact ⟨by lia, by lia, by lia, by assumption⟩

theorem ovcase_contained (c : ovcase h lock = .contained) :
    lock.start ≤ h.start ∧ (lock.last = -1 ∨ h.last ≠ -1 ∧ h.last ≤ lock.last) := by
  unfold ovcase at c
  split_ifs at c
  omega

theorem ovcase_startsBefore (c : ovcase h lock = .startsBefore) :
    h.start < lock.start ∧ (lock.start ≤ h.last ∨ h.last = -1) ∧
      (lock.last = -1 ∨ h.last ≠ -1 ∧ h.last < lock.last) := by
  unfold ovcase at c
  split_ifs at c
  lia

theorem ovcase_endsAfter (c : ovcase h lock = .endsAfter) :
    lock.start < h.start ∧ lock.last ≠ -1 ∧ h.start ≤ lock.last ∧
      (lock.last < h.last ∨ h.last = -1) := by
  unfold ovcase at c
  split_ifs at c
  lia

theorem ovcase_none (c : ovcase h lock = .none) : Before h lock ∨ Before lock h := by
  unfold ovcase at c
  unfold Before
  split_ifs at c
  omega

theorem ovcase_ne_panic : ovcase h lock ≠ .panic := by
  intro c
  unfold ovcase at c
  split_ifs at c
  lia

end Overlap

structure Tail (p h unlock : Lockf ι) : Prop where
  piece : Piece p h
  valid : p.Valid
  after : Before unlock p
  keeps : ∀ x, h.Contains x → unlock.last < x → p.Contains x

theorem tail_of {p h unlock : Lockf ι} (ok : unlock.Valid) (good : h.Valid)
    (room : h.last = -1 → unlock.Short) (finite : unlock.last ≠ -1)
    (reach : unlock.last < h.last ∨ h.last = -1) (start : h.start ≤ unlock.last) (hid : p.id = h.id)
    (htype : p.type = h.type) (hstart : p.start = wrap32 (unlock.last + 1))
    (hlast : p.last = h.last) :
    Tail p h unlock := by
  unfold Lockf.Valid at ok good
  unfold Lockf.Short at room
  rw [wrap32_eq (by lia) (by lia)] at hstart
  refine ⟨⟨hid, htype, by lia, by lia⟩, ?_, ⟨finite, by lia⟩, ?_⟩
  · unfold Lockf.Valid
    lia
  · intro x inside past
    unfold Lockf.Contains at *
    lia

structure Front (p h unlock : Lockf ι) : Prop where
  piece : Piece p h
  valid : p.Valid
  before : Before p unlock
  keeps : ∀ x, h.Contains x → x < unlock.start → p.Contains x

theorem front_of {p h unlock : Lockf ι} (ok : unlock.Valid) (good : h.Valid)
    (start : h.start < unlock.start) (reach : unlock.start ≤ h.last ∨ h.last = -1)
    (hid : p.id = h.id) (htype : p.type = h.type) (hstart : p.start = h.start)
    (hlast : p.last = wrap32 (unlock.start - 1)) : Front p h unlock := by
  unfold Lockf.Valid at ok good
  rw [wrap32_eq (by lia) (by lia)] at hlast
  refine ⟨⟨hid, htype, by lia, by lia⟩, ?_, ⟨by lia, by lia⟩, ?_⟩
  · unfold Lockf.Valid
    lia
  · intro x inside past
    unfold Lockf.Contains at *
    lia

/-- What `lf_findoverlap` returns in a search for the owner's own entries. -/
inductive Found (lock : Lockf ι) : Ovcase → List (Lockf ι) → Prop where
  | finish : Found lock .none []
  | gap {h : Lockf ι} {t : List (Lockf ι)} : h.id = lock.id → Before lock h →
      Found lock .none (h :: t)
  | hit {h : Lockf ι} {t : List (Lockf ι)} : h.id = lock.id → ovcase h lock ≠ .none →
      Found lock (ovcase h lock) (h :: t)

/-- The outcome of an edit: still sorted and valid, every entry a piece of one of
`sources`, and the byte map as `covers` says. -/
structure Edited (sources new : List (Lockf ι)) (covers : ι → Int → LockType → Prop) : Prop where
  sorted : Sorted new
  valid : ∀ l ∈ new, l.Valid
  piece : ∀ l ∈ new, ∃ h ∈ sources, Piece l h
  covers : ∀ o x t, Covers new o x t ↔ covers o x t

theorem edited_same {list : List (Lockf ι)} {unlock : Lockf ι} (sorted : Sorted list)
    (valid : ∀ l ∈ list, l.Valid) (apart : Apart list unlock) :
    Edited list list (Cleared list unlock) :=
  ⟨sorted, valid, fun l member => ⟨l, member, .refl l⟩, cleared_of_apart apart⟩

theorem valid_replace {A B P : List (Lockf ι)} {h : Lockf ι} (valid : ∀ l ∈ A ++ h :: B, l.Valid)
    (good : ∀ p ∈ P, p.Valid) : ∀ l ∈ A ++ (P ++ B), l.Valid := by
  intro l member
  simp only [List.mem_append] at member
  rcases member with member | member | member
  · exact valid l (by simp [member])
  · exact good l member
  · exact valid l (by simp [member])

/-- The last step of a clearing: `h` gives way to the pieces off the range. -/
theorem edited_replace {A B P : List (Lockf ι)} {h unlock : Lockf ι}
    (sorted : Sorted (A ++ h :: B)) (valid : ∀ l ∈ A ++ h :: B, l.Valid)
    (own : h.id = unlock.id) (pieces : ∀ p ∈ P, Piece p h) (inner : Sorted P)
    (good : ∀ p ∈ P, p.Valid)
    (keep : ∀ x, h.Contains x → ¬ unlock.Contains x → ∃ p ∈ P, p.Contains x)
    (left : Apart A unlock) (middle : Apart P unlock) (right : Apart B unlock) :
    Edited (A ++ h :: B) (A ++ (P ++ B)) (Cleared (A ++ h :: B) unlock) := by
  refine ⟨sorted_replace sorted pieces inner, valid_replace valid good, ?_, ?_⟩
  · intro l member
    simp only [List.mem_append] at member
    rcases member with member | member | member
    · exact ⟨l, by simp [member], .refl l⟩
    · exact ⟨h, by simp, pieces l member⟩
    · exact ⟨l, by simp [member], .refl l⟩
  · intro o x t
    rw [cleared_of_apart (apart_append left (apart_append middle right)),
      cleared_replace own pieces keep]

/-- A step that goes on: `h` gives way to `P` and the rest is edited further. -/
theorem edited_continue {A B P new : List (Lockf ι)} {h unlock : Lockf ι}
    (own : h.id = unlock.id) (pieces : ∀ p ∈ P, Piece p h)
    (keep : ∀ x, h.Contains x → ¬ unlock.Contains x → ∃ p ∈ P, p.Contains x)
    (edit : Edited (A ++ (P ++ B)) new (Cleared (A ++ (P ++ B)) unlock)) :
    Edited (A ++ h :: B) new (Cleared (A ++ h :: B) unlock) := by
  refine ⟨edit.sorted, edit.valid, ?_, ?_⟩
  · intro l member
    obtain ⟨g, old, piece⟩ := edit.piece l member
    simp only [List.mem_append] at old
    rcases old with old | old | old
    · exact ⟨g, by simp [old], piece⟩
    · exact ⟨h, by simp, piece.trans (pieces g old)⟩
    · exact ⟨g, by simp [old], piece⟩
  · intro o x t
    rw [edit.covers, cleared_replace own pieces keep]

/-- The owner's entries behind one that reaches past the range stay clear of it. -/
theorem apart_behind {A B : List (Lockf ι)} {h unlock : Lockf ι} (sorted : Sorted (A ++ h :: B))
    (own : h.id = unlock.id) (reach : unlock.last ≠ -1 ∧ (unlock.last ≤ h.last ∨ h.last = -1)) :
    Apart B unlock := by
  apply apart_of_after
  intro r member same
  have order := sorted_after sorted member (same.trans own.symm)
  unfold Before at *
  lia

theorem edited_tail {A B : List (Lockf ι)} {h p unlock : Lockf ι}
    (sorted : Sorted (A ++ h :: B)) (valid : ∀ l ∈ A ++ h :: B, l.Valid)
    (own : h.id = unlock.id) (left : Apart A unlock) (right : Apart B unlock)
    (start : unlock.start ≤ h.start) (tail : Tail p h unlock) :
    Edited (A ++ h :: B) (A ++ p :: B) (Cleared (A ++ h :: B) unlock) := by
  have keep : ∀ x, h.Contains x → ¬ unlock.Contains x → ∃ q ∈ [p], q.Contains x := by
    intro x inside off
    refine ⟨p, by simp, tail.keeps x inside ?_⟩
    unfold Lockf.Contains at inside off
    omega
  exact edited_replace (P := [p]) sorted valid own (by simpa using tail.piece)
    (List.pairwise_singleton _ _) (by simpa using tail.valid) keep left
    (by simpa [Apart] using fun _ => .inr tail.after) right

theorem edited_front {A B : List (Lockf ι)} {h f unlock : Lockf ι}
    (sorted : Sorted (A ++ h :: B)) (valid : ∀ l ∈ A ++ h :: B, l.Valid)
    (own : h.id = unlock.id) (left : Apart A unlock) (right : Apart B unlock)
    (last : h.last = unlock.last) (front : Front f h unlock) :
    Edited (A ++ h :: B) (A ++ f :: B) (Cleared (A ++ h :: B) unlock) := by
  have keep : ∀ x, h.Contains x → ¬ unlock.Contains x → ∃ q ∈ [f], q.Contains x := by
    intro x inside off
    refine ⟨f, by simp, front.keeps x inside ?_⟩
    unfold Lockf.Contains at inside off
    omega
  exact edited_replace (P := [f]) sorted valid own (by simpa using front.piece)
    (List.pairwise_singleton _ _) (by simpa using front.valid) keep left
    (by simpa [Apart] using fun _ => .inl front.before) right

theorem front_before_tail {h f p unlock : Lockf ι} (ok : unlock.Valid) (front : Front f h unlock)
    (tail : Tail p h unlock) : Before f p := by
  have first := front.before
  have second := tail.after
  unfold Before Lockf.Valid at *
  lia

theorem edited_split {A B : List (Lockf ι)} {h f p unlock : Lockf ι} (ok : unlock.Valid)
    (sorted : Sorted (A ++ h :: B)) (valid : ∀ l ∈ A ++ h :: B, l.Valid)
    (own : h.id = unlock.id) (left : Apart A unlock) (right : Apart B unlock)
    (front : Front f h unlock) (tail : Tail p h unlock) :
    Edited (A ++ h :: B) (A ++ f :: p :: B) (Cleared (A ++ h :: B) unlock) := by
  have keep : ∀ x, h.Contains x → ¬ unlock.Contains x → ∃ q ∈ [f, p], q.Contains x := by
    intro x inside off
    by_cases low : x < unlock.start
    · exact ⟨f, by simp, front.keeps x inside low⟩
    · refine ⟨p, by simp, tail.keeps x inside ?_⟩
      unfold Lockf.Contains at inside off
      omega
  have inner : Sorted [f, p] := by
    simpa [Sorted] using fun _ => front_before_tail ok front tail
  refine edited_replace (P := [f, p]) sorted valid own ?_ inner ?_ keep left ?_ right
  · simpa using ⟨front.piece, tail.piece⟩
  · simpa using ⟨front.valid, tail.valid⟩
  · simpa [Apart] using ⟨fun _ => .inl front.before, fun _ => .inr tail.after⟩

variable [DecidableEq ι]

theorem findOverlap_self (lock : Lockf ι) (list : List (Lockf ι)) :
    list = (findOverlap .self lock list).1 ++ (findOverlap .self lock list).2.2 ∧
    (∀ p ∈ (findOverlap .self lock list).1, p.id = lock.id → Before p lock) ∧
    Found lock (findOverlap .self lock list).2.1 (findOverlap .self lock list).2.2 := by
  induction list with
  | nil => exact ⟨rfl, by simp [findOverlap], .finish⟩
  | cons lf rest ih =>
    obtain ⟨split, passed, found⟩ := ih
    by_cases own : lf.id = lock.id
    · by_cases clear : ovcase lf lock = .none
      · by_cases past : lock.last ≠ -1 ∧ lf.start > lock.last
        · have here : findOverlap .self lock (lf :: rest) = ([], .none, lf :: rest) := by
            simp [findOverlap, Search.skips, own, clear, past]
          rw [here]
          exact ⟨rfl, by simp, .gap own past⟩
        · have here : findOverlap .self lock (lf :: rest) =
              (lf :: (findOverlap .self lock rest).1, (findOverlap .self lock rest).2) := by
            simp [findOverlap, Search.skips, own, clear, past]
          rw [here]
          refine ⟨by rw [List.cons_append, ← split], ?_, found⟩
          intro p hp same
          rcases List.mem_cons.mp hp with rfl | hp
          · rcases ovcase_none clear with before | after
            · exact before
            · exact absurd after past
          · exact passed p hp same
      · have here : findOverlap .self lock (lf :: rest) = ([], ovcase lf lock, lf :: rest) := by
          cases c : ovcase lf lock <;> simp [findOverlap, Search.skips, own, c]
          exact absurd c clear
        rw [here]
        exact ⟨rfl, by simp, .hit own clear⟩
    · have here : findOverlap .self lock (lf :: rest) =
          (lf :: (findOverlap .self lock rest).1, (findOverlap .self lock rest).2) := by
        simp [findOverlap, Search.skips, own]
      rw [here]
      refine ⟨by rw [List.cons_append, ← split], ?_, found⟩
      intro p hp same
      rcases List.mem_cons.mp hp with rfl | hp
      · exact absurd same own
      · exact passed p hp same

omit [DecidableEq ι] in
theorem lfSplit_two {fresh : Nat} {a b : Lockf ι} (start : a.start ≠ b.start)
    (last : a.last = b.last) :
    lfSplit fresh a b = [{ a with last := wrap32 (b.start - 1) }, b] := by
  rw [lfSplit, if_neg start, if_pos last]

omit [DecidableEq ι] in
theorem lfSplit_three {fresh : Nat} {a b : Lockf ι} (start : a.start ≠ b.start)
    (last : a.last ≠ b.last) :
    lfSplit fresh a b = [{ a with last := wrap32 (b.start - 1) }, b,
      { a with addr := fresh, start := wrap32 (b.last + 1), block := [] }] := by
  rw [lfSplit, if_neg start, if_neg last]

theorem clearLoop_spec (fresh : Nat) {unlock : Lockf ι} (ok : unlock.Valid) (fuel : Nat)
    (before list : List (Lockf ι)) (woken : List Nat) (enough : list.length < fuel)
    (sorted : Sorted (before ++ list)) (valid : ∀ l ∈ before ++ list, l.Valid)
    (passed : ∀ a ∈ before, a.id = unlock.id → Before a unlock) (room : Room unlock list) :
    ∃ e, clearLoop fresh unlock fuel before list woken = some e ∧
      Edited (before ++ list) e.list (Cleared (before ++ list) unlock) := by
  induction fuel generalizing before list woken with
  | zero => lia
  | succ fuel ih =>
    obtain ⟨split, skipped, found⟩ := findOverlap_self unlock list
    rw [clearLoop]
    generalize findOverlap .self unlock list = result at split skipped found ⊢
    obtain ⟨skip, c, rest⟩ := result
    simp only at split skipped found ⊢
    subst split
    have front : ∀ a ∈ before ++ skip, a.id = unlock.id → Before a unlock := by
      intro a member
      rcases List.mem_append.mp member with member | member
      · exact passed a member
      · exact skipped a member
    rw [← List.append_assoc] at sorted valid ⊢
    cases found with
    | finish =>
      refine ⟨_, rfl, ?_⟩
      simp only [List.append_nil] at sorted valid ⊢
      exact edited_same sorted valid (apart_of_before front)
    | @gap h t own gap =>
      refine ⟨_, rfl, ?_⟩
      simp only [← List.append_assoc]
      apply edited_same sorted valid
      apply apart_append (apart_of_before front)
      apply apart_of_after
      intro r member same
      rcases List.mem_cons.mp member with rfl | member
      · exact gap
      · have order := sorted_after sorted member (same.trans own.symm)
        have sound := valid h (by simp)
        unfold Before Lockf.Valid at *
        lia
    | @hit h t own hit =>
      have good : h.Valid := valid h (by simp)
      have left := apart_of_before front
      have mine : h.last = -1 → unlock.Short := room h (by simp) own
      have later : Room unlock t := fun r member => room r (by simp [member])
      have shorter : t.length < fuel := by
        simp only [List.length_append, List.length_cons] at enough
        lia
      simp only [← List.append_assoc]
      cases c : ovcase h unlock with
      | none => exact absurd c hit
      | panic => exact absurd c ovcase_ne_panic
      | equal =>
        refine ⟨_, rfl, ?_⟩
        have same := ovcase_equal c
        have right : Apart t unlock := by
          by_cases finite : unlock.last = -1
          · apply apart_of_after
            intro r member id
            have order := sorted_after sorted member (id.trans own.symm)
            unfold Before at order
            lia
          · exact apart_behind sorted own (by lia)
        have none : ∀ x, h.Contains x → ¬ unlock.Contains x → ∃ p ∈ ([] : List (Lockf ι)),
            p.Contains x := by
          intro x inside off
          unfold Lockf.Contains at *
          lia
        exact edited_replace sorted valid own (by simp) .nil (by simp) none left
          (by simp [Apart]) right
      | contains =>
        have facts := ovcase_contains c
        have right := apart_behind sorted own (by lia)
        by_cases aligned : h.start = unlock.start
        · simp only [if_pos aligned]
          refine ⟨_, rfl, edited_tail sorted valid own left right (by lia) ?_⟩
          exact tail_of ok good mine facts.2.1 (by lia) (by unfold Lockf.Valid at ok; lia)
            rfl rfl rfl rfl
        · simp only [if_neg aligned]
          refine ⟨_, rfl, ?_⟩
          have low : h.start < unlock.start := by lia
          have meets : unlock.start ≤ h.last ∨ h.last = -1 := by
            unfold Lockf.Valid at ok
            lia
          by_cases ends : h.last = unlock.last
          · have front := front_of (p := { h.wake with last := wrap32 (unlock.start - 1) })
              ok good low meets rfl rfl rfl rfl
            have edit := edited_front sorted valid own left right ends front
            rw [lfSplit_two (a := h.wake) aligned ends]
            simpa only [unlinkSecond, List.append_assoc, List.cons_append,
              List.nil_append] using edit
          · have front := front_of (p := { h.wake with last := wrap32 (unlock.start - 1) })
              ok good low meets rfl rfl rfl rfl
            have tail :=
              tail_of (p := { h.wake with addr := fresh, start := wrap32 (unlock.last + 1),
                                          block := [] })
              ok good mine facts.2.1 (by lia) (by unfold Lockf.Valid at ok; lia) rfl rfl rfl rfl
            have edit := edited_split ok sorted valid own left right front tail
            rw [lfSplit_three (a := h.wake) aligned ends]
            simpa only [unlinkSecond, List.append_assoc, List.cons_append,
              List.nil_append] using edit
      | contained =>
        have facts := ovcase_contained c
        have sub : Sorted (before ++ skip ++ ([] ++ t)) := sorted_replace sorted (by simp) .nil
        obtain ⟨e, run, edit⟩ := ih (before ++ skip) t (woken ++ h.block) shorter sub
          (valid_replace (P := []) valid (by simp)) front later
        refine ⟨e, run, edited_continue (P := []) own (by simp) ?_ edit⟩
        intro x inside off
        unfold Lockf.Contains at *
        lia
      | startsBefore =>
        have facts := ovcase_startsBefore c
        dsimp only
        have first := front_of (p := { h.wake with last := wrap32 (unlock.start - 1) })
          ok good facts.1 facts.2.1 rfl rfl rfl rfl
        generalize { h.wake with last := wrap32 (unlock.start - 1) } = f at first ⊢
        have sub := sorted_replace (P := [f]) sorted (by simpa using first.piece)
          (List.pairwise_singleton _ _)
        have good' := valid_replace (P := [f]) valid (by simpa using first.valid)
        rw [← List.append_assoc] at sub good'
        obtain ⟨e, run, edit⟩ := ih (before ++ skip ++ [f]) t (woken ++ h.block) shorter sub good'
          (by
          intro a member same
          rcases List.mem_append.mp member with member | member
          · exact front a member same
          · rw [List.mem_singleton.mp member]
            exact first.before) later
        rw [List.append_assoc] at edit
        refine ⟨e, run, edited_continue (P := [f]) own (by simpa using first.piece) ?_ edit⟩
        intro x inside off
        refine ⟨f, by simp, first.keeps x inside ?_⟩
        unfold Lockf.Contains at *
        lia
      | endsAfter =>
        have facts := ovcase_endsAfter c
        refine ⟨_, rfl, edited_tail sorted valid own left (apart_behind sorted own (by lia))
          (by lia) ?_⟩
        exact tail_of ok good mine facts.2.1 (by lia) facts.2.2.1 rfl rfl rfl rfl

/-- `lf_clearlock` clears exactly the range of the request from its owner's bytes. -/
theorem clearLock_spec (fresh : Nat) {unlock : Lockf ι} (ok : unlock.Valid)
    {list : List (Lockf ι)} (sorted : Sorted list) (valid : ∀ l ∈ list, l.Valid)
    (room : Room unlock list) :
    ∃ e, clearLock fresh unlock list = some e ∧ Edited list e.list (Cleared list unlock) :=
  clearLoop_spec fresh ok _ [] list [] (Nat.lt_succ_self _) sorted valid (by simp) room

section Link

/-- The entry stands for the request: same owner, type and range. -/
structure Like (linked lock : Lockf ι) : Prop where
  id : linked.id = lock.id
  type : linked.type = lock.type
  start : linked.start = lock.start
  last : linked.last = lock.last

omit [DecidableEq ι] in
theorem edited_link {A B old : List (Lockf ι)} {lock linked : Lockf ι} (ok : lock.Valid)
    (like : Like linked lock) (sorted : Sorted (A ++ B)) (valid : ∀ l ∈ A ++ B, l.Valid)
    (left : ∀ a ∈ A, a.id = lock.id → Before a lock)
    (right : ∀ b ∈ B, b.id = lock.id → Before lock b)
    (pieces : ∀ l ∈ A ++ B, ∃ h ∈ old, Piece l h)
    (rest : ∀ o x t, Cleared (A ++ B) lock o x t ↔ Cleared old lock o x t) :
    Edited (lock :: old) (A ++ linked :: B) (Assigned old lock) := by
  obtain ⟨id, type, start, last⟩ := like
  refine ⟨sorted_insert sorted ?_ ?_, ?_, ?_, ?_⟩
  · intro a member same
    have order := left a member (same.trans id)
    unfold Before at *
    lia
  · intro b member same
    have order := right b member (same.trans id)
    unfold Before at *
    lia
  · intro l member
    rcases List.mem_append.mp member with member | member
    · exact valid l (List.mem_append_left _ member)
    · rcases List.mem_cons.mp member with rfl | member
      · unfold Lockf.Valid at *
        lia
      · exact valid l (List.mem_append_right _ member)
  · intro l member
    have inner : l = linked ∨ l ∈ A ++ B := by
      simp only [List.mem_append, List.mem_cons] at member ⊢
      tauto
    rcases inner with rfl | inner
    · refine ⟨lock, List.mem_cons_self, id, type, by lia, ?_⟩
      by_cases open_ : lock.last = -1
      · exact .inl open_
      · exact .inr ⟨by lia, by lia⟩
    · obtain ⟨h, old, piece⟩ := pieces l inner
      exact ⟨h, List.mem_cons_of_mem _ old, piece⟩
  · intro o x t
    refine assigned_insert (apart_append (apart_of_before left) (apart_of_after right)) id type ?_
      (rest o x t)
    intro x
    simp only [Lockf.Contains, start, last]

omit [DecidableEq ι] in
theorem assigned_continue {A B P new : List (Lockf ι)} {h lock : Lockf ι}
    (own : h.id = lock.id) (pieces : ∀ p ∈ P, Piece p h)
    (keep : ∀ x, h.Contains x → ¬ lock.Contains x → ∃ p ∈ P, p.Contains x)
    (edit : Edited (lock :: (A ++ (P ++ B))) new (Assigned (A ++ (P ++ B)) lock)) :
    Edited (lock :: (A ++ h :: B)) new (Assigned (A ++ h :: B) lock) := by
  refine ⟨edit.sorted, edit.valid, ?_, ?_⟩
  · intro l member
    obtain ⟨g, old, piece⟩ := edit.piece l member
    simp only [List.mem_cons, List.mem_append] at old
    rcases old with rfl | old | old | old
    · exact ⟨g, by simp, piece⟩
    · exact ⟨g, by simp [old], piece⟩
    · exact ⟨h, by simp, piece.trans (pieces g old)⟩
    · exact ⟨g, by simp [old], piece⟩
  · intro o x t
    rw [edit.covers, Assigned, Assigned, cleared_replace own pieces keep]

omit [DecidableEq ι] in
/-- Linking the request next to what is left of the last entry it overlaps. -/
theorem edited_link_pieces {A B F G : List (Lockf ι)} {h lock linked : Lockf ι}
    (ok : lock.Valid) (like : Like linked lock) (sorted : Sorted (A ++ h :: B))
    (valid : ∀ l ∈ A ++ h :: B, l.Valid) (own : h.id = lock.id)
    (left : ∀ a ∈ A, a.id = lock.id → Before a lock)
    (right : ∀ b ∈ B, b.id = lock.id → Before lock b)
    (fronts : ∀ f ∈ F, Front f h lock) (tails : ∀ g ∈ G, Tail g h lock)
    (inner : Sorted (F ++ G))
    (keep : ∀ x, h.Contains x → ¬ lock.Contains x → ∃ p ∈ F ++ G, p.Contains x) :
    Edited (lock :: (A ++ h :: B)) ((A ++ F) ++ linked :: (G ++ B))
      (Assigned (A ++ h :: B) lock) := by
  have pieces : ∀ p ∈ F ++ G, Piece p h := by
    intro p member
    rcases List.mem_append.mp member with member | member
    · exact (fronts p member).piece
    · exact (tails p member).piece
  have regroup : (A ++ F) ++ (G ++ B) = A ++ ((F ++ G) ++ B) := by simp only [List.append_assoc]
  have good : ∀ p ∈ F ++ G, p.Valid := by
    intro p member
    rcases List.mem_append.mp member with member | member
    · exact (fronts p member).valid
    · exact (tails p member).valid
  apply edited_link ok like
  · rw [regroup]
    exact sorted_replace sorted pieces inner
  · rw [regroup]
    exact valid_replace valid good
  · intro a member same
    rcases List.mem_append.mp member with member | member
    · exact left a member same
    · exact (fronts a member).before
  · intro b member same
    rcases List.mem_append.mp member with member | member
    · exact (tails b member).after
    · exact right b member same
  · intro l member
    rw [regroup] at member
    simp only [List.mem_append (s := A), List.mem_append (t := B)] at member
    rcases member with member | member | member
    · exact ⟨l, by simp [member], .refl l⟩
    · exact ⟨h, by simp, pieces l member⟩
    · exact ⟨l, by simp [member], .refl l⟩
  · intro o x t
    rw [regroup, cleared_replace own pieces keep]

omit [DecidableEq ι] in
theorem after_behind {A B : List (Lockf ι)} {h lock : Lockf ι} (sorted : Sorted (A ++ h :: B))
    (own : h.id = lock.id)
    (reach : lock.last = h.last ∨ lock.last ≠ -1 ∧ (lock.last ≤ h.last ∨ h.last = -1)) :
    ∀ b ∈ B, b.id = lock.id → Before lock b := by
  intro r member same
  have order := sorted_after sorted member (same.trans own.symm)
  unfold Before at *
  lia

omit [DecidableEq ι] in
theorem edited_link_split {A B : List (Lockf ι)} {h f g lock : Lockf ι} (ok : lock.Valid)
    (sorted : Sorted (A ++ h :: B)) (valid : ∀ l ∈ A ++ h :: B, l.Valid) (own : h.id = lock.id)
    (left : ∀ a ∈ A, a.id = lock.id → Before a lock)
    (right : ∀ b ∈ B, b.id = lock.id → Before lock b) (front : Front f h lock)
    (tail : Tail g h lock) :
    Edited (lock :: (A ++ h :: B)) (A ++ f :: lock :: g :: B) (Assigned (A ++ h :: B) lock) := by
  have inner : Sorted ([f] ++ [g]) := by
    simpa [Sorted] using fun _ => front_before_tail ok front tail
  have keep : ∀ x, h.Contains x → ¬ lock.Contains x → ∃ p ∈ [f] ++ [g], p.Contains x := by
    intro x inside off
    by_cases low : x < lock.start
    · exact ⟨f, by simp, front.keeps x inside low⟩
    · refine ⟨g, by simp, tail.keeps x inside ?_⟩
      unfold Lockf.Contains at inside off
      omega
  have edit := edited_link_pieces ok ⟨rfl, rfl, rfl, rfl⟩ sorted valid own left right
    (by simpa using front) (by simpa using tail) inner keep
  simpa using edit

omit [DecidableEq ι] in
theorem foreign_of_before {list : List (Lockf ι)} {lock : Lockf ι} (valid : ∀ l ∈ list, l.Valid)
    (behind : ∀ r ∈ list, r.id = lock.id → lock.start < r.start)
    (before : ∀ p ∈ list, p.id = lock.id → Before p lock) : ∀ p ∈ list, p.id ≠ lock.id := by
  intro p member same
  have good := valid p member
  have start := behind p member same
  have order := before p member same
  unfold Before Lockf.Valid at *
  omega

/-- The rest of the insertion, once the request is linked: only whole entries inside the
range and one that ends after it can still be met. -/
theorem insertLinked_spec {lock : Lockf ι} (ok : lock.Valid) (before : List (Lockf ι)) (fuel : Nat)
    (linked : Lockf ι) (after block : List (Lockf ι)) (woken : List Nat)
    (enough : block.length < fuel) (like : Like linked lock)
    (sorted : Sorted (before ++ after ++ block)) (valid : ∀ l ∈ before ++ after ++ block, l.Valid)
    (passed : ∀ a ∈ before, a.id = lock.id → Before a lock)
    (foreign : ∀ a ∈ after, a.id ≠ lock.id)
    (behind : ∀ r ∈ block, r.id = lock.id → lock.start < r.start) (room : SetRoom lock block) :
    ∃ e, insertLinked lock before fuel linked after block woken = some e ∧
      Edited (lock :: (before ++ after ++ block)) e.list
        (Assigned (before ++ after ++ block) lock) := by
  induction fuel generalizing linked after block woken with
  | zero => lia
  | succ fuel ih =>
    obtain ⟨split, skipped, found⟩ := findOverlap_self lock block
    rw [insertLinked]
    generalize findOverlap .self lock block = result at split skipped found ⊢
    obtain ⟨skip, c, rest⟩ := result
    simp only at split skipped found ⊢
    subst split
    have clear : ∀ a ∈ after ++ skip, a.id ≠ lock.id := by
      intro a member
      rcases List.mem_append.mp member with member | member
      · exact foreign a member
      · exact foreign_of_before (fun l inner => valid l (by simp [inner]))
          (fun r inner => behind r (by simp [inner])) skipped a member
    -- the entry found is linked behind the request whatever the case
    have link : ∀ tail, Sorted (before ++ ((after ++ skip) ++ tail)) →
        (∀ l ∈ before ++ ((after ++ skip) ++ tail), l.Valid) →
        (∀ b ∈ tail, b.id = lock.id → Before lock b) →
        Edited (lock :: (before ++ ((after ++ skip) ++ tail)))
          (before ++ linked :: ((after ++ skip) ++ tail))
          (Assigned (before ++ ((after ++ skip) ++ tail)) lock) := by
      intro tail order good right
      refine edited_link ok like order good passed ?_ (fun l member => ⟨l, member, .refl l⟩)
        (fun _ _ _ => Iff.rfl)
      intro b member same
      rcases List.mem_append.mp member with member | member
      · exact absurd same (clear b member)
      · exact right b member same
    have regroup : ∀ tail, before ++ after ++ (skip ++ tail) =
        before ++ ((after ++ skip) ++ tail) := by
      intro tail
      simp only [List.append_assoc]
    have regroup' : ∀ tail, before ++ after ++ (skip ++ tail) =
        (before ++ (after ++ skip)) ++ tail := by
      intro tail
      simp only [List.append_assoc]
    cases found with
    | finish =>
      refine ⟨_, rfl, ?_⟩
      rw [regroup] at sorted valid ⊢
      exact link [] sorted valid (by simp)
    | @gap h t own gap =>
      refine ⟨_, rfl, ?_⟩
      rw [regroup] at sorted valid ⊢
      refine link (h :: t) sorted valid ?_
      intro b member same
      rcases List.mem_cons.mp member with rfl | member
      · exact gap
      · rw [← regroup, regroup'] at sorted
        have order := sorted_after sorted member (same.trans own.symm)
        have sound := valid h (by simp)
        unfold Before Lockf.Valid at *
        lia
    | @hit h t own hit =>
      have start : lock.start < h.start := behind h (by simp) own
      have good : h.Valid := valid h (by simp)
      have mine : h.last = -1 → lock.Short := by
        intro open_
        rcases room h (by simp) own open_ with short | ⟨_, low⟩
        · exact short
        · exact absurd start (by omega)
      have rest : SetRoom lock t := fun r member => room r (by simp [member])
      have shorter : t.length < fuel := by
        simp only [List.length_append, List.length_cons] at enough
        lia
      have later : ∀ r ∈ t, r.id = lock.id → lock.start < r.start := by
        intro r member
        exact behind r (by simp [member])
      rw [regroup'] at sorted valid ⊢
      cases c : ovcase h lock with
      | none => exact absurd c hit
      | panic => exact absurd c ovcase_ne_panic
      | equal => have := ovcase_equal c; lia
      | contains => have := ovcase_contains c; lia
      | startsBefore => have := ovcase_startsBefore c; lia
      | contained =>
        have facts := ovcase_contained c
        have sub : Sorted (before ++ (after ++ skip) ++ ([] ++ t)) :=
          sorted_replace sorted (by simp) .nil
        have sound := valid_replace (P := []) valid (by simp)
        have none : ∀ x, h.Contains x → ¬ lock.Contains x →
            ∃ p ∈ ([] : List (Lockf ι)), p.Contains x := by
          intro x inside off
          unfold Lockf.Contains at *
          lia
        dsimp only
        split
        · obtain ⟨e, run, edit⟩ := ih linked (after ++ skip) t (woken ++ h.block) shorter like sub
            sound clear later rest
          exact ⟨e, run, assigned_continue (P := []) own (by simp) none edit⟩
        · obtain ⟨e, run, edit⟩ := ih { linked with block := h.block ++ linked.block }
            (after ++ skip) t woken shorter ⟨like.id, like.type, like.start, like.last⟩ sub sound
            clear later rest
          exact ⟨e, run, assigned_continue (P := []) own (by simp) none edit⟩
      | endsAfter =>
        have facts := ovcase_endsAfter c
        have right := after_behind sorted own (by lia)
        dsimp only
        have tail := tail_of (p := { h.wake with start := wrap32 (lock.last + 1) }) ok good
          mine facts.2.1 (by lia) facts.2.2.1 rfl rfl rfl rfl
        generalize { h.wake with start := wrap32 (lock.last + 1) } = g at tail ⊢
        refine ⟨_, rfl, assigned_continue (P := [g]) own (by simpa using tail.piece) ?_ ?_⟩
        · intro x inside off
          refine ⟨g, by simp, tail.keeps x inside ?_⟩
          unfold Lockf.Contains at *
          lia
        · have order := sorted_replace (P := [g]) sorted (by simpa using tail.piece)
            (List.pairwise_singleton _ _)
          have sound := valid_replace (P := [g]) valid (by simpa using tail.valid)
          rw [List.append_assoc] at order sound ⊢
          refine link (g :: t) order sound ?_
          intro b member same
          rcases List.mem_cons.mp member with rfl | member
          · exact tail.after
          · exact right b member same

omit [DecidableEq ι] in
theorem sorted_cases {list : List (Lockf ι)} (sorted : Sorted list) {a b : Lockf ι}
    (first : a ∈ list) (second : b ∈ list) (same : a.id = b.id) :
    a = b ∨ Before a b ∨ Before b a := by
  by_cases equal : a = b
  · exact .inl equal
  · have apart : list.Pairwise (fun a b => a.id = b.id → Before a b ∨ Before b a) :=
      List.Pairwise.imp (fun before same => .inl (before same)) sorted
    have : Std.Symm (fun a b : Lockf ι => a.id = b.id → Before a b ∨ Before b a) :=
      ⟨fun _ _ order same => (order same.symm).symm⟩
    exact .inr (apart.forall first second equal same)

omit [DecidableEq ι] in
theorem covers_unique {list : List (Lockf ι)} (sorted : Sorted list) {o : ι} {x : Int}
    {t t' : LockType} (first : Covers list o x t) (second : Covers list o x t') : t = t' := by
  obtain ⟨a, memberA, ownA, insideA, rfl⟩ := first
  obtain ⟨b, memberB, ownB, insideB, rfl⟩ := second
  rcases sorted_cases sorted memberA memberB (ownA.trans ownB.symm) with rfl | order | order
  · rfl
  · unfold Before Lockf.Contains at *
    lia
  · unfold Before Lockf.Contains at *
    lia

omit [DecidableEq ι] in
theorem edited_inside {list : List (Lockf ι)} {h lock : Lockf ι} (sorted : Sorted list)
    (valid : ∀ l ∈ list, l.Valid) (member : h ∈ list) (own : h.id = lock.id)
    (type : h.type = lock.type) (inside : ∀ x, lock.Contains x → h.Contains x) :
    Edited (lock :: list) list (Assigned list lock) := by
  refine ⟨sorted, valid, fun l found => ⟨l, List.mem_cons_of_mem _ found, .refl l⟩, ?_⟩
  intro o x t
  constructor
  · intro covers
    by_cases within : o = lock.id ∧ lock.Contains x
    · obtain ⟨rfl, within⟩ := within
      refine .inl ⟨rfl, within, ?_⟩
      exact covers_unique sorted covers ⟨h, member, own, inside x within, type⟩
    · exact .inr ⟨covers, within⟩
  · rintro (⟨rfl, within, rfl⟩ | ⟨covers, _⟩)
    · exact ⟨h, member, own, inside x within, type⟩
    · exact covers

/-- The insertion loop of `lf_setlock` sets exactly the range of the request. -/
theorem insertLock_spec (fresh : Nat) {lock : Lockf ι} (ok : lock.Valid) {list : List (Lockf ι)}
    (sorted : Sorted list) (valid : ∀ l ∈ list, l.Valid) (room : SetRoom lock list) :
    ∃ e, insertLock fresh lock list = some e ∧
      Edited (lock :: list) e.list (Assigned list lock) := by
  obtain ⟨split, skipped, found⟩ := findOverlap_self lock list
  rw [insertLock]
  have fuel : (findOverlap .self lock list).2.2.length < list.length + 1 := by
    conv_rhs => rw [split]
    rw [List.length_append]
    lia
  generalize list.length + 1 = n at fuel ⊢
  generalize findOverlap .self lock list = result at split skipped found fuel ⊢
  obtain ⟨skip, c, rest⟩ := result
  simp only at split skipped found fuel ⊢
  subst split
  cases found with
  | finish =>
    exact ⟨_, rfl, edited_link ok ⟨rfl, rfl, rfl, rfl⟩ sorted valid skipped (by simp)
      (fun l member => ⟨l, member, .refl l⟩) (fun _ _ _ => Iff.rfl)⟩
  | @gap h t own gap =>
    refine ⟨_, rfl, edited_link ok ⟨rfl, rfl, rfl, rfl⟩ sorted valid skipped ?_
      (fun l member => ⟨l, member, .refl l⟩) (fun _ _ _ => Iff.rfl)⟩
    intro b member same
    rcases List.mem_cons.mp member with rfl | member
    · exact gap
    · have order := sorted_after sorted member (same.trans own.symm)
      have sound := valid h (by simp)
      unfold Before Lockf.Valid at *
      lia
  | @hit h t own hit =>
    have good : h.Valid := valid h (by simp)
    have mine := room h (by simp) own
    have rest : SetRoom lock t := fun r member => room r (by simp [member])
    have shorter : t.length < n := by
      simp only [List.length_cons] at fuel
      lia
    -- the request takes the place of `h`, next to what is left of it
    have link : ∀ linked F G, Like linked lock →
        (lock.last = h.last ∨ lock.last ≠ -1 ∧ (lock.last ≤ h.last ∨ h.last = -1)) →
        (∀ f ∈ F, Front f h lock) → (∀ g ∈ G, Tail g h lock) → Sorted (F ++ G) →
        (∀ x, h.Contains x → ¬ lock.Contains x → ∃ p ∈ F ++ G, p.Contains x) →
        Edited (lock :: (skip ++ h :: t)) ((skip ++ F) ++ linked :: (G ++ t))
          (Assigned (skip ++ h :: t) lock) := by
      intro linked F G like reach fronts tails inner keep
      exact edited_link_pieces ok like sorted valid own skipped (after_behind sorted own reach)
        fronts tails inner keep
    cases c : ovcase h lock with
    | none => exact absurd c hit
    | panic => exact absurd c ovcase_ne_panic
    | equal =>
      have same := ovcase_equal c
      dsimp only
      have none : ∀ x, h.Contains x → ¬ lock.Contains x →
          ∃ p ∈ ([] ++ [] : List (Lockf ι)), p.Contains x := by
        intro x inside off
        unfold Lockf.Contains at *
        lia
      split
      · refine ⟨_, rfl, ?_⟩
        simpa using link { h.wake with type := lock.type } [] [] ⟨own, rfl, same.1, same.2⟩
          (by lia) (by simp) (by simp) .nil none
      · refine ⟨_, rfl, ?_⟩
        simpa using link { h with type := lock.type } [] [] ⟨own, rfl, same.1, same.2⟩
          (by lia) (by simp) (by simp) .nil none
    | contains =>
      have facts := ovcase_contains c
      dsimp only
      by_cases type : h.type = lock.type
      · rw [if_pos type]
        refine ⟨_, rfl, edited_inside sorted valid (by simp) own type ?_⟩
        intro x inside
        unfold Lockf.Contains at *
        lia
      · rw [if_neg type]
        have mine : h.last = -1 → lock.Short := by
          intro open_
          exact (mine open_).resolve_right fun same => type same.1
        have meets : h.start ≤ lock.last := by
          unfold Lockf.Valid at ok
          lia
        by_cases aligned : h.start = lock.start
        · rw [if_pos aligned]
          have tail := tail_of (p := { h.wake with start := wrap32 (lock.last + 1) }) ok good
            mine facts.2.1 (by lia) meets rfl rfl rfl rfl
          generalize { h.wake with start := wrap32 (lock.last + 1) } = g at tail ⊢
          refine ⟨_, rfl, ?_⟩
          have edit := link lock [] [g] ⟨rfl, rfl, rfl, rfl⟩ (by lia) (by simp)
            (by simpa using tail) (List.pairwise_singleton _ _) (by
              intro x inside off
              refine ⟨g, by simp, tail.keeps x inside ?_⟩
              unfold Lockf.Contains at *
              lia)
          simpa using edit
        · rw [if_neg aligned]
          have low : h.start < lock.start := by lia
          have reach : lock.start ≤ h.last ∨ h.last = -1 := by
            unfold Lockf.Valid at ok
            lia
          have front := front_of (p := { h.wake with last := wrap32 (lock.start - 1) }) ok good
            low reach rfl rfl rfl rfl
          by_cases ends : h.last = lock.last
          · rw [lfSplit_two aligned ends]
            refine ⟨_, rfl, ?_⟩
            have edit := link lock [{ h.wake with last := wrap32 (lock.start - 1) }] []
              ⟨rfl, rfl, rfl, rfl⟩ (by lia) (by simpa using front) (by simp)
              (List.pairwise_singleton _ _) (by
                intro x inside off
                refine ⟨_, by simp, front.keeps x inside ?_⟩
                unfold Lockf.Contains at *
                lia)
            simpa [wakeFirst, Lockf.wake] using edit
          · rw [lfSplit_three aligned ends]
            refine ⟨_, rfl, ?_⟩
            have tail := tail_of
              (p := { h with addr := fresh, start := wrap32 (lock.last + 1), block := [] })
              ok good mine facts.2.1 (by lia) meets rfl rfl rfl rfl
            have right := after_behind sorted own (by lia)
            have edit := edited_link_split ok sorted valid own skipped right front tail
            simpa [wakeFirst, Lockf.wake] using edit
    | contained =>
      have facts := ovcase_contained c
      have sub : Sorted (skip ++ ([] ++ t)) := sorted_replace sorted (by simp) .nil
      have sound := valid_replace (P := []) valid (by simp)
      have none : ∀ x, h.Contains x → ¬ lock.Contains x →
          ∃ p ∈ ([] : List (Lockf ι)), p.Contains x := by
        intro x inside off
        unfold Lockf.Contains at *
        lia
      have later : ∀ r ∈ t, r.id = lock.id → lock.start < r.start := by
        intro r member same
        have order := sorted_after sorted member (same.trans own.symm)
        unfold Before Lockf.Valid at *
        lia
      rw [← List.append_assoc] at sub sound
      dsimp only
      split
      · obtain ⟨e, run, edit⟩ := insertLinked_spec ok skip n lock [] t h.block shorter
          ⟨rfl, rfl, rfl, rfl⟩ sub sound skipped (by simp) later rest
        rw [List.append_assoc] at edit
        exact ⟨e, run, assigned_continue (P := []) own (by simp) none edit⟩
      · obtain ⟨e, run, edit⟩ := insertLinked_spec ok skip n
          { lock with block := h.block ++ lock.block } [] t [] shorter ⟨rfl, rfl, rfl, rfl⟩ sub
          sound skipped (by simp) later rest
        rw [List.append_assoc] at edit
        exact ⟨e, run, assigned_continue (P := []) own (by simp) none edit⟩
    | startsBefore =>
      have facts := ovcase_startsBefore c
      dsimp only
      have front := front_of (p := { h.wake with last := wrap32 (lock.start - 1) }) ok good
        facts.1 facts.2.1 rfl rfl rfl rfl
      generalize { h.wake with last := wrap32 (lock.start - 1) } = f at front ⊢
      have sub := sorted_replace (P := [f]) sorted (by simpa using front.piece)
        (List.pairwise_singleton _ _)
      have sound := valid_replace (P := [f]) valid (by simpa using front.valid)
      have later : ∀ r ∈ t, r.id = lock.id → lock.start < r.start := by
        intro r member same
        have order := sorted_after sorted member (same.trans own.symm)
        unfold Before at order
        lia
      have regroup : skip ++ ([f] ++ t) = skip ++ [f] ++ [] ++ t := by
        simp only [List.append_assoc, List.nil_append]
      rw [regroup] at sub sound
      obtain ⟨e, run, edit⟩ := insertLinked_spec ok (skip ++ [f]) n lock [] t h.block shorter
        ⟨rfl, rfl, rfl, rfl⟩ sub sound (by
          intro a member same
          rcases List.mem_append.mp member with member | member
          · exact skipped a member same
          · rw [List.mem_singleton.mp member]
            exact front.before) (by simp) later rest
      rw [← regroup] at edit
      refine ⟨e, run, assigned_continue (P := [f]) own (by simpa using front.piece) ?_ edit⟩
      intro x inside off
      refine ⟨f, by simp, front.keeps x inside ?_⟩
      unfold Lockf.Contains at *
      lia
    | endsAfter =>
      have facts := ovcase_endsAfter c
      have mine : h.last = -1 → lock.Short := by
        intro open_
        rcases mine open_ with short | ⟨_, low⟩
        · exact short
        · exact absurd facts.1 (by omega)
      dsimp only
      have tail := tail_of (p := { h.wake with start := wrap32 (lock.last + 1) }) ok good
        mine facts.2.1 (by lia) facts.2.2.1 rfl rfl rfl rfl
      generalize { h.wake with start := wrap32 (lock.last + 1) } = g at tail ⊢
      refine ⟨_, rfl, ?_⟩
      have edit := link lock [] [g] ⟨rfl, rfl, rfl, rfl⟩ (by lia) (by simp)
        (by simpa using tail) (List.pairwise_singleton _ _) (by
          intro x inside off
          refine ⟨g, by simp, tail.keeps x inside ?_⟩
          unfold Lockf.Contains at *
          lia)
      simpa using edit

end Link

end FreeBsd.Ufs
