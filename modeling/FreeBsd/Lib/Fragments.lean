import Mathlib.Data.List.Basic

/-! Records that are cut into fragments, over any type of bytes. Before each fragment stands a
header, which gives its length and says whether it is the last of its record. -/
namespace FreeBsd.Lib

variable {α : Type} {header : Nat → Bool → List α} {limit : Nat}

/-- `n` bytes are left of a fragment, which is the last one or not: what is left of its record in
the stream, and what follows. -/
inductive Current (header : Nat → Bool → List α) (limit : Nat) : Nat → Bool → List α → List α →
    List α → Prop where
  | last {data tail : List α} : Current header limit data.length true (data ++ tail) data tail
  | more {data stream rest tail : List α} {n : Nat} {last : Bool} :
    n < limit → Current header limit n last stream rest tail →
      Current header limit data.length false (data ++ (header n last ++ stream)) (data ++ rest) tail

inductive Records (header : Nat → Bool → List α) (limit : Nat) : List α → List (List α) → List α →
    Prop where
  | nil {tail : List α} : Records header limit tail [] tail
  | cons {stream record mid tail : List α} {records : List (List α)} :
    Current header limit 0 false stream record mid →
      Records header limit mid records tail → Records header limit stream (record :: records) tail

/-- What has been sent: whole records, and fragments of one that has not ended. -/
inductive Framed (header : Nat → Bool → List α) (limit : Nat) : List α → List (List α) → List α →
    Prop where
  | nil : Framed header limit [] [] []
  | cut {sent begun data : List α} {records : List (List α)} :
    data.length < limit → Framed header limit sent records begun →
      Framed header limit (sent ++ (header data.length false ++ data)) records (begun ++ data)
  | close {sent begun data : List α} {records : List (List α)} :
    data.length < limit → Framed header limit sent records begun →
      Framed header limit (sent ++ (header data.length true ++ data)) (records ++ [begun ++ data])
        []

variable {stream rest mid tail sent begun data : List α} {told told' : List (List α)} {n : Nat}
    {last : Bool}

theorem Current.start (short : n < limit) (current : Current header limit n last stream rest tail) :
    Current header limit 0 false (header n last ++ stream) rest tail :=
  @Current.more _ _ _ [] _ _ _ _ _ short current

theorem Records.none (none : Records header limit stream [] tail) : stream = tail := by
  cases none
  rfl

theorem Records.append (first : Records header limit stream told mid)
    (second : Records header limit mid told' tail) :
    Records header limit stream (told ++ told') tail := by
  induction first with
  | nil => exact second
  | cons current _ ih => exact .cons current (ih second)

/-- Before the next header of a record its fragment may have more bytes. -/
theorem Current.extend (current : Current header limit 0 false stream rest tail) :
    Current header limit data.length false (data ++ stream) (data ++ rest) tail := by
  generalize none : 0 = n at current
  generalize open' : false = last at current
  cases current with
  | last => cases open'
  | @more read stream rest tail n last short next =>
    obtain rfl : read = [] := List.length_eq_zero_iff.mp none.symm
    exact .more short next

theorem Current.advance (current : Current header limit n last stream rest tail) {m : Nat}
    (inside : m ≤ n) :
    Current header limit (n - m) last (stream.drop m) (rest.drop m) tail ∧ m ≤ rest.length ∧
      rest.take m = stream.take m := by
  cases current with
  | @last data =>
    rw [List.drop_append_of_le_length inside,
      List.take_append_of_le_length inside, ← List.length_drop]
    exact ⟨.last, inside, rfl⟩
  | @more data stream rest _ n last short next =>
    rw [List.drop_append_of_le_length inside, List.take_append_of_le_length inside,
      List.drop_append_of_le_length inside, List.take_append_of_le_length inside,
      List.length_append, ← List.length_drop]
    exact ⟨.more short next, Nat.le_add_right_of_le inside, rfl⟩

theorem Framed.records (framed : Framed header limit sent told begun)
    (current : Current header limit 0 false stream rest tail) :
    Records header limit (sent ++ stream) (told ++ [begun ++ rest]) tail := by
  induction framed generalizing stream rest tail with
  | nil => exact .cons current .nil
  | @cut sent begun data told short framed ih =>
    have longer : Current header limit data.length false (data ++ stream) (data ++ rest) tail :=
      current.extend
    have next := ih (longer.start short)
    rw [List.append_assoc, List.append_assoc, List.append_assoc]
    exact next
  | @close sent begun data told short framed ih =>
    have last : Current header limit data.length true (data ++ stream) data stream := .last
    have ended := ih (last.start short)
    have both := ended.append (.cons current .nil)
    rw [List.append_assoc, List.append_assoc]
    exact both

theorem Framed.closed (framed : Framed header limit sent told begun) (short : data.length < limit) :
    Records header limit (sent ++ (header data.length true ++ data)) (told ++ [begun ++ data])
      [] := by
  have last : Current header limit data.length true (data ++ []) data [] := .last
  have ended := framed.records (last.start short)
  rw [List.append_nil] at ended
  exact ended

end FreeBsd.Lib
