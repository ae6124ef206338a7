import FreeBsd.Pcfs.PcfsFat
import Mathlib.Data.List.TakeWhile

/-! File names of DOS and of Unix: `dos2unixfn` and `unix2dosfn`. -/
namespace FreeBsd.Pcfs

section Model

def blankChar : Byte := 0x20
def dotChar : Byte := 0x2e
def SLOT_E5 : Byte := 0x05
def SLOT_DELETED : Byte := 0xe5

def isupper (c : Byte) : Bool := 0x41 ≤ c ∧ c ≤ 0x5a
def islower (c : Byte) : Bool := 0x61 ≤ c ∧ c ≤ 0x7a
def toupper (c : Byte) : Byte := c &&& ~~~ 0x20
def tolower (c : Byte) : Byte := c ||| 0x20

/-- Where `unix2dosfn` stands: the memory from `un` on, the length that is left, and `c` once it is
set. -/
structure Cursor where
  un : List Byte
  unlen : Nat
  c : Option Byte

def foldUp (c : Byte) : Byte := if islower c then toupper c else c

/-- A loop of `unix2dosfn` that copies to `dn[i]` and on, `count` characters at most, up to a NUL,
or a dot where `dot` says so; none where it reads beyond the memory. -/
def copyLoop (dot : Bool) : (count i : Nat) → Cursor → List Byte → Option (Cursor × List Byte)
  | 0, _, s, dn => some (s, dn)
  | count + 1, i, s, dn =>
    if s.unlen = 0 then some (s, dn)
    else
      match s.un with
      | [] => none
      | c :: un =>
        if c = 0 ∨ (dot ∧ c = dotChar) then some ({ s with c := some c }, dn)
        else copyLoop dot count (i + 1) ⟨un, s.unlen - 1, some c⟩ (dn.set i (foldUp c))

def skipLoop : (unlen : Nat) → (un : List Byte) → (c : Option Byte) → Option Cursor
  | 0, un, c => some ⟨un, 0, c⟩
  | unlen + 1, un, _ =>
    match un with
    | [] => none
    | c :: un => if c = 0 ∨ c = dotChar then some ⟨c :: un, unlen + 1, some c⟩ else skipLoop unlen
      un (some c)

def copyName (un : List Byte) (unlen : Nat) : Option (List Byte) := do
  let (s, dn) ← copyLoop true 8 0 ⟨un, unlen, none⟩ (List.replicate 11 blankChar)
  let dn := if dn[0]? = some SLOT_DELETED then dn.set 0 SLOT_E5 else dn
  let s ← skipLoop s.unlen s.un s.c
  -- if we stopped on a dot, get past it
  let s := if s.c = some dotChar then { s with un := s.un.tail } else s
  let (_, dn) ← copyLoop false 3 8 s dn
  some dn

def unix2dosfn (un : List Byte) (unlen : Nat) : Option (List Byte) :=
  match un with
  | [] => none
  | c :: rest =>
    if c = dotChar then
      match rest with
      | [] => none
      | c :: rest =>
        if c = 0 then some ((List.replicate 11 blankChar).set 0 dotChar)
        else if c = dotChar then
          match rest with
          | [] => none
          | c :: _ =>
            if c = 0 then some
              (((List.replicate 11 blankChar).set 0 dotChar).set 1 dotChar) else copyName un unlen
        else copyName un unlen
    else copyName un unlen

/-- The loop that looks for the last character of a field that begins at `base`: its index after
`base`, plus one. -/
def lastChar (dn : List Byte) (base : Nat) : Nat → Nat
  | 0 => 0
  | i + 1 => if dn[base + i]? ≠ some blankChar then i + 1 else lastChar dn base i

def foldDown (c : Byte) : Byte := if isupper c then tolower c else c

/-- `dos2unixfn`: the string at `un`, with its NUL, and its length. -/
def dos2unixfn (dn : List Byte) : List Byte × Nat :=
  let ni := lastChar dn 0 8
  let ei := lastChar dn 8 3
  let name := (dn.take ni).map foldDown
  let ext := ((dn.drop 8).take ei).map foldDown
  let un := name ++ if ei ≠ 0 then dotChar :: ext else []
  let string := un ++ [0]
  (if string[0]? = some SLOT_E5 then string.set 0 0xe5 else string, un.length)

end Model

section Copy

variable {dot : Bool} {count i unlen : Nat} {s : Cursor} {dn xs rest un : List Byte}
    {c : Option Byte} {x y : Byte}

def Stops (dot : Bool) (c : Byte) : Prop := c = 0 ∨ (dot = true ∧ c = dotChar)

/-- The characters `xs` in the places of `dn` from `i` on. -/
def spliced (dn : List Byte) (i : Nat) (xs : List Byte) :
    List Byte := dn.take i ++ xs.map foldUp ++ dn.drop (i + xs.length)

theorem set_spliced (room : i < dn.length) :
    spliced (dn.set i (foldUp x)) (i + 1) xs = spliced dn i (x :: xs) := by
  unfold spliced
  have taken : (dn.set i (foldUp x)).take (i + 1) = dn.take i ++ [foldUp x] := by
    rw [List.take_succ_eq_append_getElem (by rwa [List.length_set]), List.getElem_set_self,
      List.take_set_of_le (le_refl i)]
  have kept : (dn.set i (foldUp x)).drop (i + 1 + xs.length) = dn.drop (i + (xs.length + 1)) := by
    rw [List.drop_set_of_lt (by omega), Nat.add_assoc, Nat.add_comm 1]
  rw [taken, kept, List.map_cons, List.length_cons, List.append_assoc, List.append_assoc,
    List.append_assoc]
  rfl

theorem copyLoop_append (plain : ∀ x ∈ xs, ¬ Stops dot x) (length : xs.length ≤ unlen)
    (places : xs.length ≤ count) (room : i + xs.length ≤ dn.length) :
    copyLoop dot count i ⟨xs ++ rest, unlen, c⟩ dn =
      copyLoop dot (count - xs.length) (i + xs.length) ⟨rest, unlen - xs.length, xs.getLast?.or c⟩
        (spliced dn i xs) := by
  induction xs generalizing count i unlen dn c with
  | nil => simp [spliced]
  | cons x xs ih =>
    obtain ⟨count, rfl⟩ : ∃ k, count = k + 1 := Nat.exists_eq_add_one.mpr (by simp at places; lia)
    rw [List.length_cons] at length places room
    have here := plain x List.mem_cons_self
    unfold Stops at here
    rw [List.cons_append, copyLoop, if_neg (by dsimp only; lia)]
    dsimp only
    rw [if_neg here, ih (fun y member => plain y (List.mem_cons_of_mem _ member)) (by lia) (by lia)
      (by rw [List.length_set]; lia), set_spliced (by lia), List.length_cons, Nat.add_sub_add_right,
      Nat.sub_sub, Nat.add_comm 1, Nat.add_assoc, Nat.add_comm 1, List.getLast?_cons]
    cases xs.getLast? <;> rfl

theorem copyLoop_stop (stops : Stops dot y) : copyLoop dot count i ⟨y :: rest, unlen, c⟩ dn =
    some (⟨y :: rest, unlen, if count = 0 ∨ unlen = 0 then c else some y⟩, dn) := by
  cases count with
  | zero => rfl
  | succ count =>
    rw [copyLoop]
    dsimp only
    by_cases empty : unlen = 0
    · rw [if_pos empty, if_pos (.inr empty)]
    · rw [if_neg empty, if_pos (show y = 0 ∨ dot = true ∧ y = dotChar from stops),
        if_neg (by omega)]

theorem copyLoop_empty : copyLoop dot count i ⟨rest, 0, c⟩ dn = some (⟨rest, 0, c⟩, dn) := by
  cases count <;> rfl

theorem skipLoop_append (plain : ∀ x ∈ xs, ¬ Stops true x) (length : xs.length ≤ unlen) :
    skipLoop unlen (xs ++ rest) c = skipLoop (unlen - xs.length) rest (xs.getLast?.or c) := by
  induction xs generalizing unlen c with
  | nil => rfl
  | cons x xs ih =>
    rw [List.length_cons] at length
    obtain ⟨unlen, rfl⟩ : ∃ k, unlen = k + 1 := Nat.exists_eq_add_one.mpr (by omega)
    have here : ¬ (x = 0 ∨ x = dotChar) :=
      fun stop => plain x List.mem_cons_self (stop.imp_right fun is => ⟨rfl, is⟩)
    rw [List.cons_append, skipLoop, if_neg here,
      ih (fun y member => plain y (List.mem_cons_of_mem _ member)) (by omega), List.length_cons,
      Nat.add_sub_add_right, List.getLast?_cons]
    cases xs.getLast? <;> rfl

end Copy

section Names

variable {n a b rest : List Byte} {x y z : Byte}

def blanks : List Byte := List.replicate 11 blankChar

def fixed (dn : List Byte) :
    List Byte := if dn[0]? = some SLOT_DELETED then dn.set 0 SLOT_E5 else dn

theorem fixed_length (dn : List Byte) : (fixed dn).length = dn.length := by
  unfold fixed
  split
  · exact List.length_set
  · rfl

theorem spliced_length {dn xs : List Byte} {i : Nat} (room : i + xs.length ≤ dn.length) :
    (spliced dn i xs).length = dn.length := by
  unfold spliced
  rw [List.length_append, List.length_append, List.length_take, List.length_map, List.length_drop]
  lia

theorem spliced_append {dn xs ys : List Byte} {i : Nat} (room : i + xs.length ≤ dn.length) :
    spliced (spliced dn i xs) (i + xs.length) ys = spliced dn i (xs ++ ys) := by
  have start : (dn.take i ++ xs.map foldUp).length = i + xs.length := by
    rw [List.length_append, List.length_take, List.length_map]
    omega
  unfold spliced
  rw [List.take_left' start, ← List.drop_drop, List.drop_left' start, List.drop_drop,
    List.map_append, List.length_append, Nat.add_assoc, List.append_assoc (dn.take i)]

def nameField (a : List Byte) : List Byte := fixed (spliced blanks 0 (a.take 8))

theorem nameField_length (a : List Byte) : (nameField a).length = 11 := by
  rw [nameField, fixed_length, spliced_length]
  · rfl
  · rw [List.length_take]
    change 0 + min 8 a.length ≤ 11
    omega

theorem copyLoop_name {unlen : Nat} (plain : ∀ x ∈ a, ¬ Stops true x) (length : a.length ≤ unlen)
    (stops : unlen = a.length ∨ ∃ y un, rest = y :: un ∧ Stops true y) :
    ∃ c, copyLoop true 8 0 ⟨a ++ rest, unlen, none⟩ blanks =
        some (⟨a.drop 8 ++ rest, unlen - (a.take 8).length, c⟩, spliced blanks 0 (a.take 8)) ∧
      (unlen = a.length → c ≠ some dotChar) := by
  have whole :
    a ++ rest = a.take 8 ++ (a.drop 8 ++ rest) := by rw [← List.append_assoc, List.take_append_drop]
  have places : (a.take 8).length = min 8 a.length := List.length_take
  have others : ((a.take 8).getLast?.or none) ≠ some dotChar := by
    intro last
    rw [Option.or_none] at last
    exact plain dotChar (List.mem_of_mem_take (List.mem_of_getLast? last)) (.inr ⟨rfl, rfl⟩)
  rw [whole, copyLoop_append (fun x member => plain x (List.mem_of_mem_take member)) (by lia)
    (by lia)
    (by rw [places]; change _ ≤ 11; lia)]
  by_cases long : 8 ≤ a.length
  · rw [places, Nat.min_eq_left long]
    exact ⟨_, rfl, fun _ => others⟩
  · have none : a.drop 8 = [] := List.drop_eq_nil_iff.mpr (by lia)
    rw [none, List.nil_append]
    rcases stops with last | ⟨y, un, rfl, stops⟩
    · rw [show unlen - (a.take 8).length = 0 by lia, copyLoop_empty]
      exact ⟨_, rfl, fun _ => others⟩
    · rw [copyLoop_stop stops]
      refine ⟨_, rfl, fun last => ?_⟩
      rw [if_pos (.inr (by lia))]
      exact others

theorem skipLoop_drop {unlen : Nat} (plain : ∀ x ∈ a, ¬ Stops true x) (length : a.length ≤ unlen)
    (c : Option Byte) :
    skipLoop (unlen - (a.take 8).length) (a.drop 8 ++ rest) c =
      skipLoop (unlen - a.length) rest ((a.drop 8).getLast?.or c) := by
  have places : (a.take 8).length = min 8 a.length := List.length_take
  have stripped : (a.drop 8).length = a.length - 8 := List.length_drop
  rw [skipLoop_append (fun x member => plain x (List.mem_of_mem_drop member)) (by lia)]
  congr 1
  lia

theorem copyName_plain (plain : ∀ x ∈ a, ¬ Stops true x) :
    copyName (a ++ rest) a.length = some (nameField a) := by
  obtain ⟨c, copied, other⟩ := @copyLoop_name a rest a.length plain (le_refl _) (.inl rfl)
  have last : ((a.drop 8).getLast?.or c) ≠ some dotChar := by
    cases is : (a.drop 8).getLast? with
    | none => exact other rfl
    | some x =>
      have member := List.mem_of_mem_drop (List.mem_of_getLast? is)
      rintro ⟨⟩
      exact plain dotChar member (.inr ⟨rfl, rfl⟩)
  unfold copyName
  change (copyLoop true 8 0 ⟨a ++ rest, a.length, none⟩ blanks).bind _ = _
  rw [copied, Option.bind_some]
  dsimp only
  rw [skipLoop_drop plain (le_refl _), Nat.sub_self, skipLoop]
  simp only [bind, Option.bind_some]
  rw [if_neg last, copyLoop_empty]
  rfl

/-- After a dot, the extension is copied with one character more in the length than there is. -/
theorem copyName_dot (plain : ∀ x ∈ a, ¬ Stops true x) :
    copyName (a ++ dotChar :: b ++ rest) (a ++ dotChar :: b).length =
    (copyLoop false 3 8 ⟨b ++ rest, b.length + 1, some dotChar⟩ (nameField a)).map fun r =>
      r.2 := by
  have whole : (a ++ dotChar :: b).length = a.length + (b.length + 1) := by simp
  obtain ⟨c, copied, -⟩ := @copyLoop_name a (dotChar :: b ++ rest) (a ++ dotChar :: b).length plain
    (by omega)
    (.inr ⟨dotChar, b ++ rest, rfl, .inr ⟨rfl, rfl⟩⟩)
  unfold copyName
  rw [List.append_assoc]
  change (copyLoop true 8 0 ⟨a ++ (dotChar :: b ++ rest), _, none⟩ blanks).bind _ = _
  rw [copied, Option.bind_some]
  dsimp only
  rw [skipLoop_drop plain (by omega), whole, Nat.add_sub_cancel_left, List.cons_append, skipLoop]
  simp only [bind, or_true, if_true, Option.bind_some, List.tail_cons]
  change (copyLoop false 3 8 _ (nameField a)).bind _ = _
  cases copyLoop false 3 8 ⟨b ++ rest, b.length + 1, some dotChar⟩ (nameField a) <;> rfl

theorem copyName_long (plain : ∀ x ∈ a, ¬ Stops true x) (nonzero : ∀ x ∈ b, x ≠ 0)
    (long : 3 ≤ b.length) :
    copyName (a ++ dotChar :: b ++ rest) (a ++ dotChar :: b).length =
      some (spliced (nameField a) 8 (b.take 3)) := by
  have whole :
    b ++ rest = b.take 3 ++ (b.drop 3 ++ rest) := by rw [← List.append_assoc, List.take_append_drop]
  have places : (b.take 3).length = 3 := by rw [List.length_take]; lia
  have free : ∀ x ∈ b.take 3, ¬ Stops false x := by
    rintro x member (zero | ⟨⟨⟩, -⟩)
    exact nonzero x (List.mem_of_mem_take member) zero
  rw [copyName_dot plain, whole,
    copyLoop_append free (by lia) (by lia) (by rw [places, nameField_length]), places]
  rfl

theorem copyName_short (plain : ∀ x ∈ a, ¬ Stops true x) (nonzero : ∀ x ∈ b, x ≠ 0)
    (short : b.length < 3) :
    copyName (a ++ dotChar :: b ++ y :: rest) (a ++ dotChar :: b).length =
      some (spliced (nameField a) 8 (if y = 0 then b else b ++ [y])) := by
  have free : ∀ x ∈ b, ¬ Stops false x := by
    rintro x member (zero | ⟨⟨⟩, -⟩)
    exact nonzero x member zero
  have room := nameField_length a
  rw [copyName_dot plain, copyLoop_append free (by lia) (by lia) (by lia), Nat.add_sub_cancel_left]
  by_cases zero : y = 0
  · rw [copyLoop_stop (.inl zero), if_pos zero]
    rfl
  · have stop : ¬ Stops false y := by
      rintro (is | ⟨⟨⟩, -⟩)
      exact zero is
    have one : ∀ x ∈ [y], ¬ Stops false x := fun x member => List.mem_singleton.mp member ▸ stop
    have copied :=
      @copyLoop_append false (3 - b.length) (8 + b.length) 1 (spliced (nameField a) 8 b) [y] rest
        (b.getLast?.or (some dotChar)) one (le_refl _) (by simp; lia)
      (by rw [spliced_length (by lia), room, List.length_singleton]; lia)
    rw [List.singleton_append] at copied
    rw [copied, if_neg zero, List.length_singleton, Nat.sub_self, copyLoop_empty]
    refine congrArg some ?_
    exact spliced_append (by lia)

theorem unix2dosfn_head {un : List Byte} {unlen : Nat} (other : x ≠ dotChar) :
    unix2dosfn (x :: un) unlen = copyName (x :: un) unlen := by
  rw [unix2dosfn.eq_def]
  exact if_neg other

theorem unix2dosfn_three {un : List Byte} {unlen : Nat} (second : y ≠ 0)
    (third : y = dotChar → z ≠ 0) :
    unix2dosfn (x :: y :: z :: un) unlen = copyName (x :: y :: z :: un) unlen := by
  rw [unix2dosfn.eq_def]
  dsimp only
  by_cases first : x = dotChar
  · rw [if_pos first, if_neg second]
    by_cases dots : y = dotChar
    · rw [if_pos dots, if_neg (third dots)]
    · rw [if_neg dots]
  · rw [if_neg first]

def Extends (n b : List Byte) : Prop := ∃ a, n = a ++ dotChar :: b ∧ dotChar ∉ a

theorem plain_of {a : List Byte} (nonzero : ∀ x ∈ a, x ≠ 0) (dotless : dotChar ∉ a) :
    ∀ x ∈ a, ¬ Stops true x := by
  rintro x member (zero | ⟨-, rfl⟩)
  · exact nonzero x member zero
  · exact dotless member

/-- The memory after a name does not matter where three characters follow its first dot. -/
theorem unix2dosfn_long (nonzero : ∀ x ∈ n, x ≠ 0) (extended : Extends n b) (long : 3 ≤ b.length) :
    ∃ dn, ∀ rest, unix2dosfn (n ++ rest) n.length = some dn := by
  obtain ⟨a, rfl, dotless⟩ := extended
  have before := plain_of (fun x member => nonzero x (List.mem_append_left _ member)) dotless
  have after : ∀ x ∈ b, x ≠ 0 :=
    fun x member => nonzero x (List.mem_append_right _ (List.mem_cons_of_mem _ member))
  refine ⟨spliced (nameField a) 8 (b.take 3), fun rest => ?_⟩
  rw [← @copyName_long a b rest before after long]
  rcases a with _ | ⟨x, a⟩
  · rcases b with _ | ⟨y, _ | ⟨z, b⟩⟩
    · cases long
    · exact absurd long (by simp)
    · exact unix2dosfn_three (after y List.mem_cons_self) fun _ => after z (by simp)
  · exact unix2dosfn_head fun dot => dotless (dot ▸ List.mem_cons_self)

theorem unix2dosfn_plain (nonzero : ∀ x ∈ n, x ≠ 0) (dotless : dotChar ∉ n) (nonempty : n ≠ []) :
    unix2dosfn (n ++ rest) n.length = some (nameField n) := by
  rw [← @copyName_plain n rest (plain_of nonzero dotless)]
  rcases n with _ | ⟨x, n⟩
  · exact absurd rfl nonempty
  · exact unix2dosfn_head fun dot => dotless (dot ▸ List.mem_cons_self)

theorem spliced_after {dn xs : List Byte} {i j : Nat} (room : i + xs.length ≤ dn.length)
    (after : i + xs.length ≤ j) :
    (spliced dn i xs)[j]? = dn[j]? := by
  have start : (dn.take i ++ xs.map foldUp).length = i + xs.length := by
    rw [List.length_append, List.length_take, List.length_map]
    lia
  rw [spliced, List.getElem?_append_right (by lia), start, List.getElem?_drop,
    Nat.add_sub_cancel' after]

theorem spliced_at {dn : List Byte} {i : Nat} (room : i + b.length + 1 ≤ dn.length) :
    (spliced dn i (b ++ [y]))[i + b.length]? = some (foldUp y) := by
  have start : (dn.take i ++ b.map foldUp).length = i + b.length := by
    rw [List.length_append, List.length_take, List.length_map]
    lia
  rw [spliced, List.map_append, ← List.append_assoc, List.append_assoc,
    List.getElem?_append_right (by lia), start, Nat.sub_self]
  rfl

theorem nameField_blank {j : Nat} (after : 8 ≤ j) (before : j < 11) :
    (nameField a)[j]? = some blankChar := by
  have places : (a.take 8).length ≤ 8 := List.length_take_le ..
  have kept : (fixed (spliced blanks 0 (a.take 8)))[j]? = (spliced blanks 0 (a.take 8))[j]? := by
    unfold fixed
    split
    · exact List.getElem?_set_ne (by lia)
    · rfl
  have total : blanks.length = 11 := rfl
  rw [nameField, kept, spliced_after (by lia) (by lia), blanks,
    List.getElem?_replicate_of_lt before]

/-- With fewer than three characters after the first dot, the next byte of the memory decides. -/
theorem unix2dosfn_short (nonzero : ∀ x ∈ n, x ≠ 0) (extended : Extends n b)
    (short : b.length < 3) :
    (unix2dosfn (n ++ [0, 0]) n.length).bind (fun dn => dn[8 + b.length]?) = some blankChar ∧
      (unix2dosfn (n ++ [0x41, 0]) n.length).bind (fun dn => dn[8 + b.length]?) = some 0x41 := by
  obtain ⟨a, rfl, dotless⟩ := extended
  have before := plain_of (fun x member => nonzero x (List.mem_append_left _ member)) dotless
  have after : ∀ x ∈ b, x ≠ 0 :=
    fun x member => nonzero x (List.mem_append_right _ (List.mem_cons_of_mem _ member))
  have room := nameField_length a
  have zero := @copyName_short a b [0] 0 before after short
  have letter := @copyName_short a b [0] 0x41 before after short
  rw [if_pos rfl] at zero
  rw [if_neg (by decide)] at letter
  have copiedZero : (copyName (a ++ dotChar :: b ++ [0, 0]) (a ++ dotChar :: b).length).bind
      (fun dn => dn[8 + b.length]?) =
      some blankChar := by
    rw [zero, Option.bind_some, spliced_after (by lia) (le_refl _),
      nameField_blank (by lia) (by lia)]
  have copiedLetter : (copyName (a ++ dotChar :: b ++ [0x41, 0]) (a ++ dotChar :: b).length).bind
      (fun dn => dn[8 + b.length]?) = some 0x41 := by
    rw [letter, Option.bind_some, spliced_at (by lia)]
    rfl
  rcases a with _ | ⟨x, a⟩
  · rcases b with _ | ⟨y, b⟩
    · exact ⟨rfl, rfl⟩
    · have second := after y List.mem_cons_self
      rcases b with _ | ⟨z, b⟩
      · constructor
        · by_cases dots : y = dotChar
          · rw [dots]
            rfl
          · have copies :
                unix2dosfn ([] ++ dotChar :: [y] ++ [0, 0]) ([] ++ dotChar :: [y]).length =
                copyName ([] ++ dotChar :: [y] ++ [0, 0]) ([] ++ dotChar :: [y]).length :=
              unix2dosfn_three second fun dot => absurd dot dots
            rw [copies]
            exact copiedZero
        · have copies :
              unix2dosfn ([] ++ dotChar :: [y] ++ [0x41, 0]) ([] ++ dotChar :: [y]).length =
              copyName ([] ++ dotChar :: [y] ++ [0x41, 0]) ([] ++ dotChar :: [y]).length :=
            unix2dosfn_three second fun _ => by decide
          rw [copies]
          exact copiedLetter
      · have third : y = dotChar → z ≠ 0 := fun _ => after z (by simp)
        have copies (rest : List Byte) :
            unix2dosfn ([] ++ dotChar :: y :: z :: b ++ rest)
              ([] ++ dotChar :: y :: z :: b).length =
            copyName ([] ++ dotChar :: y :: z :: b ++ rest) ([] ++ dotChar :: y :: z :: b).length :=
          unix2dosfn_three second third
        rw [copies, copies]
        exact ⟨copiedZero, copiedLetter⟩
  · have copies (rest : List Byte) :
        unix2dosfn (x :: a ++ dotChar :: b ++ rest) (x :: a ++ dotChar :: b).length =
        copyName (x :: a ++ dotChar :: b ++ rest) (x :: a ++ dotChar :: b).length :=
      unix2dosfn_head fun dot => dotless (dot ▸ List.mem_cons_self)
    rw [copies, copies]
    exact ⟨copiedZero, copiedLetter⟩

/-- A name is made of its own characters, and the memory is read to the second byte after it at
most, exactly where its first dot comes with three characters. -/
theorem unix2dosfn_iff (nonempty : n ≠ []) (nonzero : ∀ x ∈ n, x ≠ 0) :
    (∃ dn, ∀ rest : List Byte, 2 ≤ rest.length → unix2dosfn (n ++ rest) n.length = some dn) ↔
      ∀ b, Extends n b → 3 ≤ b.length := by
  constructor
  · rintro ⟨dn, same⟩ b extended
    by_contra short
    obtain ⟨zero, letter⟩ := unix2dosfn_short nonzero extended (Nat.lt_of_not_le short)
    rw [same [0, 0] (le_refl _), Option.bind_some] at zero
    rw [same [0x41, 0] (le_refl _), Option.bind_some, zero] at letter
    exact absurd (Option.some.inj letter) (by decide)
  · intro long
    by_cases dotted : dotChar ∈ n
    · obtain ⟨a, b, whole, first⟩ := List.eq_append_cons_of_mem dotted
      have extended : Extends n b := ⟨a, whole, first⟩
      obtain ⟨dn, same⟩ := unix2dosfn_long nonzero extended (long b extended)
      exact ⟨dn, fun rest _ => same rest⟩
    · exact ⟨nameField n, fun rest _ => unix2dosfn_plain nonzero dotted nonempty⟩

theorem unix2dosfn_text : ∃ dn, ∀ rest : List Byte, 2 ≤ rest.length →
    unix2dosfn ([0x61, 0x2e, 0x74, 0x78, 0x74] ++ rest) 5 = some dn := by
  refine (unix2dosfn_iff (n := [0x61, 0x2e, 0x74, 0x78, 0x74]) (by decide) (by decide)).mpr ?_
  rintro b ⟨a, whole, first⟩
  rcases a with _ | ⟨x, _ | ⟨y, a⟩⟩
  · exact absurd (List.cons.inj whole).1 (by decide)
  · cases whole
    decide
  · have second := (List.cons.inj (List.cons.inj whole).2).1
    exact absurd (second ▸ List.mem_cons_of_mem _ List.mem_cons_self) first

/-- The component "a.c" of the path "a.c/d", and the name "a.c". -/
theorem unix2dosfn_path :
    unix2dosfn [0x61, 0x2e, 0x63, 0x2f, 0x64, 0] 3 =
        some [0x41, 0x20, 0x20, 0x20, 0x20, 0x20, 0x20, 0x20, 0x43, 0x2f, 0x20] ∧
      unix2dosfn [0x61, 0x2e, 0x63, 0, 0, 0] 3 =
        some [0x41, 0x20, 0x20, 0x20, 0x20, 0x20, 0x20, 0x20, 0x43, 0x20, 0x20] := by
  decide +kernel

end Names

section RoundTrip

variable {dn a b : List Byte}

structure Plain (dn : List Byte) : Prop where
  length : dn.length = 11
  first : dn[0]? ≠ some blankChar ∧ dn[0]? ≠ some SLOT_DELETED
  chars : ∀ c ∈ dn, c ≠ 0 ∧ c ≠ dotChar ∧ islower c = false
  name : ∀ i j, i ≤ j → j < 8 → dn[i]? = some blankChar → dn[j]? = some blankChar
  ext : ∀ i j, 8 ≤ i → i ≤ j → j < 11 → dn[i]? = some blankChar → dn[j]? = some blankChar

theorem fold_back : ∀ c : Byte, c ≠ 0 → c ≠ dotChar → islower c = false →
    foldUp (foldDown c) = c ∧ foldDown c ≠ 0 ∧ foldDown c ≠ dotChar := by decide +kernel

theorem foldDown_slot : ∀ c : Byte, foldDown c = SLOT_E5 ↔ c = SLOT_E5 := by decide +kernel

theorem padded {l : List Byte}
    (trailing : ∀ i j, i ≤ j → j < l.length → l[i]? = some blankChar → l[j]? = some blankChar) :
    ∃ a, l = a ++ List.replicate (l.length - a.length) blankChar ∧ blankChar ∉ a := by
  induction l with
  | nil => exact ⟨[], rfl, List.not_mem_nil⟩
  | cons x l ih =>
    by_cases blank : x = blankChar
    · refine ⟨[], ?_, List.not_mem_nil⟩
      rw [List.nil_append]
      refine List.eq_replicate_iff.mpr ⟨rfl, fun y member => ?_⟩
      obtain ⟨j, inside, rfl⟩ := List.mem_iff_getElem.mp member
      have here := trailing 0 j (Nat.zero_le _) inside (congrArg some blank)
      rw [List.getElem?_eq_getElem inside] at here
      exact Option.some.inj here
    · obtain ⟨a, whole, none⟩ := ih fun i j le inside here => by
        have next := trailing (i + 1) (j + 1) (by omega) (by simpa using inside)
        rw [List.getElem?_cons_succ, List.getElem?_cons_succ] at next
        exact next here
      refine ⟨x :: a, ?_, ?_⟩
      · rw [List.length_cons, List.length_cons, Nat.add_sub_add_right, List.cons_append, ← whole]
      · rw [List.mem_cons, not_or]
        exact ⟨fun same => blank same.symm, none⟩

theorem lastChar_eq {base count m : Nat} (le : m ≤ count)
    (blank : ∀ i, m ≤ i → i < count → dn[base + i]? = some blankChar)
    (last : m = 0 ∨ dn[base + (m - 1)]? ≠ some blankChar) : lastChar dn base count = m := by
  induction count with
  | zero => exact (Nat.le_zero.mp le).symm
  | succ count ih =>
    rw [lastChar]
    by_cases full : m = count + 1
    · rw [full] at last ⊢
      rcases last with zero | other
      · cases zero
      · rw [Nat.add_sub_cancel] at other
        rw [if_pos other]
    · rw [if_neg (not_not_intro (blank count (by omega) (Nat.lt_succ_self _)))]
      exact ih (by omega) fun i low high => blank i low (by omega)

structure Fields (dn a b : List Byte) : Prop where
  whole : dn = (a ++ List.replicate (8 - a.length) blankChar) ++
    (b ++ List.replicate (3 - b.length) blankChar)
  name : a.length ≤ 8
  ext : b.length ≤ 3
  nameBlank : blankChar ∉ a
  extBlank : blankChar ∉ b

theorem Plain.fields (plain : Plain dn) : ∃ a b, Fields dn a b := by
  have size := plain.length
  have nameSize : (dn.take 8).length = 8 := by rw [List.length_take]; lia
  have extSize : (dn.drop 8).length = 3 := by rw [List.length_drop]; lia
  obtain ⟨a, name, nameBlank⟩ := @padded (dn.take 8) fun i j le inside here => by
    rw [List.getElem?_take_of_lt (by lia)] at here ⊢
    exact plain.name i j le (by lia) here
  obtain ⟨b, ext, extBlank⟩ := @padded (dn.drop 8) fun i j le inside here => by
    rw [List.getElem?_drop] at here ⊢
    exact plain.ext (8 + i) (8 + j) (by lia) (by lia) (by lia) here
  have nameLength := congrArg List.length name
  have extLength := congrArg List.length ext
  rw [List.length_append, List.length_replicate, nameSize] at nameLength
  rw [List.length_append, List.length_replicate, extSize] at extLength
  rw [nameSize] at name
  rw [extSize] at ext
  refine ⟨a, b, ?_, by lia, by lia, nameBlank, extBlank⟩
  rw [← name, ← ext, List.take_append_drop]

theorem Fields.lastChars (fields : Fields dn a b) : lastChar dn 0 8 = a.length ∧
    lastChar dn 8 3 = b.length := by
  have name := fields.name
  have ext := fields.ext
  have nameSize : (a ++ List.replicate (8 - a.length) blankChar).length = 8 := by
    rw [List.length_append, List.length_replicate]
    lia
  have inName (i : Nat) (inside : i < 8) :
      dn[0 + i]? = (a ++ List.replicate (8 - a.length) blankChar)[i]? := by
    rw [fields.whole, Nat.zero_add, List.getElem?_append_left (by lia)]
  have inExt (i : Nat) : dn[8 + i]? = (b ++ List.replicate (3 - b.length) blankChar)[i]? := by
    rw [fields.whole, List.getElem?_append_right (by lia), nameSize, Nat.add_sub_cancel_left]
  constructor
  · refine lastChar_eq name (fun i low high => ?_) ?_
    · rw [inName i high, List.getElem?_append_right low, List.getElem?_replicate_of_lt (by lia)]
    · by_cases empty : a.length = 0
      · exact .inl empty
      · rw [inName _ (by lia), List.getElem?_append_left (by lia)]
        exact .inr fun here => fields.nameBlank (List.mem_of_getElem? here)
  · refine lastChar_eq ext (fun i low high => ?_) ?_
    · rw [inExt, List.getElem?_append_right low, List.getElem?_replicate_of_lt (by lia)]
    · by_cases empty : b.length = 0
      · exact .inl empty
      · rw [inExt, List.getElem?_append_left (by lia)]
        exact .inr fun here => fields.extBlank (List.mem_of_getElem? here)

def unixName (a b : List Byte) : List Byte :=
  let name := a.map foldDown
  (if name[0]? = some SLOT_E5 then name.set 0 0xe5 else name) ++
    if b = [] then [] else dotChar :: b.map foldDown

theorem dos2unixfn_fields (fields : Fields dn a b) (nonempty : a ≠ []) :
    dos2unixfn dn = (unixName a b ++ [0], (unixName a b).length) := by
  have nameSize : (a ++ List.replicate (8 - a.length) blankChar).length = 8 := by
    have name := fields.name
    rw [List.length_append, List.length_replicate]
    omega
  have name : dn.take a.length = a := by rw [fields.whole, List.append_assoc, List.take_left' rfl]
  have ext :
    (dn.drop 8).take b.length =
    b := by rw [fields.whole, List.drop_left' nameSize, List.take_left' rfl]
  have empty : b.length ≠ 0 ↔ ¬ b = [] := List.length_eq_zero_iff.not
  rw [dos2unixfn, fields.lastChars.1, fields.lastChars.2, name, ext]
  obtain ⟨x, a, rfl⟩ := List.exists_cons_of_ne_nil nonempty
  unfold unixName
  by_cases none : b = []
  · rw [if_neg (not_not_intro (List.length_eq_zero_iff.mpr none)), if_pos none]
    by_cases slot : foldDown x = SLOT_E5
    · simp [slot]
    · simp [slot]
  · rw [if_pos (empty.mpr none), if_neg none]
    by_cases slot : foldDown x = SLOT_E5
    · simp [slot]
    · simp [slot]

theorem nameField_short (short : a.length ≤ 8) :
    nameField a = fixed (a.map foldUp ++ List.replicate (11 - a.length) blankChar) := by
  rw [nameField, List.take_of_length_le short, spliced, blanks, Nat.zero_add, List.take_zero,
    List.nil_append, List.drop_replicate]

theorem folds_back (chars : ∀ c ∈ a, c ≠ 0 ∧ c ≠ dotChar ∧ islower c = false) :
    (a.map foldDown).map foldUp = a :=
  calc (a.map foldDown).map foldUp = a.map id := by
        rw [List.map_map]
        exact List.map_congr_left fun c member =>
          (fold_back c (chars c member).1 (chars c member).2.1 (chars c member).2.2).1
    _ = a := List.map_id a

structure Named (a name : List Byte) : Prop where
  plain : ∀ x ∈ name, ¬ Stops true x
  nonempty : name ≠ []
  back : nameField name = a ++ List.replicate (11 - a.length) blankChar

theorem named {x : Byte} (short : (x :: a).length ≤ 8) (deleted : x ≠ SLOT_DELETED)
    (chars : ∀ c ∈ x :: a, c ≠ 0 ∧ c ≠ dotChar ∧ islower c = false) :
    Named (x :: a) ((if foldDown x = SLOT_E5 then 0xe5 else foldDown x) :: a.map foldDown) := by
  have back (c : Byte) (member : c ∈ x :: a) :=
    fold_back c (chars c member).1 (chars c member).2.1 (chars c member).2.2
  have rest := folds_back fun c member => chars c (List.mem_cons_of_mem _ member)
  refine ⟨?_, List.cons_ne_nil _ _, ?_⟩
  · intro c member
    rcases List.mem_cons.mp member with rfl | later
    · split
      · rintro (zero | ⟨-, dot⟩)
        · exact absurd zero (by decide)
        · exact absurd dot (by decide)
      · rintro (zero | ⟨-, dot⟩)
        · exact (back x List.mem_cons_self).2.1 zero
        · exact (back x List.mem_cons_self).2.2 dot
    · obtain ⟨c, inside, rfl⟩ := List.mem_map.mp later
      rintro (zero | ⟨-, dot⟩)
      · exact (back c (List.mem_cons_of_mem _ inside)).2.1 zero
      · exact (back c (List.mem_cons_of_mem _ inside)).2.2 dot
  · have size : ((if foldDown x = SLOT_E5 then 0xe5 else foldDown x) :: a.map foldDown).length =
        (x :: a).length := by simp
    rw [nameField_short (by omega), size, List.map_cons, rest]
    by_cases slot : foldDown x = SLOT_E5
    · rw [if_pos slot, (foldDown_slot x).mp slot]
      rfl
    · rw [if_neg slot, (back x List.mem_cons_self).1]
      exact if_neg fun same => deleted (Option.some.inj same)

theorem spliced_fields (fields : Fields dn a b) (back : (b.map foldDown).map foldUp = b) :
    spliced (a ++ List.replicate (11 - a.length) blankChar) 8 (b.map foldDown) = dn := by
  have name := fields.name
  have ext := fields.ext
  have front : a ++ List.replicate (11 - a.length) blankChar =
      (a ++ List.replicate (8 - a.length) blankChar) ++ List.replicate 3 blankChar := by
    rw [List.append_assoc, List.replicate_append_replicate]
    congr 2
    lia
  have size : (a ++ List.replicate (8 - a.length) blankChar).length = 8 := by
    rw [List.length_append, List.length_replicate]
    lia
  rw [spliced, back, front, List.take_left' size, List.length_map, ← List.drop_drop,
    List.drop_left' size, List.drop_replicate, fields.whole, List.append_assoc]

/-- A name as DOS writes it comes back, and is known by what it becomes. -/
theorem unix2dosfn_dos2unixfn :
    (∀ dn, Plain dn → unix2dosfn (dos2unixfn dn).1 (dos2unixfn dn).2 = some dn) ∧
    ∀ dn dn', Plain dn → Plain dn' → dos2unixfn dn = dos2unixfn dn' → dn = dn' := by
  have round (dn : List Byte) (plain : Plain dn) : unix2dosfn (dos2unixfn dn).1 (dos2unixfn dn).2 =
      some dn := by
    obtain ⟨a, b, fields⟩ := plain.fields
    have chars (c : Byte) (member : c ∈ a ++ b) : c ≠ 0 ∧ c ≠ dotChar ∧ islower c = false := by
      refine plain.chars c ?_
      rw [fields.whole]
      rcases List.mem_append.mp member with name | ext
      · exact List.mem_append_left _ (List.mem_append_left _ name)
      · exact List.mem_append_right _ (List.mem_append_left _ ext)
    obtain ⟨x, a, rfl⟩ : ∃ x a', a = x :: a' := by
      refine List.exists_cons_of_ne_nil fun empty => plain.first.1 ?_
      rw [fields.whole, empty]
      rfl
    have first : dn[0]? = some x := by
      rw [fields.whole]
      rfl
    have name := named fields.name (fun same => plain.first.2 (first.trans (congrArg some same)))
      fun c member => chars c (List.mem_append_left _ member)
    have string :
        unixName (x :: a) b =
        ((if foldDown x = SLOT_E5 then 0xe5 else foldDown x) :: a.map foldDown) ++
        if b = [] then [] else dotChar :: b.map foldDown := by
      unfold unixName
      by_cases slot : foldDown x = SLOT_E5
      · simp [slot]
      · simp [slot]
    rw [dos2unixfn_fields fields (List.cons_ne_nil _ _), string]
    obtain ⟨plainName, nonempty, back⟩ := name
    generalize (if foldDown x = SLOT_E5 then 0xe5 else foldDown x) = y at plainName nonempty back ⊢
    have dotless : dotChar ∉ y :: a.map foldDown :=
      fun member => plainName dotChar member (.inr ⟨rfl, rfl⟩)
    have ext := folds_back fun c member => chars c (List.mem_append_right _ member)
    have extNonzero : ∀ c ∈ b.map foldDown, c ≠ 0 := by
      intro c member
      obtain ⟨d, inside, rfl⟩ := List.mem_map.mp member
      have char := chars d (List.mem_append_right _ inside)
      exact (fold_back d char.1 char.2.1 char.2.2).2.1
    have fits := fields.ext
    have merged := spliced_fields fields ext
    rw [← back] at merged
    by_cases none : b = []
    · rw [if_pos none, List.append_nil,
        unix2dosfn_plain (fun c member zero => plainName c member (.inl zero)) dotless nonempty]
      rw [none, spliced, List.map_nil, List.map_nil, List.append_nil, List.length_nil, Nat.add_zero,
        List.take_append_drop]
        at merged
      rw [merged]
    · rw [if_neg none]
      dsimp only
      rw [List.cons_append, List.cons_append, unix2dosfn_head fun dot =>
        dotless (dot ▸ List.mem_cons_self), ← List.cons_append, ← List.cons_append]
      by_cases long : 3 ≤ (b.map foldDown).length
      · rw [copyName_long plainName extNonzero long,
          List.take_of_length_le (by rw [List.length_map]; exact fits), merged]
      · rw [copyName_short plainName extNonzero (by omega), if_pos rfl, merged]
  refine ⟨round, fun dn dn' plain plain' same => ?_⟩
  have back := round dn plain
  rw [same, round dn' plain'] at back
  exact (Option.some.inj back).symm

/-- A name that begins with the byte that stands for a deleted slot, and an extension of two
characters. -/
def slotName : List Byte := [0x05, 0x41, 0x39, 0x20, 0x20, 0x20, 0x20, 0x20, 0x43, 0x5f, 0x20]

theorem slotName_plain : Plain slotName where
  length := rfl
  first := by decide
  chars := by decide
  name := by
    intro i j le high here
    have low : 3 ≤ i := by
      by_contra early
      have each : ∀ i < 3, slotName[i]? ≠ some blankChar := by decide
      exact each i (by lia) here
    have each : ∀ j < 8, 3 ≤ j → slotName[j]? = some blankChar := by decide
    exact each j high (by lia)
  ext := by
    intro i j low le high here
    have late : 10 ≤ i := by
      by_contra early
      have each : ∀ i < 10, 8 ≤ i → slotName[i]? ≠ some blankChar := by decide
      exact each i (by lia) low here
    have last : j = 10 := by lia
    rw [last]
    rfl

theorem unix2dosfn_slotName : dos2unixfn slotName = ([0xe5, 0x61, 0x39, 0x2e, 0x63, 0x5f, 0], 6) ∧
    unix2dosfn (dos2unixfn slotName).1 (dos2unixfn slotName).2 = some slotName :=
  ⟨by decide, unix2dosfn_dos2unixfn.1 slotName slotName_plain⟩

end RoundTrip

end FreeBsd.Pcfs
