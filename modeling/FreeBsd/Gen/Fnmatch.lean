import FreeBsd.Lib.Glob
import Mathlib.Data.BitVec

/-! `fnmatch`, and the language of a pattern. -/
namespace FreeBsd.Gen

open FreeBsd.Lib

section Model

/-- A `char`; `rangematch` compares them as signed numbers. -/
abbrev Octet := BitVec 8

def FNM_NOESCAPE : Nat := 0x01
def FNM_PATHNAME : Nat := 0x02

def slash : Octet := 0x2f
def star : Octet := 0x2a
def backslash : Octet := 0x5c

/-- The loop of `rangematch`: whether `test` was met, and the pattern after the bracket. -/
def rangeScan (test : Octet) : (pattern : List Octet) → (ok : Bool) → Option (Bool × List Octet)
  | [], _ => none
  | c :: pattern, ok =>
    if c = 0x5d then some (ok, pattern)
    else
      match pattern with
      | dash :: c2 :: rest =>
        if dash = 0x2d ∧ c2 ≠ 0x5d then rangeScan test rest (ok || (c.sle test && test.sle c2))
        else rangeScan test (dash :: c2 :: rest) (ok || c == test)
      | pattern => rangeScan test pattern (ok || c == test)

def rangematch (pattern : List Octet) (test : Octet) : Option (List Octet) :=
  let negate := pattern.head? = some 0x21
  match rangeScan test (if negate then pattern.tail else pattern) false with
  | none => none
  | some (ok, pattern) => if ok = decide negate then none else some pattern

theorem rangeScan_length {test : Octet} {pattern rest : List Octet} {ok met : Bool}
    (scan : rangeScan test pattern ok = some (met, rest)) : rest.length < pattern.length := by
  fun_induction rangeScan test pattern ok with
  | case1 => cases scan
  | case2 =>
    cases scan
    exact Nat.lt_succ_self _
  | case3 _ _ _ _ _ _ _ ih =>
    have := ih scan
    simp only [List.length_cons]
    lia
  | case4 _ _ _ _ _ _ _ ih =>
    have := ih scan
    simp only [List.length_cons] at *
    lia
  | case5 _ _ _ _ _ ih =>
    have := ih scan
    simp only [List.length_cons]
    lia

theorem rangematch_length {test : Octet} {pattern rest : List Octet}
    (matched : rangematch pattern test = some rest) : rest.length < pattern.length := by
  unfold rangematch at matched
  dsimp only at matched
  split at matched
  · cases matched
  · rename_i scan
    split at matched
    · cases matched
    · cases matched
      have shorter := rangeScan_length scan
      split at shorter
      · have := List.length_tail (l := pattern)
        omega
      · exact shorter

/-- The general case of a star: try every place up to the end, or up to a slash. -/
def starLoop (flags : Nat) (matches' : List Octet → Bool) : (string : List Octet) → Bool
  | [] => false
  | test :: string =>
    matches' (test :: string) ||
      if test = slash ∧ flags &&& FNM_PATHNAME ≠ 0 then false else starLoop flags matches' string

/-- The byte that has to be matched, and the pattern after it: the byte after a backslash,
unless there is none. -/
def unescape (flags : Nat) (c : Octet) (pattern : List Octet) : Octet × List Octet :=
  if c = backslash ∧ flags &&& FNM_NOESCAPE = 0 then
    match pattern with
    | [] => (backslash, [])
    | c :: pattern => (c, pattern)
  else (c, pattern)

theorem unescape_length (flags : Nat) (c : Octet) (pattern : List Octet) :
    (unescape flags c pattern).2.length ≤ pattern.length := by
  unfold unescape
  split
  · cases pattern with
    | nil => exact le_refl _
    | cons c pattern => exact Nat.le_succ _
  · exact le_refl _

def fnmatch (pattern string : List Octet) (flags : Nat) : Bool :=
  match pattern with
  | [] => string.isEmpty
  | c :: pattern =>
    if c = 0x3f then
      match string with
      | [] => false
      | test :: string =>
        if test = slash ∧ flags &&& FNM_PATHNAME ≠ 0 then false else fnmatch pattern string flags
    else if c = star then
      -- collapse multiple stars
      match _after : pattern.dropWhile (· = star) with
      | [] => if flags &&& FNM_PATHNAME ≠ 0 then decide (slash ∉ string) else true
      | c :: rest =>
        if c = slash ∧ flags &&& FNM_PATHNAME ≠ 0 then
          match string.dropWhile (· ≠ slash) with
          | [] => false
          | test :: string => fnmatch (c :: rest) (test :: string) flags
        else starLoop flags (fun string => fnmatch (c :: rest) string flags) string
    else if c = 0x5b then
      match string with
      | [] => false
      | test :: string =>
        if test = slash ∧ flags &&& FNM_PATHNAME ≠ 0 then false
        else
          match _matched : rangematch pattern test with
          | none => false
          | some pattern => fnmatch pattern string flags
    else
      match string with
      | [] => false
      | test :: string =>
        if (unescape flags c pattern).1 ≠ test then false else fnmatch (unescape flags c pattern).2
          string flags
termination_by pattern.length
decreasing_by
  · exact Nat.lt_succ_self _
  · have := (pattern.dropWhile_suffix (· = star)).length_le
    rw [_after] at this
    exact Nat.lt_succ_of_le this
  · have := (pattern.dropWhile_suffix (· = star)).length_le
    rw [_after] at this
    exact Nat.lt_succ_of_le this
  · exact Nat.lt_succ_of_lt (rangematch_length _matched)
  · exact Nat.lt_succ_of_le (unescape_length flags c pattern)

end Model

section Language

/-- The ranges between the brackets, a single byte as a range of its own, and the pattern after
them. -/
def ranges : (pattern : List Octet) → Option (List (Octet × Octet) × List Octet)
  | [] => none
  | c :: pattern =>
    if c = 0x5d then some ([], pattern)
    else
      match pattern with
      | dash :: c2 :: rest =>
        if dash = 0x2d ∧ c2 ≠ 0x5d then (ranges rest).map fun r => ((c, c2) :: r.1, r.2)
        else (ranges (dash :: c2 :: rest)).map fun r => ((c, c) :: r.1, r.2)
      | pattern => (ranges pattern).map fun r => ((c, c) :: r.1, r.2)

def inRange (test : Octet) (range : Octet × Octet) : Bool := range.1.sle test && test.sle range.2

def bracket (pattern : List Octet) : Option ((Octet → Bool) × List Octet) :=
  let negate := pattern.head? = some 0x21
  (ranges (if negate then pattern.tail else pattern)).map fun r =>
    (fun test => r.1.any (inRange test) ≠ decide negate, r.2)

inductive Token where
  | byte (b : Octet)
  | any
  | star
  | set (accepts : Octet → Bool)
  /-- a bracket that is not closed -/
  | never

def barrier (flags : Nat) : Set Octet := {a | a = slash ∧ flags &&& FNM_PATHNAME ≠ 0}

def Token.lang (flags : Nat) : Token → Language Octet
  | .byte b => oneOf {b}
  | .any => oneOf {a | a ∉ barrier flags}
  | .star => clearOf (barrier flags)
  | .set accepts => oneOf {a | a ∉ barrier flags ∧ accepts a = true}
  | .never => 0

theorem single_inRange (c test : Octet) : inRange test (c, c) = (c == test) := by
  rw [Bool.eq_iff_iff, inRange, Bool.and_eq_true, BitVec.sle_iff_toInt_le, BitVec.sle_iff_toInt_le,
    beq_iff_eq, ← BitVec.toInt_inj]
  exact ⟨fun both => le_antisymm both.1 both.2, fun same => ⟨same.le, same.ge⟩⟩

theorem rangeScan_eq (test : Octet) (pattern : List Octet) (ok : Bool) :
    rangeScan test pattern ok = (ranges pattern).map fun r => (ok || r.1.any (inRange test),
      r.2) := by
  fun_induction rangeScan test pattern ok with
  | case1 => rfl
  | case2 =>
    unfold ranges
    rw [if_pos rfl]
    simp
  | case3 c ok close dash c2 rest inside ih =>
    rw [ih, ranges, if_neg close]
    simp only [if_pos inside, Option.map_map]
    congr 1
    funext r
    simp [inRange, Bool.or_assoc]
  | case4 c ok close dash c2 rest outside ih =>
    rw [ih, ranges, if_neg close]
    simp only [if_neg outside, Option.map_map]
    congr 1
    funext r
    simp [single_inRange, Bool.or_assoc]
  | case5 c ok close pattern short ih =>
    rw [ih, ranges, if_neg close]
    · rw [Option.map_map]
      congr 1
      funext r
      simp [single_inRange, Bool.or_assoc]
    · exact short

theorem rangematch_eq (pattern : List Octet) (test : Octet) :
    rangematch pattern test = (bracket pattern).bind fun b =>
      if b.1 test then some b.2 else none := by
  rw [rangematch, bracket, rangeScan_eq]
  cases ranges (if pattern.head? = some 0x21 then pattern.tail else pattern) with
  | none => rfl
  | some r =>
    simp only [Option.map_some, Bool.false_or, Option.bind_some]
    by_cases same : r.1.any (inRange test) = decide (pattern.head? = some 0x21) <;> simp [same]

theorem bracket_length {pattern rest : List Octet} {accepts : Octet → Bool}
    (parsed : bracket pattern = some (accepts, rest)) : rest.length < pattern.length := by
  unfold bracket at parsed
  obtain ⟨r, found, same⟩ := Option.map_eq_some_iff.mp parsed
  cases same
  have scan := rangeScan_eq 0 (if pattern.head? = some 0x21 then pattern.tail else pattern) false
  rw [found, Option.map_some] at scan
  have shorter := rangeScan_length scan
  split at shorter
  · have := List.length_tail (l := pattern)
    omega
  · exact shorter

def tokens (flags : Nat) (pattern : List Octet) : List Token :=
  match pattern with
  | [] => []
  | c :: pattern =>
    if c = 0x3f then .any :: tokens flags pattern
    else if c = star then .star :: tokens flags pattern
    else if c = 0x5b then
      match _parsed : bracket pattern with
      | none => [.never]
      | some (accepts, rest) => .set accepts :: tokens flags rest
    else .byte (unescape flags c pattern).1 :: tokens flags (unescape flags c pattern).2
termination_by pattern.length
decreasing_by
  · exact Nat.lt_succ_self _
  · exact Nat.lt_succ_self _
  · exact Nat.lt_succ_of_lt (bracket_length _parsed)
  · exact Nat.lt_succ_of_le (unescape_length flags c pattern)

def patternLang (flags : Nat) (pattern : List Octet) : Language Octet :=
  ((tokens flags pattern).map (Token.lang flags)).prod

end Language

section Matching

variable {flags : Nat} {c : Octet} {pattern rest : List Octet}

theorem patternLang_nil : patternLang flags [] = 1 := by
  rw [patternLang, tokens]
  rfl

theorem patternLang_any : patternLang flags (0x3f :: pattern) =
    oneOf {a | a ∉ barrier flags} * patternLang flags pattern := by
  rw [patternLang, tokens, if_pos rfl]
  rfl

theorem patternLang_star : patternLang flags (star :: pattern) =
    clearOf (barrier flags) * patternLang flags pattern := by
  rw [patternLang, tokens, if_neg (by decide), if_pos rfl]
  rfl

theorem patternLang_bracket : patternLang flags (0x5b :: pattern) =
    match bracket pattern with
    | none => 0
    | some (accepts, rest) => oneOf {a | a ∉ barrier flags ∧ accepts a = true} * patternLang flags
      rest := by
  rw [patternLang, tokens, if_neg (by decide), if_neg (by decide), if_pos rfl]
  split
  · rename_i none
    rw [none]
    simp [Token.lang]
  · rename_i parsed
    rw [parsed]
    rfl

theorem patternLang_byte (notAny : c ≠ 0x3f) (notStar : c ≠ star) (notBracket : c ≠ 0x5b) :
    patternLang flags (c :: pattern) =
      oneOf {(unescape flags c pattern).1} * patternLang flags (unescape flags c pattern).2 := by
  rw [patternLang, tokens, if_neg notAny, if_neg notStar, if_neg notBracket]
  rfl

theorem patternLang_stars : patternLang flags (star :: pattern) =
    clearOf (barrier flags) * patternLang flags (pattern.dropWhile (· = star)) := by
  induction pattern with
  | nil => rw [patternLang_star, List.dropWhile_nil]
  | cons c pattern ih =>
    by_cases same : c = star
    · subst same
      rw [patternLang_star, ih, clearOf_mul_clearOf, List.dropWhile_cons, if_pos (by simp)]
    · rw [patternLang_star, List.dropWhile_cons, if_neg (by simp [same])]

/-- A pattern that begins with anything but a star does not match the empty string. -/
theorem nil_notMem_patternLang (other : c ≠ star) : [] ∉ patternLang flags (c :: pattern) := by
  by_cases isAny : c = 0x3f
  · rw [isAny, patternLang_any]
    exact nil_notMem_oneOf_mul
  by_cases isBracket : c = 0x5b
  · rw [isBracket, patternLang_bracket]
    split
    · exact Set.notMem_empty _
    · exact nil_notMem_oneOf_mul
  · rw [patternLang_byte isAny other isBracket]
    exact nil_notMem_oneOf_mul

theorem starLoop_iff {matches' : List Octet → Bool} {L : Language Octet}
    (sound : ∀ s, matches' s = true ↔ s ∈ L) (nonempty : [] ∉ L) (s : List Octet) :
    starLoop flags matches' s = true ↔ s ∈ clearOf (barrier flags) * L := by
  induction s with
  | nil =>
    rw [nil_mem_clearOf_mul]
    exact ⟨fun none => absurd none Bool.false_ne_true, fun member => absurd member nonempty⟩
  | cons test s ih =>
    rw [cons_mem_clearOf_mul, starLoop, Bool.or_eq_true, sound]
    by_cases barred : test = slash ∧ flags &&& FNM_PATHNAME ≠ 0
    · simp [barred, barrier]
    · rw [if_neg barred, ih]
      simp only [barrier, Set.mem_ofPred_eq, barred, not_false_eq_true, true_and]

theorem barrier_pathname (pathname : flags &&& FNM_PATHNAME ≠ 0) : barrier flags = {slash} := by
  ext a
  simp [barrier, pathname]

theorem false_iff_notMem {p : Prop} (no : ¬ p) : false = true ↔ p :=
  ⟨fun none => absurd none Bool.false_ne_true, fun yes => absurd yes no⟩

/-- A star before a slash that no star matches takes all up to the first one. -/
theorem mem_star_slash {string : List Octet} (pathname : flags &&& FNM_PATHNAME ≠ 0) :
    string ∈ clearOf (barrier flags) * patternLang flags (slash :: rest) ↔
      string.dropWhile (· ≠ slash) ∈ patternLang flags (slash :: rest) := by
  have literal : unescape flags slash rest = (slash, rest) := by
    unfold unescape
    exact if_neg fun both => absurd both.1 (by decide)
  rw [patternLang_byte (by decide) (by decide) (by decide), literal, barrier_pathname pathname,
    mem_clearOf_mul_oneOf, mem_oneOf_mul]
  constructor
  · rintro ⟨t, here, member⟩
    exact ⟨slash, t, here, rfl, member⟩
  · rintro ⟨a, t, here, rfl, member⟩
    exact ⟨t, here, member⟩

/-- `fnmatch` returns 0 exactly on the strings of the language of the pattern. -/
theorem fnmatch_iff (pattern string : List Octet) (flags : Nat) :
    fnmatch pattern string flags = true ↔ string ∈ patternLang flags pattern := by
  fun_induction fnmatch pattern string flags with
  | case1 string =>
    rw [patternLang_nil, Language.mem_one, List.isEmpty_iff]
  | case2 pattern =>
    rw [patternLang_any]
    exact false_iff_notMem nil_notMem_oneOf_mul
  | case3 pattern test string barred =>
    rw [patternLang_any, cons_mem_oneOf_mul]
    exact false_iff_notMem fun both => both.1 barred
  | case4 pattern test string free ih =>
    rw [patternLang_any, cons_mem_oneOf_mul, ih]
    exact ⟨fun member => ⟨free, member⟩, And.right⟩
  | case5 string pattern last pathname =>
    rw [patternLang_stars, last, patternLang_nil, mem_clearOf_mul_one, decide_eq_true_eq,
      barrier_pathname pathname]
    exact ⟨fun absent a member same => absent (same ▸ member),
      fun clear member => clear slash member rfl⟩
  | case6 string pattern last pathname =>
    rw [patternLang_stars, last, patternLang_nil, mem_clearOf_mul_one]
    exact ⟨fun _ a _ barred => pathname barred.2, fun _ => rfl⟩
  | case7 string pattern c rest after pathname none =>
    obtain ⟨rfl, pathname⟩ := pathname
    rw [patternLang_stars, after, mem_star_slash pathname, none]
    exact false_iff_notMem (nil_notMem_patternLang (by decide))
  | case8 string pattern c rest after pathname test found here _ ih =>
    obtain ⟨rfl, pathname⟩ := pathname
    rw [ih, patternLang_stars, after, mem_star_slash pathname, here]
  | case9 string pattern c rest after _ _ ih =>
    have other : c ≠ star := by
      have head := List.head?_dropWhile_not (· = star) pattern
      rw [after] at head
      simpa using head
    rw [patternLang_stars, after]
    exact starLoop_iff ih (nil_notMem_patternLang other) string
  | case10 pattern =>
    exact false_iff_notMem (nil_notMem_patternLang (by decide))
  | case11 pattern test string barred =>
    rw [patternLang_bracket]
    apply false_iff_notMem
    split
    · exact Set.notMem_empty _
    · rw [cons_mem_oneOf_mul]
      exact fun both => both.1.1 barred
  | case12 pattern test string free unmatched =>
    rw [patternLang_bracket]
    rw [rangematch_eq] at unmatched
    apply false_iff_notMem
    split
    · exact Set.notMem_empty _
    · rename_i accepts rest parsed
      rw [parsed] at unmatched
      rw [cons_mem_oneOf_mul]
      rintro ⟨⟨_, accepted⟩, _⟩
      simp [accepted] at unmatched
  | case13 pattern test string free rest matched _ _ ih =>
    rw [rangematch_eq] at matched
    rw [ih, patternLang_bracket]
    cases parsed : bracket pattern with
    | none =>
      rw [parsed] at matched
      cases matched
    | some b =>
      rw [parsed, Option.bind_some] at matched
      split at matched
      · rename_i accepted
        cases matched
        rw [cons_mem_oneOf_mul]
        exact ⟨fun member => ⟨⟨free, accepted⟩, member⟩, And.right⟩
      · cases matched
  | case14 c pattern notAny notStar notBracket =>
    exact false_iff_notMem (nil_notMem_patternLang notStar)
  | case15 c pattern notAny notStar notBracket test string other =>
    rw [patternLang_byte notAny notStar notBracket, cons_mem_oneOf_mul]
    exact false_iff_notMem fun both => other both.1.symm
  | case16 c pattern notAny notStar notBracket test string same ih =>
    rw [patternLang_byte notAny notStar notBracket, cons_mem_oneOf_mul, ih]
    exact ⟨fun member => ⟨(not_not.mp same).symm, member⟩, And.right⟩

end Matching

end FreeBsd.Gen
