import FreeBsd.Gen.Vis
import Mathlib.Data.List.Chain

/-! `strvisx`: blocks of bytes made visible. -/
namespace FreeBsd.Gen

section Model

/-- The code of a byte that comes before `nextc`, where both are `char`s. -/
def code (flag : CInt) (c nextc : Byte) :
    List Byte := vis (c.signExtend 32) flag (nextc.signExtend 32)

/-- The loop of `strvisx` with `len` bytes to go: `src` stays where it is. -/
def strvisxLoop (src : List Byte) (flag : CInt) : (len : Nat) → List Byte
  | 0 => []
  | 1 => code flag (src.headD 0) 0
  | len + 2 => code flag (src.headD 0) (src.getD 1 0) ++ strvisxLoop src flag (len + 1)

/-- `strvisx` of a whole block: what it puts at `dst`, and what it returns. -/
def strvisx (src : List Byte) (flag : CInt) : List Byte × Nat :=
  let out := strvisxLoop src flag src.length
  (out, out.length)

/-- The bytes that a caller of `unvis` gets out of `out`, with `UNVIS_END` at the end; none where it
returns `UNVIS_SYNBAD`. A character that is pushed back is passed again. -/
def feed : (out : List Byte) → (cp : Byte) → (astate : VisState) → Option (List Byte)
  | [], cp, astate =>
    if unvisEnd astate then some [cp] else if astate = .sGround then some [] else none
  | c :: out, cp, astate =>
    match unvis cp c astate with
    | (.valid, cp, astate) => (feed out cp astate).map (cp :: ·)
    | (.more, cp, astate) => feed out cp astate
    | (.nochar, cp, astate) => feed out cp astate
    | (.synbad, _, _) => none
    | (.validpush, cp, astate) =>
      match unvis cp c astate with
      | (.valid, cp', astate) => (feed out cp' astate).map fun rest => cp :: cp' :: rest
      | (.synbad, _, _) => none
      | (_, cp', astate) => (feed out cp' astate).map (cp :: ·)

def codes (flag : CInt) : (src : List Byte) → List Byte
  | [] => []
  | c :: src => code flag c (src.headD 0) ++ codes flag src

structure Visible (flag : CInt) (src : List Byte) : Prop where
  out : (strvisx src flag).1 = codes flag src
  returns : (strvisx src flag).2 = (codes flag src).length
  back : feed (strvisx src flag).1 0 .sGround = some src

end Model

section Codes

variable {flag : CInt} {b c nextc cp : Byte} {out rest src : List Byte} {state : VisState}

theorem feed_decodes (complete : decodes cp state out = some b) :
    feed (out ++ rest) cp state = (feed rest b .sGround).map (b :: ·) := by
  induction out generalizing cp state with
  | nil => cases complete
  | cons c out ih =>
    rw [decodes] at complete
    rw [List.cons_append, feed.eq_def]
    dsimp only
    split at complete
    · cases complete
    split at complete
    · rename_i b' step
      split at complete
      · rename_i last
        cases complete
        rw [step, last]
        rfl
      · cases complete
    · rename_i cp state step
      rw [step]
      exact ih complete
    · cases complete

theorem feed_nul (plain : ∀ c ∈ rest.head?, ¬ isoctal c) :
    feed (chr '\\' :: chr '0' :: rest) cp .sGround = (feed rest 0 .sGround).map (0 :: ·) := by
  change feed rest (chr '0' - chr '0') .sOctal2 = _
  cases rest with
  | nil => rfl
  | cons c rest =>
    have other := plain c rfl
    rw [feed, feed]
    simp only [unvis, if_neg other]
    by_cases slash : c = chr '\\'
    · rw [if_pos slash]
      rfl
    · rw [if_neg slash, Option.map_map]
      rfl

theorem zero_special (flag : CInt) :
    ¬ (((0 : CInt).toNat ≤ UCHAR_MAX ∧ isgraph 0) ∨ (flag &&& VIS_SP = 0 ∧ (0 : CInt) = 0x20) ∨
    (flag &&& VIS_TAB = 0 ∧ (0 : CInt) = 0x09) ∨ (flag &&& VIS_NL = 0 ∧ (0 : CInt) = 0x0a) ∨
    (flag &&& VIS_SAFE ≠ 0 ∧ ((0 : CInt) = 0x08 ∨ (0 : CInt) = 0x07 ∨ (0 : CInt) = 0x0d))) := by
  rintro (⟨-, is⟩ | ⟨-, is⟩ | ⟨-, is⟩ | ⟨-, is⟩ | ⟨-, is⟩)
  · exact absurd is (by decide)
  · exact absurd is (by decide)
  · exact absurd is (by decide)
  · exact absurd is (by decide)
  · exact absurd is (by decide)

theorem code_complete (slash : flag &&& VIS_NOSLASH = 0) (b nextc cp : Byte) :
    decodes cp .sGround (code flag b nextc) = some b ∨
      (b = 0 ∧ ¬ isoctal nextc ∧ code flag b nextc = [chr '\\', chr '0']) := by
  by_cases nul : b = 0
  · subst nul
    have wide : (0 : Byte).signExtend 32 = (0 : CInt) := rfl
    have next : ((nextc.signExtend 32).truncate 8 : Byte) = nextc := truncate_signExtend nextc
    unfold code vis
    rw [wide, if_neg (zero_special flag)]
    by_cases style : flag &&& VIS_CSTYLE ≠ 0
    · rw [if_pos style]
      have nulStyle : cstyle 0 (nextc.signExtend 32) =
          some ([chr '\\', chr '0'] ++ if isoctal nextc then [chr '0', chr '0'] else []) := by
        conv_rhs => rw [← next]
        rfl
      rw [nulStyle]
      dsimp only
      by_cases octal : isoctal nextc
      · rw [if_pos octal]
        exact .inl rfl
      · rw [if_neg octal]
        exact .inr ⟨rfl, octal, rfl⟩
    · rw [if_neg style]
      dsimp only
      split
      · exact .inl (octal_decodes 0)
      · exact .inl rfl
  · exact .inl (vis_decodes nul slash _ cp)

theorem cstyle_head {c next : CInt} (styled : cstyle c next = some out) :
    ∃ rest, out = chr '\\' :: rest := by
  unfold cstyle at styled
  split_ifs at styled <;> cases styled <;> exact ⟨_, rfl⟩

theorem code_head (slash : flag &&& VIS_NOSLASH = 0) (b nextc : Byte) :
    ∃ first rest, code flag b nextc = first :: rest ∧ (first = b ∨ first = chr '\\') := by
  unfold code vis
  split
  · exact ⟨_, _, rfl, .inl (truncate_signExtend b)⟩
  · split
    · rename_i out styled
      split at styled
      · obtain ⟨rest, rfl⟩ := cstyle_head styled
        exact ⟨_, rest, rfl, .inr rfl⟩
      · cases styled
    · split
      · exact ⟨_, _, rfl, .inr rfl⟩
      · exact ⟨_, _, rfl, .inr rfl⟩

def codesOf (flag : CInt) (pairs : List (Byte × Byte)) :
    List Byte := pairs.flatMap fun p => code flag p.1 p.2

def Told (p q : Byte × Byte) : Prop := p.1 = 0 → isoctal q.1 → isoctal p.2

theorem feed_codesOf (slash : flag &&& VIS_NOSLASH = 0) {pairs : List (Byte × Byte)}
    (told : pairs.IsChain Told) (cp : Byte) :
    feed (codesOf flag pairs) cp .sGround = some (pairs.map Prod.fst) := by
  induction pairs generalizing cp with
  | nil => rfl
  | cons p pairs ih =>
    have later (cp : Byte) := ih told.tail cp
    change feed (code flag p.1 p.2 ++ codesOf flag pairs) cp .sGround = _
    rcases code_complete slash p.1 p.2 cp with complete | ⟨nul, plain, short⟩
    · rw [feed_decodes complete, later, Option.map_some, List.map_cons]
    · have head : ∀ c ∈ (codesOf flag pairs).head?, ¬ isoctal c := by
        cases pairs with
        | nil =>
          rintro c ⟨⟩
        | cons q pairs =>
          intro c is digit
          obtain ⟨first, rest, starts, which⟩ := code_head slash q.1 q.2
          have here : codesOf flag (q :: pairs) = first :: (rest ++ codesOf flag pairs) := by
            change code flag q.1 q.2 ++ codesOf flag pairs = _
            rw [starts, List.cons_append]
          rw [here, List.head?_cons] at is
          cases is
          rcases which with rfl | rfl
          · exact plain (told.rel_head? rfl nul digit)
          · exact absurd digit (by decide)
      rw [short]
      change feed (chr '\\' :: chr '0' :: codesOf flag pairs) cp .sGround = _
      rw [feed_nul head, later, Option.map_some, List.map_cons, nul]

end Codes

section Block

variable {flag : CInt} {src : List Byte} {b : Byte}

def blockPairs : (src : List Byte) → List (Byte × Byte)
  | [] => []
  | c :: src => (c, src.headD 0) :: blockPairs src

theorem codes_codesOf (flag : CInt) (src : List Byte) :
    codes flag src = codesOf flag (blockPairs src) := by
  induction src with
  | nil => rfl
  | cons c src ih =>
    rw [codes, ih]
    rfl

/-- What `strvisx` takes for the block: its first byte again and again. -/
def loopPairs (src : List Byte) : (len : Nat) → List (Byte × Byte)
  | 0 => []
  | 1 => [(src.headD 0, 0)]
  | len + 2 => (src.headD 0, src.getD 1 0) :: loopPairs src (len + 1)

theorem strvisxLoop_codesOf (flag : CInt) (src : List Byte) (len : Nat) :
    strvisxLoop src flag len = codesOf flag (loopPairs src len) := by
  induction len using strvisxLoop.induct with
  | case1 => rfl
  | case2 => exact (List.append_nil _).symm
  | case3 len ih =>
    rw [strvisxLoop, ih]
    rfl

theorem loopPairs_fst (src : List Byte) (len : Nat) :
    (loopPairs src len).map Prod.fst = List.replicate len (src.headD 0) := by
  induction len using strvisxLoop.induct with
  | case1 => rfl
  | case2 => rfl
  | case3 len ih =>
    rw [loopPairs, List.map_cons, ih]
    rfl

theorem told_of_same {pairs : List (Byte × Byte)} (same : ∀ p ∈ pairs, p.1 = b) :
    pairs.IsChain Told := by
  induction pairs with
  | nil => exact .nil
  | cons p pairs ih =>
    refine (ih fun q member => same q (List.mem_cons_of_mem _ member)).cons fun q head nul digit =>
      ?_
    have first := same p List.mem_cons_self
    have second := same q (List.mem_cons_of_mem _ (List.mem_of_mem_head? head))
    rw [second, ← first, nul] at digit
    exact absurd digit (by decide)

theorem feed_strvisx (slash : flag &&& VIS_NOSLASH = 0) (src : List Byte) :
    feed (strvisx src flag).1 0 .sGround = some (List.replicate src.length (src.headD 0)) := by
  have same : ∀ p ∈ loopPairs src src.length, p.1 = src.headD 0 := by
    intro p member
    have inside := List.mem_map_of_mem (f := Prod.fst) member
    rw [loopPairs_fst] at inside
    exact (List.mem_replicate.mp inside).2
  change feed (strvisxLoop src flag src.length) 0 .sGround = _
  rw [strvisxLoop_codesOf, feed_codesOf slash (told_of_same same), loopPairs_fst]

theorem loopPairs_replicate {len : Nat} (first : 1 ≤ len → src.headD 0 = b)
    (second : 2 ≤ len → src.getD 1 0 = b) :
    loopPairs src len = blockPairs (List.replicate len b) := by
  induction len using strvisxLoop.induct with
  | case1 => rfl
  | case2 =>
    rw [loopPairs, first (le_refl _)]
    rfl
  | case3 len ih =>
    rw [loopPairs, first (by lia), second (by lia),
      ih (fun _ => first (by lia)) (fun _ => second (by lia))]
    rfl

/-- `strvisx` makes a block visible exactly where all its bytes are the same. -/
theorem strvisx_iff (slash : flag &&& VIS_NOSLASH = 0) (src : List Byte) :
    Visible flag src ↔ ∀ b ∈ src, b = src.headD 0 := by
  constructor
  · rintro ⟨-, -, back⟩ b member
    rw [feed_strvisx slash] at back
    rw [← Option.some.inj back] at member
    exact (List.mem_replicate.mp member).2
  · intro same
    have constant : List.replicate src.length (src.headD 0) = src :=
      (List.eq_replicate_iff.mpr ⟨rfl, same⟩).symm
    have out : (strvisx src flag).1 = codes flag src := by
      change strvisxLoop src flag src.length = _
      have second : 2 ≤ src.length → src.getD 1 0 = src.headD 0 := fun long => by
        have inside :
          src.getD 1 0 =
          src[1] := by rw [List.getD, List.getElem?_eq_getElem long, Option.getD_some]
        rw [inside]
        exact same _ (List.getElem_mem long)
      rw [strvisxLoop_codesOf, codes_codesOf, loopPairs_replicate (fun _ => rfl) second, constant]
    refine ⟨out, congrArg List.length out, ?_⟩
    rw [feed_strvisx slash, constant]

theorem strvisx_nuls : Visible (VIS_CSTYLE ||| VIS_NL) [0, 0, 0] :=
  (strvisx_iff (by decide) [0, 0, 0]).mpr (by decide)

/-- A block of two bytes. -/
theorem strvisx_stays : strvisx [chr 'a', chr 'b'] 0 = ([chr 'a', chr 'a'], 2) ∧
    ¬ Visible 0 [chr 'a', chr 'b'] := by
  refine ⟨by decide, fun visible => ?_⟩
  exact absurd visible.out (by decide)

end Block

end FreeBsd.Gen
