import Mathlib.Data.BitVec
import Mathlib.Logic.Function.Basic
import Mathlib.Tactic.Common

/-! `strvis` and `strunvis`: strings made visible, and made back. -/
namespace FreeBsd.Gen

section Model

abbrev Byte := BitVec 8

/-- An `int`, or a `char` that has been promoted to one. -/
abbrev CInt := BitVec 32

def VIS_OCTAL : CInt := 0x01
def VIS_CSTYLE : CInt := 0x02
def VIS_SP : CInt := 0x04
def VIS_TAB : CInt := 0x08
def VIS_NL : CInt := 0x10
def VIS_SAFE : CInt := 0x20
def VIS_NOSLASH : CInt := 0x40

def UCHAR_MAX : Nat := 255

def isgraph (c : CInt) : Prop := 0x21 ≤ c.toNat ∧ c.toNat ≤ 0x7e
def iscntrl (c : CInt) : Prop := c.toNat < 0x20 ∨ c.toNat = 0x7f
def isoctal (c : Byte) : Prop := 0x30 ≤ c.toNat ∧ c.toNat ≤ 0x37

instance (c : CInt) : Decidable (isgraph c) := inferInstanceAs (Decidable (_ ∧ _))
instance (c : CInt) : Decidable (iscntrl c) := inferInstanceAs (Decidable (_ ∨ _))
instance (c : Byte) : Decidable (isoctal c) := inferInstanceAs (Decidable (_ ∧ _))

def chr (c : Char) : Byte := BitVec.ofNat 8 c.toNat

def cstyle (c nextc : CInt) : Option (List Byte) :=
  if c = 0x0a then some [chr '\\', chr 'n']
  else if c = 0x0d then some [chr '\\', chr 'r']
  else if c = 0x08 then some [chr '\\', chr 'b']
  else if c = 0x07 then some [chr '\\', chr 'a']
  else if c = 0x0b then some [chr '\\', chr 'v']
  else if c = 0x09 then some [chr '\\', chr 't']
  else if c = 0x0c then some [chr '\\', chr 'f']
  else if c = 0x20 then some [chr '\\', chr 's']
  else if c = 0x00 then
    some ([chr '\\', chr '0'] ++ if isoctal (nextc.truncate 8) then [chr '0', chr '0'] else [])
  else none

def octal (u : Byte) : List Byte :=
  [chr '\\', (u >>> 6 &&& 7) + chr '0', (u >>> 3 &&& 7) + chr '0', (u &&& 7) + chr '0']

def metaForm (c : CInt) : List Byte :=
  let high := c &&& 0x80 ≠ 0
  let c := if high then c &&& 0x7f else c
  (if high then [chr 'M'] else []) ++
    if iscntrl c then [chr '^', if c = 0x7f then chr '?' else (c + 0x40).truncate 8]
    else [chr '-', c.truncate 8]

def vis (c flag nextc : CInt) : List Byte :=
  if (c.toNat ≤ UCHAR_MAX ∧ isgraph c) ∨ (flag &&& VIS_SP = 0 ∧ c = 0x20) ∨
      (flag &&& VIS_TAB = 0 ∧ c = 0x09) ∨ (flag &&& VIS_NL = 0 ∧ c = 0x0a) ∨
      (flag &&& VIS_SAFE ≠ 0 ∧ (c = 0x08 ∨ c = 0x07 ∨ c = 0x0d)) then
    c.truncate 8 :: if c = 0x5c ∧ flag &&& VIS_NOSLASH = 0 then [chr '\\'] else []
  else
    match if flag &&& VIS_CSTYLE ≠ 0 then cstyle c nextc else none with
    | some out => out
    | none =>
      if c &&& 0x7f = 0x20 ∨ flag &&& VIS_OCTAL ≠ 0 then octal (c.truncate 8)
      else (if flag &&& VIS_NOSLASH = 0 then [chr '\\'] else []) ++ metaForm c

def strvis : (src : List Byte) → (flag : CInt) → List Byte
  | [], _ => []
  | c :: src, flag => vis (c.signExtend 32) flag ((src.headD 0).signExtend 32) ++ strvis src flag

inductive VisState where
  | sGround
  | sStart
  | sMeta
  | sMeta1
  | sCtrl
  | sOctal2
  | sOctal3
  deriving DecidableEq, Repr

inductive Unvis where
  | more
  | valid
  | validpush
  | nochar
  | synbad
  deriving DecidableEq, Repr

/-- `unvis`, with `flag` 0: what it returns, `*cp` and `*astate`. -/
def unvis (cp c : Byte) : VisState → Unvis × Byte × VisState
  | .sGround => if c = chr '\\' then (.more, 0, .sStart) else (.valid, c, .sGround)
  | .sStart =>
    if c = chr '\\' then (.valid, c, .sGround)
    else if isoctal c then (.more, c - chr '0', .sOctal2)
    else if c = chr 'M' then (.more, 0x80, .sMeta)
    else if c = chr '^' then (.more, cp, .sCtrl)
    else if c = chr 'n' then (.valid, 0x0a, .sGround)
    else if c = chr 'r' then (.valid, 0x0d, .sGround)
    else if c = chr 'b' then (.valid, 0x08, .sGround)
    else if c = chr 'a' then (.valid, 0x07, .sGround)
    else if c = chr 'v' then (.valid, 0x0b, .sGround)
    else if c = chr 't' then (.valid, 0x09, .sGround)
    else if c = chr 'f' then (.valid, 0x0c, .sGround)
    else if c = chr 's' then (.valid, 0x20, .sGround)
    else if c = chr 'E' then (.valid, 0x1b, .sGround)
    -- hidden newline, hidden marker
    else if c = 0x0a ∨ c = chr '$' then (.nochar, cp, .sGround)
    else (.synbad, cp, .sGround)
  | .sMeta =>
    if c = chr '-' then (.more, cp, .sMeta1)
    else if c = chr '^' then (.more, cp, .sCtrl)
    else (.synbad, cp, .sGround)
  | .sMeta1 => (.valid, cp ||| c, .sGround)
  | .sCtrl => if c = chr '?' then (.valid, cp ||| 0x7f, .sGround) else (.valid, cp ||| (c &&& 0x1f),
    .sGround)
  | .sOctal2 =>
    if isoctal c then (.more, (cp <<< 3) + (c - chr '0'), .sOctal3)
    -- done with current sequence, push back passed char
    else (.validpush, cp, .sGround)
  | .sOctal3 => if isoctal c then (.valid, (cp <<< 3) + (c - chr '0'), .sGround) else (.validpush,
    cp, .sGround)

/-- `unvis` with `UNVIS_END`: does it return `UNVIS_VALID`? -/
def unvisEnd (astate : VisState) : Bool := astate = .sOctal2 ∨ astate = .sOctal3

/-- `dst - start`, the memory at `start`, and the state of the decoder. -/
structure Decoding where
  n : Nat
  mem : Nat → Byte
  state : VisState

/-- The `switch` of `strunvis` on one character; none where it returns -1. A pushed back
character meets the ground state, which pushes none back. -/
def strunvisChar (d : Decoding) (c : Byte) : Option Decoding :=
  let put (d : Decoding) : Unvis × Decoding :=
    let (code, cp, state) := unvis (d.mem d.n) c d.state
    (code, { d with mem := Function.update d.mem d.n cp, state })
  let (code, d) := put d
  match code with
  | .valid => some { d with n := d.n + 1 }
  | .more => some d
  | .nochar => some d
  | .synbad => none
  | .validpush =>
    let (code, d) := put { d with n := d.n + 1 }
    match code with
    | .valid => some { d with n := d.n + 1 }
    | .synbad => none
    | _ => some d

def strunvisScan : (src : List Byte) → Decoding → Option Decoding
  | [], d => some d
  | c :: src, d =>
    if c = 0 then some d
    else
      match strunvisChar d c with
      | some d => strunvisScan src d
      | none => none

/-- `strunvis`: what it returns, -1 as none, and the memory at `dst`. -/
def strunvis (dst : Nat → Byte) (src : List Byte) : Option (Nat × (Nat → Byte)) :=
  match strunvisScan src ⟨0, dst, .sGround⟩ with
  | none => none
  | some d =>
    let n := if unvisEnd d.state then d.n + 1 else d.n
    some (n, Function.update d.mem n 0)

end Model

section Code

/-- The character that a code stands for: the decoder takes it in, asks for more up to its
last character, and is back where it began. -/
def decodes (cp : Byte) (state : VisState) : List Byte → Option Byte
  | [] => none
  | c :: rest =>
    if c = 0 then none
    else
      match unvis cp c state with
      | (.valid, b, .sGround) => if rest = [] then some b else none
      | (.more, cp, state) => decodes cp state rest
      | _ => none

theorem byte_codes : ∀ b : Byte, decodes 0 .sStart (octal b).tail = some b ∧
    (b ≠ 0 → ¬ (0x21 ≤ b.toNat ∧ b.toNat ≤ 0x7e) → b &&& 0x7f ≠ 0x20 →
      decodes 0 .sStart (metaForm (b.signExtend 32)) = some b) ∧
    (((b.signExtend 32).toNat ≤ UCHAR_MAX ∧ isgraph (b.signExtend 32)) ↔
      (0x21 ≤ b.toNat ∧ b.toNat ≤ 0x7e)) ∧
    (b.signExtend 32 &&& 0x7f = 0x20 ↔ b &&& 0x7f = 0x20) ∧ (b.signExtend 32).truncate 8 = b ∧
    (b ≠ 0 → b.signExtend 32 ≠ 0) ∧ (b ≠ chr '\\' → b.signExtend 32 ≠ 0x5c) ∧
    (b ≠ 0 → ∀ out ∈ cstyle (b.signExtend 32) 0, decodes 0 .sGround out = some b) := by
  decide +kernel

theorem octal_decodes (b : Byte) : decodes 0 .sStart (octal b).tail = some b := (byte_codes b).1

theorem metaForm_decodes (b : Byte) : b ≠ 0 → ¬ (0x21 ≤ b.toNat ∧ b.toNat ≤ 0x7e) →
    b &&& 0x7f ≠ 0x20 →
    decodes 0 .sStart (metaForm (b.signExtend 32)) = some b := (byte_codes b).2.1

theorem signExtend_graph (b : Byte) :
    ((b.signExtend 32).toNat ≤ UCHAR_MAX ∧ isgraph (b.signExtend 32)) ↔
      (0x21 ≤ b.toNat ∧ b.toNat ≤ 0x7e) :=
  (byte_codes b).2.2.1

theorem signExtend_and (b : Byte) : b.signExtend 32 &&& 0x7f = 0x20 ↔ b &&& 0x7f = 0x20 :=
  (byte_codes b).2.2.2.1

theorem truncate_signExtend (b : Byte) : (b.signExtend 32).truncate 8 = b :=
  (byte_codes b).2.2.2.2.1

theorem decodes_ground (cp cp' : Byte) (out : List Byte) :
    decodes cp .sGround out = decodes cp' .sGround out := by
  cases out <;> rfl

theorem plain_decodes {cp b : Byte} (nonzero : b ≠ 0) (plain : b ≠ chr '\\') :
    decodes cp .sGround [b] = some b := by
  simp only [decodes, unvis, if_neg nonzero, if_neg plain, if_true]

theorem cstyle_next {c : CInt} (nonzero : c ≠ 0) (nextc : CInt) : cstyle c nextc = cstyle c 0 := by
  simp only [cstyle, show ¬ c = 0x00 from nonzero, if_false]

theorem cstyle_decodes (b : Byte) : b ≠ 0 → ∀ out ∈ cstyle (b.signExtend 32) 0,
    decodes 0 .sGround out = some b := (byte_codes b).2.2.2.2.2.2.2

theorem vis_decodes {b : Byte} (nonzero : b ≠ 0) {flag : CInt} (slash : flag &&& VIS_NOSLASH = 0)
    (nextc : CInt) (cp : Byte) : decodes cp .sGround (vis (b.signExtend 32) flag nextc) =
      some b := by
  have wide : b.signExtend 32 ≠ 0 := (byte_codes b).2.2.2.2.2.1 nonzero
  unfold vis
  split
  · -- as it is
    rw [truncate_signExtend]
    by_cases backslash : b = chr '\\'
    · subst backslash
      rw [if_pos ⟨by decide, slash⟩]
      rfl
    · have other : b.signExtend 32 ≠ 0x5c := (byte_codes b).2.2.2.2.2.2.1 backslash
      rw [if_neg fun both => other both.1]
      exact plain_decodes nonzero backslash
  · rename_i special
    have graph : ¬ (0x21 ≤ b.toNat ∧ b.toNat ≤ 0x7e) := fun graph =>
      special (.inl ((signExtend_graph b).mpr graph))
    split
    · rename_i out styled
      rw [decodes_ground cp 0]
      apply cstyle_decodes b nonzero
      rw [← cstyle_next wide nextc]
      split at styled
      · exact styled
      · cases styled
    · split
      · rw [truncate_signExtend]
        exact octal_decodes b
      · rename_i notOctal
        apply metaForm_decodes b nonzero graph
        exact fun blank => notOctal (.inl ((signExtend_and b).mpr blank))

end Code

section RoundTrip

/-- What has been written so far is `done`, and the decoder is between two characters. -/
structure Decoded (d : Decoding) (done : List Byte) : Prop where
  ground : d.state = .sGround
  count : d.n = done.length
  written : ∀ i (below : i < done.length), d.mem i = done[i]

theorem strunvisScan_code {d : Decoding} {out rest : List Byte} {b : Byte}
    (codes : decodes (d.mem d.n) d.state out = some b) :
    ∃ mem, mem d.n = b ∧ (∀ i < d.n, mem i = d.mem i) ∧
      strunvisScan (out ++ rest) d = strunvisScan rest ⟨d.n + 1, mem, .sGround⟩ := by
  induction out generalizing d with
  | nil => cases codes
  | cons c out ih =>
    rw [decodes] at codes
    split at codes
    · cases codes
    rename_i nonzero
    split at codes
    · rename_i b' step
      split at codes
      · rename_i last
        cases codes
        subst last
        refine ⟨Function.update d.mem d.n b, Function.update_self .., fun i below => ?_, ?_⟩
        · exact Function.update_of_ne (Nat.ne_of_lt below) _ _
        · rw [List.singleton_append, strunvisScan, if_neg nonzero, strunvisChar]
          simp only [step]
      · cases codes
    · rename_i cp state step
      obtain ⟨mem, here, before, scan⟩ := ih (d := ⟨d.n, Function.update d.mem d.n cp, state⟩)
        (by simpa only [Function.update_self] using codes)
      refine ⟨mem, here, fun i below => ?_, ?_⟩
      · rw [before i below]
        exact Function.update_of_ne (Nat.ne_of_lt below) _ _
      · rw [List.cons_append, strunvisScan, if_neg nonzero, strunvisChar]
        simp only [step]
        exact scan
    · cases codes

theorem strunvisScan_strvis {flag : CInt} (slash : flag &&& VIS_NOSLASH = 0) {s done : List Byte}
    {d : Decoding} (nonzero : ∀ b ∈ s, b ≠ 0) (decoded : Decoded d done) :
    ∃ d', strunvisScan (strvis s flag) d = some d' ∧ Decoded d' (done ++ s) := by
  induction s generalizing d done with
  | nil => exact ⟨d, rfl, by rwa [List.append_nil]⟩
  | cons b s ih =>
    have codes := vis_decodes (nonzero b List.mem_cons_self) slash ((s.headD 0).signExtend 32)
      (d.mem d.n)
    rw [← decoded.ground] at codes
    obtain ⟨mem, here, before, scan⟩ := @strunvisScan_code _ _ (strvis s flag) _ codes
    have next : Decoded ⟨d.n + 1, mem, .sGround⟩ (done ++ [b]) := by
      refine ⟨rfl, by simp [decoded.count], fun i below => ?_⟩
      rw [List.length_append, List.length_singleton] at below
      by_cases last : i < done.length
      · rw [List.getElem_append_left last]
        exact (before i (decoded.count ▸ last)).trans (decoded.written i last)
      · have same : i = d.n := by
          have := decoded.count
          lia
        subst same
        rw [List.getElem_append_right (by lia)]
        simpa using here
    obtain ⟨d', rest, final⟩ := ih (fun c member => nonzero c (List.mem_cons_of_mem _ member)) next
    refine ⟨d', by rw [strvis, scan, rest], ?_⟩
    rwa [List.append_assoc] at final

/-- What `strvis` makes visible `strunvis` makes back: the string, its length, and a NUL after it.
-/
theorem strunvis_strvis (s : List Byte) (flag : CInt) (dst : Nat → Byte) (nonzero : ∀ b ∈ s, b ≠ 0)
    (slash : flag &&& VIS_NOSLASH = 0) :
    ∃ mem, strunvis dst (strvis s flag) = some (s.length, mem) ∧ (List.range s.length).map mem = s ∧
      mem s.length = 0 := by
  have start : Decoded ⟨0, dst, .sGround⟩ [] :=
    ⟨rfl, rfl, fun i below => absurd below (Nat.not_lt_zero i)⟩
  obtain ⟨d, scan, decoded⟩ := strunvisScan_strvis slash nonzero start
  rw [List.nil_append] at decoded
  refine ⟨Function.update d.mem s.length 0, ?_, ?_, Function.update_self ..⟩
  · rw [strunvis, scan]
    simp only [unvisEnd, decoded.ground, decoded.count]
    rfl
  · apply List.ext_getElem
    · simp
    · intro i _ below
      rw [List.getElem_map, List.getElem_range, Function.update_of_ne (Nat.ne_of_lt below)]
      exact decoded.written i below

theorem strunvis_strvis_blank : ∃ mem,
    strunvis (fun _ => 77) (strvis [chr ' ', 0xe9, 0x07] (VIS_SP ||| VIS_CSTYLE)) = some (3, mem) ∧
      (List.range 3).map mem = [chr ' ', 0xe9, 0x07] ∧ mem 3 = 0 :=
  strunvis_strvis [chr ' ', 0xe9, 0x07] (VIS_SP ||| VIS_CSTYLE) (fun _ => 77) (by decide)
    (by decide)

end RoundTrip

end FreeBsd.Gen
