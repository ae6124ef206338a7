import FreeBsd.Net.PppInput
import Mathlib.Tactic.IntervalCases

/-! What `pppstart` writes, `pppinput` reads: the packets that were sent, as far as `sc_ilen` can
count them. -/
namespace FreeBsd.Net

open FreeBsd.Lib FreeBsd.Kern
open FreeBsd.Kern.UipcMbuf (MLEN MHLEN MCLBYTES)

section Chain

variable {mru : BitVec 16} {scM : List PppMbuf} {len : Int}

structure Roomy (mru : BitVec 16) (scM : List PppMbuf) : Prop where
  some : scM ≠ []
  sizes : ∀ m ∈ scM, m.size = MCLBYTES
  room : mru.toInt + (HDROFF + PPP_HEADER_LEN + PPP_FCS_LEN : Nat) ≤ (MCLBYTES * scM.length : Nat)

theorem pppHave_none (sizes : ∀ m ∈ scM, m.size = MCLBYTES) (have_ : pppHave scM len = none) :
    scM ≠ [] ∧ len ≤ (MCLBYTES * scM.length : Nat) := by
  induction scM generalizing len with
  | nil => cases have_
  | cons m rest ih =>
    obtain ⟨size, others⟩ := List.forall_mem_cons.mp sizes
    rw [pppHave, size] at have_
    refine ⟨List.cons_ne_nil _ _, ?_⟩
    rw [List.length_cons, Nat.mul_succ]
    split at have_
    · lia
    · obtain ⟨-, below⟩ := ih others have_
      lia

theorem pppHave_some {left : Int} (sizes : ∀ m ∈ scM, m.size = MCLBYTES)
    (have_ : pppHave scM len = Option.some left) :
    left = len - (MCLBYTES * scM.length : Nat) := by
  induction scM generalizing len with
  | nil =>
    cases have_
    simp
  | cons m rest ih =>
    obtain ⟨size, others⟩ := List.forall_mem_cons.mp sizes
    rw [pppHave, size] at have_
    rw [List.length_cons, Nat.mul_succ]
    split at have_
    · cases have_
    · rw [ih others have_]
      omega

theorem pppGrow_spec {size : Nat} (positive : 0 < size) (fuel : Nat) (enough : len ≤ fuel) :
    pppGrow size fuel len ≠ [] ∧ (∀ m ∈ pppGrow size fuel len, m.size = size) ∧
      len ≤ (size * (pppGrow size fuel len).length : Nat) := by
  induction fuel generalizing len with
  | zero =>
    refine ⟨List.cons_ne_nil _ _, by simp [pppGrow], ?_⟩
    simp only [pppGrow, List.length_singleton]
    lia
  | succ fuel ih =>
    rw [pppGrow]
    split
    · refine ⟨List.cons_ne_nil _ _, by simp, ?_⟩
      simp only [List.length_singleton]
      lia
    · obtain ⟨-, sizes, reach⟩ := @ih (len - size) (by lia)
      refine ⟨List.cons_ne_nil _ _, ?_, ?_⟩
      · rintro m (_ | ⟨_, member⟩)
        · rfl
        · exact sizes m member
      · rw [List.length_cons, Nat.mul_succ]
        lia

theorem pppinit_roomy (sizes : ∀ m ∈ scM, m.size = MCLBYTES) :
    ∃ chain, pppinit true true scM mru = Option.some chain ∧ Roomy mru chain := by
  unfold pppinit
  split
  · rename_i enough
    obtain ⟨some, room⟩ := pppHave_none sizes enough
    exact ⟨scM, rfl, some, sizes, room⟩
  · rename_i left more
    have short := pppHave_some sizes more
    obtain ⟨some, grown, reach⟩ := @pppGrow_spec left MCLBYTES (by decide) left.toNat (by lia)
    refine ⟨_, rfl, List.append_ne_nil_of_right_ne_nil _ some, ?_, ?_⟩
    · intro m member
      rcases List.mem_append.mp member with old | new
      · exact sizes m old
      · exact grown m new
    · rw [List.length_append, Nat.mul_add]
      have same : (if True then MCLBYTES else MHLEN) = MCLBYTES := if_pos trivial
      simp only [if_true]
      lia

end Chain

section Place

variable {scM : List PppMbuf} {scMc : Nat} {pre : List Char8} {before after : List PppMbuf}
    {cur : PppMbuf}

theorem modify_middle {α : Type} (before : List α) (cur : α) (after : List α) (f : α → α) :
    (before ++ cur :: after).modify before.length f = before ++ f cur :: after := by
  induction before with
  | nil => rfl
  | cons x before ih => exact congrArg (List.cons x) ih

/-- `pre` is what the mbufs up to the current one hold; those before it are full. -/
structure Filled (pre : List Char8) (before : List PppMbuf) (cur : PppMbuf) : Prop where
  bytes : before.flatMap PppMbuf.data ++ cur.data = pre
  some : ∀ m ∈ before, m.data ≠ []
  last : before ≠ [] → cur.data ≠ []
  place : cur.off + cur.data.length + MCLBYTES * before.length = HDROFF + pre.length
  fits : cur.off + cur.data.length ≤ MCLBYTES
  wide : ∀ first ∈ before.head?, PPP_HEADER_LEN ≤ first.data.length

theorem Filled.start (m : PppMbuf) : Filled [] [] { m with off := HDROFF, data := [] } where
  bytes := rfl
  some := by simp
  last := fun absurd => (absurd rfl).elim
  place := by simp
  fits := (by decide : HDROFF ≤ MCLBYTES)
  wide := by simp

theorem Filled.add (filled : Filled pre before cur) (c : Char8)
    (room : cur.off + cur.data.length < MCLBYTES) :
    Filled (pre ++ [c]) before { cur with data := cur.data ++ [c] } where
  bytes := by rw [← List.append_assoc, filled.bytes]
  some := filled.some
  last := fun _ => List.append_ne_nil_of_right_ne_nil _ (List.cons_ne_nil _ _)
  place := by
    have place := filled.place
    simp only [List.length_append, List.length_singleton]
    lia
  fits := by
    simp only [List.length_append, List.length_singleton]
    lia
  wide := filled.wide

theorem Filled.advance (filled : Filled pre before cur)
    (full : MCLBYTES ≤ cur.off + cur.data.length) (next : PppMbuf) (c : Char8) :
      Filled (pre ++ [c]) (before ++ [cur]) { next with off := 0, data := [c] } where
  bytes := by
    rw [List.flatMap_append, List.flatMap_singleton, filled.bytes]
  some := by
    intro m member
    rcases List.mem_append.mp member with old | new
    · exact filled.some m old
    · rw [List.mem_singleton.mp new]
      intro empty
      have place := filled.place
      have bytes := filled.bytes
      have fits := filled.fits
      cases before with
      | nil =>
        rw [empty] at bytes place full
        rw [← bytes] at place
        simp only [List.length_nil, List.flatMap_nil, List.append_nil, Nat.mul_zero,
          Nat.add_zero] at place full
        rw [place] at full
        exact absurd full (by decide)
      | cons first rest => exact filled.last (List.cons_ne_nil _ _) empty
  last := fun _ => List.cons_ne_nil _ _
  place := by
    have place := filled.place
    have fits := filled.fits
    simp only [List.length_append, List.length_singleton, Nat.mul_add]
    lia
  fits := (by decide : 0 + 1 ≤ MCLBYTES)
  wide := by
    intro first member
    have place := filled.place
    have bytes := filled.bytes
    have fits := filled.fits
    cases before with
    | nil =>
      cases member
      rw [← bytes] at place
      simp only [List.length_nil, List.flatMap_nil, List.nil_append, Nat.mul_zero,
        Nat.add_zero] at place
      unfold HDROFF MLEN MCLBYTES PPP_HEADER_LEN at *
      lia
    | cons first rest => exact filled.wide _ member

end Place

section Octets

variable {Comp : Type} {sc₀ sc : PppSoftc Comp} {pre done : List Char8}

structure Waiting (sc₀ sc : PppSoftc Comp) : Prop where
  frame : sc = { sc₀ with scM := sc.scM, scMc := sc.scMc, scIlen := sc.scIlen, scFcs := sc.scFcs }
  ilen : sc.scIlen = 0
  roomy : Roomy sc.scMru sc.scM

structure Active (sc₀ sc : PppSoftc Comp) (pre done : List Char8) : Prop where
  frame : sc = { sc₀ with scM := sc.scM, scMc := sc.scMc, scIlen := sc.scIlen, scFcs := sc.scFcs }
  ilen : sc.scIlen = BitVec.ofNat 16 pre.length
  roomy : Roomy sc.scMru sc.scM
  fcs : sc.scFcs = pppfcs PPP_INITFCS done
  chain : ∃ before cur after, sc.scM = before ++ cur :: after ∧ sc.scMc = before.length ∧
    Filled pre before cur

theorem Roomy.replace {mru : BitVec 16} {before after : List PppMbuf} {cur new : PppMbuf}
    (roomy : Roomy mru (before ++ cur :: after)) (same : new.size = cur.size) :
    Roomy mru (before ++ new :: after) where
  some := List.append_ne_nil_of_right_ne_nil _ (List.cons_ne_nil _ _)
  sizes := by
    intro m member
    rcases List.mem_append.mp member with left | right
    · exact roomy.sizes m (List.mem_append_left _ left)
    · rcases List.mem_cons.mp right with rfl | right
      · rw [same]
        exact roomy.sizes cur (List.mem_append_right _ List.mem_cons_self)
      · exact roomy.sizes m (List.mem_append_right _ (List.mem_cons_of_mem _ right))
  room := by
    have room := roomy.room
    simp only [List.length_append, List.length_cons] at room ⊢
    exact room

theorem Waiting.start {m : PppMbuf} {rest : List PppMbuf} (waiting : Waiting sc₀ sc)
    (chain : sc.scM = m :: rest) :
    Active sc₀ { sc with scM := { m with off := HDROFF, data := [] } :: rest, scMc := 0,
                         scFcs := PPP_INITFCS } [] [] where
  frame := by
    rw [waiting.frame]
  ilen := waiting.ilen
  roomy := by
    have roomy := waiting.roomy
    rw [chain] at roomy
    exact @Roomy.replace _ [] rest m _ roomy rfl
  fcs := rfl
  chain := ⟨[], _, rest, rfl, rfl, Filled.start m⟩

theorem Active.insert (active : Active sc₀ sc pre done) (short : pre.length < PPP_HEADER_LEN)
    (c : Char8) :
    Active sc₀ { pppMp c sc with scIlen := sc.scIlen + 1 } (pre ++ [c]) done where
  frame := by
    rw [active.frame]
    rfl
  ilen := by
    change sc.scIlen + 1 = _
    rw [active.ilen, List.length_append, List.length_singleton, BitVec.ofNat_add]
    rfl
  roomy := by
    obtain ⟨before, cur, after, chain, here, -⟩ := active.chain
    have roomy := active.roomy
    change Roomy sc.scMru (sc.scM.modify sc.scMc _)
    rw [chain] at roomy
    rw [chain, here, modify_middle]
    exact roomy.replace rfl
  fcs := active.fcs
  chain := by
    obtain ⟨before, cur, after, chain, here, filled⟩ := active.chain
    refine ⟨before, { cur with data := cur.data ++ [c] }, after, ?_, here, filled.add c ?_⟩
    · change sc.scM.modify sc.scMc _ = _
      rw [chain, here, modify_middle]
    · have place := filled.place
      unfold PPP_HEADER_LEN HDROFF MLEN MCLBYTES at *
      omega

theorem toInt_ofNat_le (n : Nat) : (BitVec.ofNat 16 n).toInt ≤ n := by
  have below : (BitVec.ofNat 16 n).toNat ≤ n := by
    rw [BitVec.toNat_ofNat]
    exact Nat.mod_le _ _
  rw [BitVec.toInt_eq_toNat_cond]
  split <;> omega

theorem Active.store (active : Active sc₀ sc pre done) (c : Char8)
    (fits : pre.length + 1 ≤ sc.scMru.toInt + (PPP_HEADER_LEN + PPP_FCS_LEN : Nat)) :
    Active sc₀ (pppStore c sc) (pre ++ [c]) (done ++ [c]) := by
  obtain ⟨before, cur, after, chain, here, filled⟩ := active.chain
  have roomy := active.roomy
  have ilen : sc.scIlen + 1 = BitVec.ofNat 16 (pre ++ [c]).length := by
    rw [active.ilen, List.length_append, List.length_singleton, BitVec.ofNat_add]
    rfl
  have fcs : PPP_FCS sc.scFcs c = pppfcs PPP_INITFCS (done ++ [c]) := by
    rw [active.fcs, pppfcs, pppfcs, List.foldl_append]
    rfl
  have size : cur.size = MCLBYTES := roomy.sizes cur (by rw [chain]; simp)
  have lookup : sc.scM[sc.scMc]? = some cur := by
    rw [chain, here, List.getElem?_append_right (Nat.le_refl _), Nat.sub_self]
    rfl
  have counted :
    ¬ (sc.scIlen + 1).toInt > sc.scMru.toInt + (PPP_HEADER_LEN + PPP_FCS_LEN : Nat) := by
    have most := toInt_ofNat_le (pre ++ [c]).length
    rw [ilen]
    rw [List.length_append, List.length_singleton] at most ⊢
    lia
  unfold pppStore
  dsimp only
  rw [if_neg counted, lookup, Option.map_some, Option.getD_some, size]
  have place := filled.place
  split
  · rename_i full
    have full := of_decide_eq_true full
    obtain ⟨next, rest, rfl⟩ : ∃ next rest, after = next :: rest := by
      cases after with
      | cons next rest => exact ⟨next, rest, rfl⟩
      | nil =>
        have room := roomy.room
        have most := filled.fits
        rw [chain, List.length_append, List.length_singleton, Nat.mul_add] at room
        unfold PPP_HEADER_LEN PPP_FCS_LEN at *
        lia
    have shape : sc.scM = (before ++ [cur]) ++ next :: rest := by rw [chain]; simp
    have there : sc.scMc + 1 = (before ++ [cur]).length := by rw [here]; simp
    rw [if_neg (by rw [shape, there]; simp)]
    have stored : (sc.scM.modify (sc.scMc + 1) fun m => { m with off := 0, data := [] }).modify
      (sc.scMc + 1)
        (fun m => { m with data := m.data ++ [c] }) =
        (before ++ [cur]) ++ { next with off := 0, data := [c] } :: rest := by
      rw [shape, there, modify_middle, modify_middle]
      rfl
    refine ⟨?_, ilen, ?_, fcs, before ++ [cur], _, rest, stored, there, filled.advance full next c⟩
    · rw [active.frame]
      rfl
    · change Roomy sc.scMru (List.modify (List.modify _ _ _) _ _)
      rw [stored]
      rw [shape] at roomy
      exact roomy.replace rfl
  · rename_i room
    have room : cur.off + cur.data.length < MCLBYTES := by simpa using room
    have stored : sc.scM.modify sc.scMc (fun m => { m with data := m.data ++ [c] }) =
        before ++ { cur with data := cur.data ++ [c] } :: after := by
      rw [chain, here, modify_middle]
    refine ⟨?_, ilen, ?_, fcs, before, _, after, stored, here, filled.add c room⟩
    · rw [active.frame]
      rfl
    · change Roomy sc.scMru (List.modify _ _ _)
      rw [stored]
      rw [chain] at roomy
      exact roomy.replace rfl

def pppProto (pre : List Char8) (c : Char8) : List Char8 :=
  if pre.length = 2 ∧ c &&& 1 = 1 then pre ++ [0] else pre

def pppAddress (pre : List Char8) (c : Char8) : List Char8 :=
  if pre = [] ∧ c ≠ PPP_ALLSTATIONS then [PPP_ALLSTATIONS, PPP_UI] else pre

def pppStored (pre : List Char8) (c : Char8) : List Char8 := pppProto (pppAddress pre c) c ++ [c]

/-- The octet `c` is what a header has at its place, and the packet is not too big. -/
structure Accepts (limit : Int) (pre : List Char8) (c : Char8) : Prop where
  control : (pppAddress pre c).length = 1 → c = PPP_UI
  protocol : (pppProto (pppAddress pre c) c).length = 3 → c &&& 1 ≠ 0
  fits : (pppStored pre c).length ≤ limit

theorem ofNat_eq_iff {n k : Nat} (small : n < 2 ^ 16) (small' : k < 2 ^ 16) :
    BitVec.ofNat 16 n = BitVec.ofNat 16 k ↔ n = k := by
  rw [← BitVec.toNat_inj, BitVec.toNat_ofNat, BitVec.toNat_ofNat, Nat.mod_eq_of_lt small,
    Nat.mod_eq_of_lt small']

theorem Active.header (active : Active sc₀ sc pre done) (c : Char8)
    (control : pre.length = 1 → c = PPP_UI) (protocol : (pppProto pre c).length = 3 → c &&& 1 ≠ 0)
    (fits : (pppProto pre c ++ [c]).length ≤
      sc.scMru.toInt + (PPP_HEADER_LEN + PPP_FCS_LEN : Nat)) :
    Active sc₀ (pppHeaderOctet c sc) (pppProto pre c ++ [c]) (done ++ [c]) := by
  have shorter : pre.length ≤ (pppProto pre c).length := by
    unfold pppProto
    split
    · rw [List.length_append]
      lia
    · exact Nat.le_refl _
  rw [List.length_append, List.length_singleton] at fits
  have most : sc.scMru.toInt < 2 ^ 15 := by
    have := @BitVec.toInt_lt 16 sc.scMru
    lia
  have small : (pppProto pre c).length < 2 ^ 16 := by
    unfold PPP_HEADER_LEN PPP_FCS_LEN at fits
    lia
  have ilen (k : Nat) (below : k < 2 ^ 16) : sc.scIlen = BitVec.ofNat 16 k ↔ pre.length = k := by
    rw [active.ilen]
    exact ofNat_eq_iff (by lia) below
  unfold pppHeaderOctet
  rw [if_neg (fun wrong => wrong.2 (control ((ilen 1 (by decide)).mp wrong.1)))]
  have put :
    Active sc₀
      (if sc.scIlen = 2 ∧ c &&& 1 = 1 then { pppMp 0 sc with scIlen := sc.scIlen + 1 } else sc)
      (pppProto pre c) done := by
    unfold pppProto
    by_cases left : pre.length = 2 ∧ c &&& 1 = 1
    · rw [if_pos left, if_pos ⟨(ilen 2 (by decide)).mpr left.1, left.2⟩]
      exact active.insert (by rw [left.1]; decide) 0
    · rw [if_neg left, if_neg (fun both => left ⟨(ilen 2 (by decide)).mp both.1, both.2⟩)]
      exact active
  have mru :
    (if sc.scIlen = 2 ∧ c &&& 1 = 1 then { pppMp 0 sc with scIlen := sc.scIlen + 1 }
     else sc).scMru =
      sc.scMru := by split <;> rfl
  have three :
    (if sc.scIlen = 2 ∧ c &&& 1 = 1 then { pppMp 0 sc with scIlen := sc.scIlen + 1 }
     else sc).scIlen = 3 ↔
      (pppProto pre c).length = 3 := by
    rw [put.ilen]
    exact ofNat_eq_iff small (by decide)
  generalize
    (if sc.scIlen = 2 ∧ c &&& 1 = 1 then { pppMp 0 sc with scIlen := sc.scIlen + 1 }
     else sc) = sc' at *
  dsimp only
  rw [if_neg (fun wrong => protocol (three.mp wrong.1) wrong.2)]
  exact put.store c (by rw [mru]; lia)

def Held (sc₀ sc : PppSoftc Comp) (pre done : List Char8) : Prop :=
  if pre = [] then done = [] ∧ Waiting sc₀ sc else Active sc₀ sc pre done

theorem Held.octet (held : Held sc₀ sc pre done) {c : Char8}
    (reject : pre = [] → c ≠ PPP_ALLSTATIONS → sc₀.rejCompAc = false)
    (accepts : Accepts (sc₀.scMru.toInt + (PPP_HEADER_LEN + PPP_FCS_LEN : Nat)) pre c) :
    ∃ sc', pppOctet c sc = some sc' ∧ Held sc₀ sc' (pppStored pre c) (done ++ [c]) := by
  have stored : pppStored pre c ≠ [] := List.append_ne_nil_of_right_ne_nil _ (List.cons_ne_nil _ _)
  obtain ⟨control, protocol, fits⟩ := accepts
  simp only [Held, if_neg stored] at held ⊢
  unfold pppStored at *
  split at held
  · rename_i empty
    subst empty
    obtain ⟨rfl, waiting⟩ := held
    have mru : sc.scMru = sc₀.scMru := by rw [waiting.frame]
    have rejects : sc.rejCompAc = sc₀.rejCompAc := by rw [waiting.frame]
    obtain ⟨m, rest, chain⟩ := List.exists_cons_of_ne_nil waiting.roomy.some
    have start := waiting.start chain
    unfold pppOctet
    rw [if_pos waiting.ilen, chain]
    by_cases all : c = PPP_ALLSTATIONS
    · have same : pppAddress [] c = [] := if_neg fun both => both.2 all
      rw [same] at control protocol fits ⊢
      simp only [all, ne_eq, not_true, if_false]
      rw [← all]
      exact ⟨_, rfl, start.header c control protocol (by rw [← mru] at fits; exact fits)⟩
    · have both : pppAddress [] c = [PPP_ALLSTATIONS, PPP_UI] := if_pos ⟨rfl, all⟩
      rw [both] at control protocol fits ⊢
      dsimp only
      rw [if_pos all, if_neg (by rw [rejects, reject rfl all]; exact Bool.false_ne_true)]
      refine ⟨_, rfl, ?_⟩
      have first := (start.insert (by decide) PPP_ALLSTATIONS).insert (by decide) PPP_UI
      have two : (2 : BitVec 16) = sc.scIlen + 1 + 1 := by rw [waiting.ilen]; rfl
      rw [two]
      exact first.header c control protocol (by rw [← mru] at fits; exact fits)
  · rename_i begun
    have same : pppAddress pre c = pre := if_neg fun both => begun both.1
    rw [same] at control protocol fits ⊢
    have mru : sc.scMru = sc₀.scMru := by rw [held.frame]
    have most := @BitVec.toInt_lt 16 sc₀.scMru
    have shorter : pre.length ≤ (pppProto pre c).length := by
      unfold pppProto
      split
      · rw [List.length_append]
        lia
      · exact Nat.le_refl _
    have positive : sc.scIlen ≠ 0 := by
      rw [held.ilen]
      intro zero
      rw [List.length_append, List.length_singleton] at fits
      unfold PPP_HEADER_LEN PPP_FCS_LEN at fits
      have := (@ofNat_eq_iff pre.length 0 (by lia) (by decide)).mp zero
      exact begun (List.length_eq_zero_iff.mp this)
    unfold pppOctet
    rw [if_neg positive]
    exact ⟨_, rfl, held.header c control protocol (by rw [← mru] at fits; exact fits)⟩

end Octets

section Packets

variable {mode : PppMode} {pre l : List Char8} {reject : Bool} {limit : Int}

/-- Each octet of `rest`, after what is stored as `pre`, is accepted. -/
def Legal (reject : Bool) (limit : Int) : List Char8 → List Char8 → Prop
  | _, [] => True
  | pre, c :: rest => (pre = [] → c ≠ PPP_ALLSTATIONS → reject = false) ∧ Accepts limit pre c ∧
      Legal reject limit (pppStored pre c) rest

theorem legal_payload (l : List Char8) (long : PPP_HEADER_LEN ≤ pre.length)
    (fits : (pre.length + l.length : Nat) ≤ limit) :
    Legal reject limit pre l ∧ l.foldl pppStored pre = pre ++ l := by
  induction l generalizing pre with
  | nil => exact ⟨trivial, (List.append_nil pre).symm⟩
  | cons c l ih =>
    rw [List.length_cons] at fits
    unfold PPP_HEADER_LEN at long
    have begun : pre ≠ [] := by
      rintro rfl
      simp at long
    have address : pppAddress pre c = pre := if_neg fun both => begun both.1
    have proto : pppProto pre c = pre := if_neg fun both => by lia
    have stored : pppStored pre c = pre ++ [c] := by rw [pppStored, address, proto]
    have length : (pre ++ [c]).length = pre.length + 1 := by simp
    obtain ⟨rest, all⟩ := @ih (pre ++ [c]) (by rw [length]; unfold PPP_HEADER_LEN; lia)
      (by rw [length]; lia)
    refine ⟨⟨fun empty => absurd empty begun, ⟨?_, ?_, ?_⟩, stored ▸ rest⟩, ?_⟩
    · rw [address]
      lia
    · rw [address, proto]
      lia
    · rw [stored, length]
      lia
    · rw [List.foldl_cons, stored, all]
      simp

/-- A packet that is sent: the header is in its first mbuf, with an even and an odd byte for the
protocol, which is none of the compressed ones, and the payload has `mru` bytes at most. -/
def PppValid (mru : Nat) : PppPacket → Prop
  | (address :: control :: hi :: lo :: data) :: rest =>
    address = PPP_ALLSTATIONS ∧ control = PPP_UI ∧ hi &&& 1 = 0 ∧ lo &&& 1 = 1 ∧
      (hi ++ lo : BitVec 16) ≠ PPP_VJC_COMP ∧ (hi ++ lo : BitVec 16) ≠ PPP_VJC_UNCOMP ∧
      (data ++ rest.flatten).length ≤ mru
  | _ => False

instance (mru : Nat) (m : PppPacket) : Decidable (PppValid mru m) := by
  unfold PppValid
  split <;> infer_instance

theorem pppValid_cases {mru : Nat} {m : PppPacket} (valid : PppValid mru m) : ∃ hi lo data rest,
    m = (PPP_ALLSTATIONS :: PPP_UI :: hi :: lo :: data) :: rest ∧ hi &&& 1 = 0 ∧ lo &&& 1 = 1 ∧
      (hi ++ lo : BitVec 16) ≠ PPP_VJC_COMP ∧ (hi ++ lo : BitVec 16) ≠ PPP_VJC_UNCOMP ∧
      (data ++ rest.flatten).length ≤ mru := by
  unfold PppValid at valid
  split at valid
  · rename_i address control hi lo data rest
    obtain ⟨rfl, rfl, even, odd, comp, uncomp, short⟩ := valid
    exact ⟨hi, lo, data, rest, rfl, even, odd, comp, uncomp, short⟩
  · exact valid.elim

theorem odd_ne_even {c : Char8} (odd : c &&& 1 = 1) : c &&& 1 ≠ 0 := by
  rw [odd]
  decide

theorem proto_even {c : Char8} (even : c &&& 1 = 0) :
    pppProto [PPP_ALLSTATIONS, PPP_UI] c = [PPP_ALLSTATIONS, PPP_UI] := by
  refine if_neg fun both => ?_
  rw [even] at both
  exact absurd both.2 (by decide)

theorem proto_odd {c : Char8} (odd : c &&& 1 = 1) :
    pppProto [PPP_ALLSTATIONS, PPP_UI] c = [PPP_ALLSTATIONS, PPP_UI, 0] := if_pos ⟨rfl, odd⟩

variable {hi lo : Char8} {tail : List Char8}

/-- The protocol comes back as the sender had it, with its high byte or without. -/
theorem legal_protocol {protocol : Prop} [Decidable protocol] (even : hi &&& 1 = 0)
    (odd : lo &&& 1 = 1) (zero : protocol → hi = 0)
    (fits : (PPP_HEADER_LEN + tail.length : Nat) ≤ limit)
    (address : pppAddress pre (if protocol then lo else hi) = [PPP_ALLSTATIONS, PPP_UI])
    (accept : pre = [] → reject = false) :
    Legal reject limit pre ((if protocol then [lo] else [hi, lo]) ++ tail) ∧
      ((if protocol then [lo] else [hi, lo]) ++ tail).foldl pppStored pre =
        [PPP_ALLSTATIONS, PPP_UI, hi, lo] ++ tail := by
  obtain ⟨rest, all⟩ := @legal_payload [PPP_ALLSTATIONS, PPP_UI, hi, lo] reject limit tail
    (Nat.le_refl _) fits
  have few (k : Nat) (below : k ≤ 4) : (k : Int) ≤ limit := by
    unfold PPP_HEADER_LEN at fits
    omega
  by_cases left : protocol
  · rw [if_pos left] at address ⊢
    have stored : pppStored pre lo = [PPP_ALLSTATIONS, PPP_UI, hi, lo] := by
      rw [pppStored, address, proto_odd odd, zero left]
      rfl
    have accepted : Accepts limit pre lo := by
      refine ⟨fun one => ?_, fun _ => odd_ne_even odd, ?_⟩
      · rw [address] at one
        cases one
      · rw [stored]
        exact few _ (by simp)
    refine ⟨⟨fun empty _ => accept empty, accepted, ?_⟩, ?_⟩
    · rw [stored]
      exact rest
    · rw [List.singleton_append, List.foldl_cons, stored, all]
  · rw [if_neg left] at address ⊢
    have first : pppStored pre hi = [PPP_ALLSTATIONS, PPP_UI, hi] := by
      rw [pppStored, address, proto_even even]
      rfl
    have second : pppStored [PPP_ALLSTATIONS, PPP_UI, hi] lo = [PPP_ALLSTATIONS, PPP_UI, hi, lo] :=
      rfl
    have accepted : Accepts limit pre hi := by
      refine ⟨fun one => ?_, fun three => ?_, ?_⟩
      · rw [address] at one
        cases one
      · rw [address, proto_even even] at three
        cases three
      · rw [first]
        exact few _ (by simp)
    have accepted' : Accepts limit [PPP_ALLSTATIONS, PPP_UI, hi] lo := by
      refine ⟨fun one => (by cases one), fun _ => odd_ne_even odd, ?_⟩
      rw [second]
      exact few _ (by simp)
    refine ⟨⟨fun empty _ => accept empty, accepted, ?_⟩, ?_⟩
    · rw [first]
      exact ⟨fun empty => (by cases empty), accepted', second ▸ rest⟩
    · rw [List.cons_append, List.cons_append, List.foldl_cons, first, List.foldl_cons, second,
        List.nil_append, all]

theorem legal_header {address protocol : Prop} [Decidable address] [Decidable protocol]
    (even : hi &&& 1 = 0) (odd : lo &&& 1 = 1) (zero : protocol → hi = 0)
    (other : address → (hi ++ lo : BitVec 16) ≠ PPP_ALLSTATIONS.setWidth 16)
    (accept : address → reject = false) (fits : (PPP_HEADER_LEN + tail.length : Nat) ≤ limit) :
    Legal reject limit [] ((if address then [] else [PPP_ALLSTATIONS, PPP_UI]) ++
        ((if protocol then [lo] else [hi, lo]) ++ tail)) ∧
      ((if address then [] else [PPP_ALLSTATIONS, PPP_UI]) ++
        ((if protocol then [lo] else [hi, lo]) ++ tail)).foldl pppStored [] =
        [PPP_ALLSTATIONS, PPP_UI, hi, lo] ++ tail := by
  by_cases left : address
  · rw [if_pos left, List.nil_append]
    apply legal_protocol even odd zero fits
    · refine if_pos ⟨rfl, ?_⟩
      split
      · rename_i short
        rintro rfl
        exact other left (by rw [zero short]; rfl)
      · rintro rfl
        exact absurd even (by decide)
    · exact fun _ => accept left
  · rw [if_neg left]
    obtain ⟨rest, all⟩ := @legal_protocol [PPP_ALLSTATIONS, PPP_UI] reject limit hi lo tail protocol
      _ even odd zero
      fits (if_neg fun both => absurd both.1 (by decide)) (fun empty => by cases empty)
    have few (k : Nat) (below : k ≤ 4) : (k : Int) ≤ limit := by
      unfold PPP_HEADER_LEN at fits
      omega
    have first : pppStored [] PPP_ALLSTATIONS = [PPP_ALLSTATIONS] := rfl
    have second : pppStored [PPP_ALLSTATIONS] PPP_UI = [PPP_ALLSTATIONS, PPP_UI] := rfl
    have accepted : Accepts limit [] PPP_ALLSTATIONS :=
      ⟨fun one => (by cases one),
        fun three => (by cases three), by rw [first]; exact few _ (by simp)⟩
    have accepted' : Accepts limit [PPP_ALLSTATIONS] PPP_UI :=
      ⟨fun _ => rfl, fun three => (by cases three), by rw [second]; exact few _ (by simp)⟩
    refine ⟨⟨fun _ other => absurd rfl other, accepted, ?_⟩, ?_⟩
    · rw [first]
      exact ⟨fun empty => (by cases empty), accepted', second ▸ rest⟩
    · rw [List.cons_append, List.cons_append, List.foldl_cons, first, List.foldl_cons, second,
        List.nil_append, all]

theorem fcs_first (fcs : BitVec 16) :
    (fcs ^^^ ((~~~fcs).setWidth 8 : Char8).setWidth 16) &&& 0xff = 0xff := by
  ext i below
  simp only [BitVec.getElem_and, BitVec.getElem_xor, BitVec.getElem_setWidth,
    BitVec.getLsbD_setWidth, BitVec.getLsbD_not]
  interval_cases i <;> simp

theorem fcs_second (fcs : BitVec 16) :
    ((fcs >>> 8 ^^^ (0x0f78 : BitVec 16)) ^^^ ((~~~fcs >>> 8).setWidth 8 : Char8).setWidth 16) &&&
      0xff = 0x87 := by
  ext i below
  simp only [BitVec.getElem_and, BitVec.getElem_xor, BitVec.getElem_setWidth,
    BitVec.getLsbD_setWidth, BitVec.getLsbD_not, BitVec.getLsbD_ushiftRight,
    BitVec.getElem_ushiftRight]
  interval_cases i <;> simp

theorem fcs_high (fcs : BitVec 16) : (fcs >>> 8 ^^^ (0x0f78 : BitVec 16)) >>> 8 = 0x0f := by
  ext i below
  simp only [BitVec.getLsbD_ushiftRight, BitVec.getElem_ushiftRight, BitVec.getLsbD_xor]
  interval_cases i <;> simp

/-- Over its own complement the check sequence is good; only two entries of the table count. -/
theorem pppfcs_good (fcs : BitVec 16) :
    pppfcs fcs [(~~~fcs).setWidth 8, (~~~fcs >>> 8).setWidth 8] = PPP_GOODFCS := by
  have one : fcstab.getD (0xff : BitVec 16).toNat 0 = 0x0f78 := rfl
  have two : fcstab.getD (0x87 : BitVec 16).toNat 0 = 0xf0b7 := rfl
  rw [pppfcs, List.foldl_cons, List.foldl_cons, List.foldl_nil, PPP_FCS, PPP_FCS, fcs_first, one,
    fcs_second, two, fcs_high]
  rfl

def pppCheck (mode : PppMode) (m : PppPacket) : List Char8 :=
  let fcs := pppfcs PPP_INITFCS (pppOctets mode m)
  [(~~~fcs).setWidth 8, (~~~fcs >>> 8).setWidth 8]

def pppChecked (mode : PppMode) (m : PppPacket) : List Char8 := pppOctets mode m ++ pppCheck mode m

theorem pppWire_eq (mode : PppMode) (m : PppPacket) :
    pppWire mode m = pppStuff mode (pppChecked mode m) ++ [PPP_FLAG] := by
  have escape (c : Char8) : pppEscape mode c = pppStuff mode [c] := by
    rw [pppStuff, stuff_cons]
    exact (List.append_nil _).symm
  rw [pppWire, pppEndseq, pppChecked, pppCheck, pppStuff_append, escape, escape, ← pppStuff_append]
  simp only [List.append_assoc, List.singleton_append]

theorem pppfcs_checked (mode : PppMode) (m : PppPacket) :
    pppfcs PPP_INITFCS (pppChecked mode m) = PPP_GOODFCS := by
  rw [pppChecked, pppfcs, List.foldl_append]
  exact pppfcs_good _

/-- What the receiver stores of a valid packet is the packet, with two more octets. -/
theorem legal_packet {mru : Nat} {m : PppPacket} (valid : PppValid mru m)
    (accept : mode.compAc = true → reject = false)
    (fits : (mru + PPP_HEADER_LEN + PPP_FCS_LEN : Nat) ≤ limit) :
    Legal reject limit [] (pppChecked mode m) ∧
      (pppChecked mode m).foldl pppStored [] = m.flatten ++ pppCheck mode m := by
  obtain ⟨hi, lo, data, rest, rfl, even, odd, -, -, short⟩ := pppValid_cases valid
  have zero (small : (hi ++ lo : BitVec 16) < 0x100) : hi = 0 := by
    have below : (hi ++ lo : BitVec 16).toNat < 0x100 := small
    rw [BitVec.toNat_append] at below
    have split := Nat.shiftLeft_add_eq_or_of_lt lo.isLt hi.toNat
    rw [← split, Nat.shiftLeft_eq] at below
    apply BitVec.eq_of_toNat_eq
    change hi.toNat = 0
    lia
  have checked : pppChecked mode ((PPP_ALLSTATIONS :: PPP_UI :: hi :: lo :: data) :: rest) =
      (if mode.compAc ∧ PPP_ALLSTATIONS = PPP_ALLSTATIONS ∧ PPP_UI = PPP_UI ∧
          (hi ++ lo : BitVec 16) ≠ PPP_ALLSTATIONS.setWidth 16 ∧
            (hi ++ lo : BitVec 16) ≠ PPP_LCP then []
        else [PPP_ALLSTATIONS, PPP_UI]) ++
      ((if mode.compProt ∧ (hi ++ lo : BitVec 16) < 0x100 then [lo] else [hi, lo]) ++
        (data ++ rest.flatten ++ pppCheck mode ((PPP_ALLSTATIONS :: PPP_UI :: hi :: lo :: data) ::
          rest))) := by
    simp only [pppChecked, pppOctets, pppCompress, List.append_assoc]
  rw [checked]
  obtain ⟨legal, all⟩ := @legal_header reject limit hi lo
    (data ++ rest.flatten ++ pppCheck mode ((PPP_ALLSTATIONS :: PPP_UI :: hi :: lo :: data) ::
      rest))
    (mode.compAc ∧ PPP_ALLSTATIONS = PPP_ALLSTATIONS ∧ PPP_UI = PPP_UI ∧
      (hi ++ lo : BitVec 16) ≠ PPP_ALLSTATIONS.setWidth 16 ∧ (hi ++ lo : BitVec 16) ≠ PPP_LCP)
    (mode.compProt ∧ (hi ++ lo : BitVec 16) < 0x100) _ _ even odd (fun both => zero both.2)
    (fun both => both.2.2.2.1) (fun both => accept both.1) (by
      rw [List.length_append, show (pppCheck mode _).length = PPP_FCS_LEN from rfl]
      lia)
  refine ⟨legal, all.trans ?_⟩
  simp

end Packets

section Line

variable {Comp : Type} {vj : PppVj Comp} {mode : PppMode} {sc₀ sc : PppSoftc Comp}
    {pre done : List Char8}

def pppClear : PppLine := ⟨true, true, true, true, false, false⟩

variable (vj) in
def pppRecv (sc : Option (PppSoftc Comp)) (c : Char8) : Option (PppSoftc Comp) :=
  sc.bind (pppinput vj pppClear (c.setWidth 32))

theorem pppRecv_some (c : Char8) : pppRecv vj (some sc) c =
    if c = PPP_FLAG then some (pppFlag vj pppClear sc)
    else if sc.flush then some sc
    else if c = PPP_ESCAPE then some { sc with escaped := true }
    else if c.toNat < 0x20 ∧ sc.scRasyncmap.getLsbD c.toNat then some sc
    else if sc.escaped then pppOctet (c ^^^ PPP_TRANS) { sc with escaped := false }
    else pppOctet c sc := by
  have clear : c.setWidth 32 &&& TTY_FE = 0 := by
    revert c
    decide +kernel
  have same : (c.setWidth 32).setWidth 8 = c := by simp
  rw [pppRecv, Option.bind_some, pppinput, if_neg (not_not.mpr clear)]
  simp only [same]

def Covers (mode : PppMode) (scRasyncmap : BitVec 32) : Prop :=
  ∀ i < 0x20, scRasyncmap.getLsbD i = true → mode.scAsyncmap.getLsbD i = true

instance (mode : PppMode) (scRasyncmap : BitVec 32) : Decidable (Covers mode scRasyncmap) :=
  inferInstanceAs (Decidable (∀ i < 0x20, _))

theorem escaped_code {c : Char8} (special : c = PPP_FLAG ∨ c = PPP_ESCAPE ∨ c.toNat < 0x20) :
    c ^^^ PPP_TRANS ≠ PPP_FLAG ∧ c ^^^ PPP_TRANS ≠ PPP_ESCAPE ∧ ¬ (c ^^^ PPP_TRANS).toNat < 0x20 ∧
      c ^^^ PPP_TRANS ^^^ PPP_TRANS = c := by
  revert c
  decide +kernel

theorem escapeP_special {c : Char8} (special : escapeP mode c = true) :
    c = PPP_FLAG ∨ c = PPP_ESCAPE ∨ c.toNat < 0x20 := by
  simp only [escapeP, Bool.or_eq_true, decide_eq_true_eq, Bool.and_eq_true] at special
  tauto

theorem escapeP_plain {c : Char8} (covers : Covers mode sc.scRasyncmap)
    (plain : escapeP mode c = false) :
    c ≠ PPP_FLAG ∧ c ≠ PPP_ESCAPE ∧ ¬ (c.toNat < 0x20 ∧ sc.scRasyncmap.getLsbD c.toNat = true) := by
  simp only [escapeP, Bool.or_eq_false_iff, decide_eq_false_iff_not, Bool.and_eq_false_iff] at plain
  obtain ⟨⟨flag, escape⟩, control⟩ := plain
  refine ⟨flag, escape, fun both => ?_⟩
  rcases control with high | out
  · exact high both.1
  · rw [covers _ both.1 both.2] at out
    cases out

theorem Held.same (held : Held sc₀ sc pre done) :
    sc = { sc₀ with scM := sc.scM, scMc := sc.scMc, scIlen := sc.scIlen, scFcs := sc.scFcs } := by
  unfold Held at held
  split at held
  · exact held.2.frame
  · exact held.frame

theorem pppRecv_plain {c : Char8} (covers : Covers mode sc.scRasyncmap) (flush : sc.flush = false)
    (escaped : sc.escaped = false) (plain : escapeP mode c = false) :
      pppRecv vj (some sc) c = pppOctet c sc := by
  obtain ⟨flag, escape, passes⟩ := escapeP_plain covers plain
  rw [pppRecv_some, if_neg flag, if_neg (by rw [flush]; exact Bool.false_ne_true), if_neg escape,
    if_neg passes, if_neg (by rw [escaped]; exact Bool.false_ne_true)]

theorem pppRecv_escaped {c : Char8} (flush : sc.flush = false) (escaped : sc.escaped = false)
    (special : escapeP mode c = true) :
    pppRecv vj (pppRecv vj (some sc) PPP_ESCAPE) (c ^^^ PPP_TRANS) = pppOctet c sc := by
  obtain ⟨flag, escape, high, back⟩ := escaped_code (escapeP_special special)
  have first : pppRecv vj (some sc) PPP_ESCAPE = some { sc with escaped := true } := by
    rw [pppRecv_some, if_neg (by decide), if_neg (by rw [flush]; exact Bool.false_ne_true),
      if_pos rfl]
  rw [first, pppRecv_some, if_neg flag, if_neg (by rw [flush]; exact Bool.false_ne_true),
    if_neg escape, if_neg (fun both => high both.1), if_pos rfl, back]
  cases sc
  cases escaped
  rfl

variable (vj) in
theorem pppRecv_stuffed (covers : Covers mode sc₀.scRasyncmap) (flush : sc₀.flush = false)
    (escaped : sc₀.escaped = false) (octets : List Char8) (held : Held sc₀ sc pre done)
    (legal : Legal sc₀.rejCompAc (sc₀.scMru.toInt + (PPP_HEADER_LEN + PPP_FCS_LEN : Nat)) pre
      octets) :
    ∃ sc', (pppStuff mode octets).foldl (pppRecv vj) (some sc) = some sc' ∧
      Held sc₀ sc' (octets.foldl pppStored pre) (done ++ octets) := by
  have octet : octets.foldl (fun s c => s.bind (pppOctet c)) (some sc) =
      (pppStuff mode octets).foldl (pppRecv vj) (some sc) := by
    symm
    apply foldl_stuff (P := fun octets s => ∃ sc pre done, s = some sc ∧ Held sc₀ sc pre done ∧
      Legal sc₀.rejCompAc (sc₀.scMru.toInt + (PPP_HEADER_LEN + PPP_FCS_LEN : Nat)) pre octets)
    · rintro s c l ⟨sc, pre, done, rfl, held, -⟩ plain
      have frame := held.same
      exact pppRecv_plain (by rw [frame]; exact covers) (by rw [frame]; exact flush)
        (by rw [frame]; exact escaped) plain
    · rintro s c l ⟨sc, pre, done, rfl, held, -⟩ special
      have frame := held.same
      exact pppRecv_escaped (by rw [frame]; exact flush) (by rw [frame]; exact escaped) special
    · rintro s c l ⟨sc, pre, done, rfl, held, reject, accepts, rest⟩
      obtain ⟨sc', stored, held'⟩ := held.octet reject accepts
      exact ⟨sc', _, _, stored, held', rest⟩
    · exact ⟨sc, pre, done, rfl, held, legal⟩
  rw [← octet]
  clear octet
  induction octets generalizing sc pre done with
  | nil =>
    rw [List.append_nil]
    exact ⟨sc, rfl, held⟩
  | cons c octets ih =>
    obtain ⟨reject, accepts, rest⟩ := legal
    obtain ⟨sc', stored, held'⟩ := held.octet reject accepts
    obtain ⟨last, all, heldLast⟩ := ih held' rest
    refine ⟨last, ?_, ?_⟩
    · rw [List.foldl_cons, Option.bind_some, stored]
      exact all
    · rw [List.append_assoc] at heldLast
      exact heldLast

end Line

section Flag

variable {Comp : Type} {vj : PppVj Comp} {mode : PppMode} {sc₀ sc : PppSoftc Comp}
    {pre done body : List Char8}

/-- `body` is what the mbufs up to the current one hold, with the header in the first of them. -/
structure Packed (sc : PppSoftc Comp) (body : List Char8) (before : List PppMbuf) (cur : PppMbuf)
    (after : List PppMbuf) : Prop where
  chain : sc.scM = before ++ cur :: after
  here : sc.scMc = before.length
  bytes : before.flatMap PppMbuf.data ++ cur.data = body
  wide : ∀ first ∈ (before ++ [cur]).head?, PPP_HEADER_LEN ≤ first.data.length

theorem lookup_middle (before after : List PppMbuf) (cur : PppMbuf) :
    (before ++ cur :: after)[before.length]? = some cur := by
  rw [List.getElem?_append_right (Nat.le_refl _), Nat.sub_self]
  rfl

theorem exists_concat {α : Type} {l : List α} (some : l ≠ []) : ∃ k x, l = k ++ [x] :=
  ⟨l.dropLast, l.getLast some, (List.dropLast_append_getLast some).symm⟩

theorem pppTrim_packed {a b : Char8} (active : Active sc₀ sc (body ++ [a, b]) done)
    (long : PPP_HEADER_LEN ≤ body.length) :
    ∃ before cur after, Packed (pppTrim sc) body before cur after ∧
      Roomy sc.scMru (pppTrim sc).scM := by
  obtain ⟨before, cur, after, chain, here, filled⟩ := active.chain
  have bytes := filled.bytes
  have roomy := active.roomy
  rw [chain] at roomy
  have dropped : (pppDrop sc).scM = before ++ { cur with data := cur.data.dropLast } :: after := by
    change sc.scM.modify sc.scMc _ = _
    rw [chain, here, modify_middle]
  have nonempty : cur.data ≠ [] := by
    intro empty
    cases before with
    | nil =>
      rw [empty] at bytes
      exact absurd bytes.symm (by simp)
    | cons first rest => exact filled.last (List.cons_ne_nil _ _) empty
  obtain ⟨data, last, shape⟩ := exists_concat nonempty
  rw [shape, ← List.append_assoc, List.append_cons body] at bytes
  have bytes : before.flatMap PppMbuf.data ++ data = body ++ [a] := List.append_inj_left' bytes rfl
  rcases List.eq_nil_or_concat data with rfl | ⟨d, x, rfl⟩
  · -- the first octet of the check sequence is the last one of the mbuf before
    rw [List.append_nil] at bytes
    have some : before ≠ [] := by
      rintro rfl
      exact absurd bytes.symm (by simp)
    obtain ⟨rest, prev, rfl⟩ := exists_concat some
    obtain ⟨d, x, shape'⟩ := exists_concat (filled.some prev (by simp))
    rw [List.flatMap_append, List.flatMap_singleton, shape', ← List.append_assoc] at bytes
    have bytes : rest.flatMap PppMbuf.data ++ d = body := List.append_inj_left' bytes rfl
    have trimmed : (pppTrim sc).scM = rest ++ { prev with data := d } :: { cur with data := [] } ::
      after ∧
        (pppTrim sc).scMc = rest.length := by
      have empty : (((pppDrop sc).scM[(pppDrop sc).scMc]?.map PppMbuf.data).getD [] = []) := by
        rw [dropped, show (pppDrop sc).scMc = _ from here, lookup_middle, shape]
        rfl
      have last : (pppDrop sc).scMc - 1 = rest.length := by
        rw [show (pppDrop sc).scMc = _ from here]
        simp
      simp only [pppTrim]
      rw [if_pos empty, pppDrop]
      simp only [last, dropped, shape, List.append_assoc, List.singleton_append, modify_middle,
        shape', List.dropLast_concat, and_self]
    refine ⟨rest, _, _, ⟨trimmed.1, trimmed.2, bytes, ?_⟩, ?_⟩
    · cases rest with
      | nil =>
        rintro first ⟨⟩
        rw [List.flatMap_nil, List.nil_append] at bytes
        rw [bytes]
        exact long
      | cons first others => exact filled.wide
    · rw [trimmed.1]
      rw [List.append_assoc] at roomy
      have once := @Roomy.replace _ _ _ _ { prev with data := d } roomy rfl
      rw [List.append_cons] at once ⊢
      exact once.replace rfl
  · rw [List.concat_eq_append, ← List.append_assoc] at bytes
    have bytes : before.flatMap PppMbuf.data ++ d = body := List.append_inj_left' bytes rfl
    have trimmed : (pppTrim sc).scM = before ++ { cur with data := d } :: after ∧
        (pppTrim sc).scMc = before.length := by
      have more : ¬ (((pppDrop sc).scM[(pppDrop sc).scMc]?.map PppMbuf.data).getD [] = []) := by
        rw [dropped, show (pppDrop sc).scMc = _ from here, lookup_middle, shape]
        simp
      simp only [pppTrim]
      rw [if_neg more, pppDrop]
      simp only [dropped, show (pppDrop sc).scMc = _ from here, modify_middle, shape,
        List.dropLast_concat, List.concat_eq_append, and_self]
    refine ⟨before, _, after, ⟨trimmed.1, trimmed.2, bytes, ?_⟩, ?_⟩
    · cases before with
      | nil =>
        rintro first ⟨⟩
        rw [List.flatMap_nil, List.nil_append] at bytes
        rw [bytes]
        exact long
      | cons first others => exact filled.wide
    · rw [trimmed.1]
      exact roomy.replace rfl

/-- What `ppp_btom` hands on is what the mbufs hold, and the rest is grown again. -/
theorem pppBtom_packed {before after : List PppMbuf} {cur : PppMbuf}
    (packed : Packed sc body before cur after) (roomy : Roomy sc.scMru sc.scM) :
      ∃ scM, Roomy sc.scMru scM ∧
      pppBtom pppClear sc = (some ((before ++ [cur]).map PppMbuf.data),
        { sc with scM := scM }) := by
  have top : sc.scM.take (sc.scMc + 1) = before ++ [cur] := by
    rw [packed.chain, packed.here, List.append_cons, show before.length + 1 =
      (before ++ [cur]).length by simp]
    exact List.take_left
  have sizes (long : Bool) : ∀ m ∈ if long then sc.scM.drop (sc.scMc + 1) else sc.scM.drop sc.scMc,
      m.size = MCLBYTES := by
    intro m member
    cases long with
    | true => exact roomy.sizes m (List.mem_of_mem_drop member)
    | false => exact roomy.sizes m (List.mem_of_mem_drop member)
  unfold pppBtom
  dsimp only
  rw [top, if_neg (by simp [pppClear])]
  obtain ⟨scM, grown, roomy'⟩ := @pppinit_roomy sc.scMru _ (sizes _)
  refine ⟨scM, roomy', ?_⟩
  rw [show pppinit pppClear.init pppClear.clusters _ sc.scMru = _ from grown]

def pppIp (m : List Char8) : List PppInput :=
  if (m.getD 2 0 ++ m.getD 3 0 : BitVec 16) = PPP_IP then
    [⟨m.length - PPP_HEADER_LEN, m.drop PPP_HEADER_LEN⟩]
  else []

def pppOther (m : List Char8) : List PppInput :=
  if (m.getD 2 0 ++ m.getD 3 0 : BitVec 16) = PPP_IP then [] else [⟨m.length, m⟩]

structure Ready (sc : PppSoftc Comp) : Prop where
  flush : sc.flush = false
  escaped : sc.escaped = false
  ilen : sc.scIlen = 0
  roomy : Roomy sc.scMru sc.scM

/-- `sc'` is `sc` with more packets on its queues, and its buffers changed. -/
def Grown (sc sc' : PppSoftc Comp) (ip other : List PppInput) : Prop :=
  ∃ scM scMc ilen fcs, sc' = { sc with
    scM := scM, scMc := scMc, scIlen := ilen, scFcs := fcs
    ipintrq := sc.ipintrq ++ ip, scInq := sc.scInq ++ other }

theorem Grown.trans {u v : PppSoftc Comp} {ip other ip' other' : List PppInput}
    (first : Grown sc u ip other) (second : Grown u v ip' other') :
      Grown sc v (ip ++ ip') (other ++ other') := by
  obtain ⟨_, _, _, _, rfl⟩ := first
  obtain ⟨scM, scMc, ilen, fcs, rfl⟩ := second
  exact ⟨scM, scMc, ilen, fcs, by simp only [List.append_assoc]⟩

theorem pppQueue_packed {before after : List PppMbuf} {cur : PppMbuf}
    (packed : Packed sc body before cur after) (roomy : Roomy sc.scMru sc.scM) (up : sc.up = true) :
    ∃ sc', pppQueue pppClear (body.getD 2 0 ++ body.getD 3 0) body.length sc = sc' ∧
      Grown sc sc' (pppIp body) (pppOther body) ∧ sc'.scIlen = sc.scIlen ∧
        Roomy sc.scMru sc'.scM := by
  obtain ⟨scM, roomy', top⟩ := pppBtom_packed packed roomy
  have flat : ((before ++ [cur]).map PppMbuf.data).flatten = body := by
    rw [← List.flatMap_def, List.flatMap_append, List.flatMap_singleton]
    exact packed.bytes
  have cut : (((before ++ [cur]).map PppMbuf.data).headD []).drop PPP_HEADER_LEN ++
      ((before ++ [cur]).map PppMbuf.data).tail.flatten = body.drop PPP_HEADER_LEN := by
    rw [← flat]
    have wide := packed.wide
    cases shape : before ++ [cur] with
    | nil => exact absurd shape (by simp)
    | cons first rest =>
      rw [shape] at wide
      rw [List.map_cons, List.flatten_cons, List.drop_append_of_le_length (wide first rfl)]
      rfl
  generalize (before ++ [cur]).map PppMbuf.data = chain at top flat cut
  refine ⟨_, rfl, ?_, ?_, ?_⟩
  · unfold pppQueue pppIp pppOther
    rw [top]
    dsimp only
    split
    · refine ⟨scM, sc.scMc, sc.scIlen, sc.scFcs, ?_⟩
      simpa [up, pppClear] using cut
    · refine ⟨scM, sc.scMc, sc.scIlen, sc.scFcs, ?_⟩
      simp [pppClear, flat]
  · unfold pppQueue
    rw [top]
    dsimp only
    split
    · simp [up, pppClear]
    · simp [pppClear]
  · unfold pppQueue
    rw [top]
    dsimp only
    split
    · simpa [up, pppClear] using roomy'
    · simpa [pppClear] using roomy'

theorem head_getD {before : List PppMbuf} {cur : PppMbuf} {after : List PppMbuf}
    (packed : Packed sc body before cur after) (i : Nat) (header : i < PPP_HEADER_LEN) :
      ((sc.scM.head?.map PppMbuf.data).getD []).getD i 0 = body.getD i 0 := by
  have bytes := packed.bytes
  have wide := packed.wide
  rw [packed.chain, ← bytes]
  cases before with
  | nil => rfl
  | cons first rest =>
    have long := wide first rfl
    change first.data.getD i 0 = (first.data ++ rest.flatMap PppMbuf.data ++ cur.data).getD i 0
    rw [List.append_assoc, List.getD_eq_getElem?_getD, List.getD_eq_getElem?_getD,
      List.getElem?_append_left (by omega)]

theorem pppTrim_ilen (ilen : BitVec 16) :
    pppTrim { sc with scIlen := ilen } = { pppTrim sc with scIlen := ilen } := by
  unfold pppTrim pppDrop
  dsimp only
  split_ifs <;> rfl

theorem pppTrim_frame (sc : PppSoftc Comp) :
    ∃ scM scMc, pppTrim sc = { sc with scM := scM, scMc := scMc } := by
  unfold pppTrim pppDrop
  dsimp only
  split_ifs <;> exact ⟨_, _, rfl⟩

variable (vj) in
/-- A closing flag: the packet is queued when `sc_ilen` still counts its octets. -/
theorem pppFlag_packet {a b : Char8} (active : Active sc₀ sc (body ++ [a, b]) done)
    (flush : sc₀.flush = false) (escaped : sc₀.escaped = false) (up : sc₀.up = true)
    (good : pppfcs PPP_INITFCS done = PPP_GOODFCS) (long : PPP_HEADER_LEN ≤ body.length)
    (fits : (body.length : Int) ≤ sc₀.scMru.toInt + PPP_HEADER_LEN)
    (comp : (body.getD 2 0 ++ body.getD 3 0 : BitVec 16) ≠ PPP_VJC_COMP)
    (uncomp : (body.getD 2 0 ++ body.getD 3 0 : BitVec 16) ≠ PPP_VJC_UNCOMP) :
    Ready (pppFlag vj pppClear sc) ∧
      if body.length + PPP_FCS_LEN < 2 ^ 15 then Grown sc₀ (pppFlag vj pppClear sc) (pppIp body)
        (pppOther body)
      else Grown sc₀ (pppFlag vj pppClear sc) [] [] := by
  have frame := active.frame
  have flush' : sc.flush = false := by rw [frame]; exact flush
  have length : (body ++ [a, b]).length = body.length + PPP_FCS_LEN := by
    rw [List.length_append]
    rfl
  have most := @BitVec.toInt_lt 16 sc₀.scMru
  have ilen : sc.scIlen.toInt =
    if body.length + PPP_FCS_LEN < 2 ^ 15 then ((body.length + PPP_FCS_LEN : Nat) : Int)
      else ((body.length + PPP_FCS_LEN : Nat) : Int) - 2 ^ 16 := by
    rw [active.ilen, length, BitVec.toInt_eq_toNat_cond, BitVec.toNat_ofNat,
      Nat.mod_eq_of_lt (by unfold PPP_HEADER_LEN PPP_FCS_LEN at *; lia)]
    split <;> split <;> lia
  have start : ¬ (sc.flush = true ∨ sc.scIlen.toInt > 0 ∧ sc.scFcs ≠ PPP_GOODFCS) := by
    rw [active.fcs, good, flush']
    simp
  unfold pppFlag
  dsimp only
  rw [if_neg start]
  by_cases small : body.length + PPP_FCS_LEN < 2 ^ 15
  · rw [if_pos small] at ilen ⊢
    obtain ⟨before, cur, after, ⟨chain, here, bytes, wide⟩, roomy⟩ := pppTrim_packed active long
    obtain ⟨scM, scMc, trimmed⟩ := pppTrim_frame sc
    rw [if_neg (by rw [ilen]; lia), pppTrim_ilen, trimmed]
    rw [trimmed] at chain here roomy
    have packed : Packed { sc with scM := scM, scMc := scMc, scIlen := 0 } body before cur after :=
      ⟨chain, here, bytes, wide⟩
    have two := head_getD packed 2 (by decide)
    have three := head_getD packed 3 (by decide)
    unfold pppPacket
    dsimp only at two three ⊢
    rw [two, three, if_neg (not_or.mpr ⟨comp, uncomp⟩),
      show sc.scIlen.toInt - 2 = (body.length : Int) by rw [ilen]; unfold PPP_FCS_LEN; lia]
    obtain ⟨sc', queued, grown, idle, roomy'⟩ :=
      pppQueue_packed packed roomy (by rw [frame]; exact up)
    rw [queued]
    obtain ⟨scM', scMc', ilen', fcs', shape⟩ := grown
    have first : sc' = { sc₀ with scM := scM', scMc := scMc', scIlen := ilen', scFcs := fcs',
                                  ipintrq := sc₀.ipintrq ++ pppIp body, scInq :=
                                  sc₀.scInq ++ pppOther body } := by
      rw [shape, frame]
    refine ⟨⟨?_, ?_, idle, ?_⟩, scM', scMc', ilen', fcs', first⟩
    · rw [first]
      exact flush
    · rw [first]
      exact escaped
    · rw [show sc'.scMru = sc.scMru by rw [shape]]
      exact roomy'
  · rw [if_neg small] at ilen ⊢
    rw [if_pos (by
      rw [ilen]
      unfold PPP_HEADER_LEN PPP_FCS_LEN at *
      lia)]
    refine ⟨⟨flush', ?_, rfl, active.roomy⟩, sc.scM, sc.scMc, 0, sc.scFcs, ?_⟩
    · rw [frame]
      exact escaped
    · rw [frame]
      simp

end Flag

section Run

variable {Comp : Type} {vj : PppVj Comp} {mode : PppMode} {sc : PppSoftc Comp} {mru : Nat}

theorem Ready.held (ready : Ready sc) : Held sc sc [] [] := by
  rw [Held, if_pos rfl]
  exact ⟨rfl, rfl, ready.ilen, ready.roomy⟩

def Counted (m : PppPacket) : Prop := m.flatten.length + PPP_FCS_LEN < 2 ^ 15

instance (m : PppPacket) : Decidable (Counted m) := inferInstanceAs (Decidable (_ < _))

structure Matched (mode : PppMode) (mru : Nat) (sc : PppSoftc Comp) : Prop where
  up : sc.up = true
  covers : Covers mode sc.scRasyncmap
  accept : mode.compAc = true → sc.rejCompAc = false
  mru : sc.scMru = BitVec.ofNat 16 mru

theorem Matched.grown {sc' : PppSoftc Comp} {ip other : List PppInput}
    (matched : Matched mode mru sc) (grown : Grown sc sc' ip other) : Matched mode mru sc' := by
  obtain ⟨_, _, _, _, rfl⟩ := grown
  exact ⟨matched.up, matched.covers, matched.accept, matched.mru⟩

theorem Grown.refl (sc : PppSoftc Comp) : Grown sc sc [] [] := by
  refine ⟨sc.scM, sc.scMc, sc.scIlen, sc.scFcs, ?_⟩
  simp

theorem pppRecv_lead {lead : List Char8} (extra : lead = [] ∨ lead = [PPP_FLAG])
    (ready : Ready sc) :
    lead.foldl (pppRecv vj) (some sc) = some sc := by
  obtain ⟨flush, -, ilen, -⟩ := ready
  rcases extra with rfl | rfl
  · rfl
  · rw [List.foldl_cons, List.foldl_nil, pppRecv_some, if_pos rfl, pppFlag, ilen, flush]
    simp only [show (0 : BitVec 16).toInt = 0 from rfl]
    rw [if_neg (by simp), if_pos (by decide)]
    obtain ⟨_, _, _, _, _, _, _, _, _, _, _, _, _, _⟩ := sc
    cases ilen
    cases flush
    rfl

variable (vj) in
theorem pppRecv_wire {m : PppPacket} (valid : PppValid mru m) (below : mru < 2 ^ 15)
    (matched : Matched mode mru sc) (ready : Ready sc) :
      ∃ sc', (pppWire mode m).foldl (pppRecv vj) (some sc) = some sc' ∧ Ready sc' ∧
      if Counted m then Grown sc sc' (pppIp m.flatten) (pppOther m.flatten) else Grown sc sc' []
        [] := by
  have limit : sc.scMru.toInt = mru := by
    rw [matched.mru, BitVec.toInt_eq_toNat_cond, BitVec.toNat_ofNat, Nat.mod_eq_of_lt (by lia)]
    split <;> lia
  obtain ⟨legal, stored⟩ :=
    @legal_packet mode sc.rejCompAc (sc.scMru.toInt + (PPP_HEADER_LEN + PPP_FCS_LEN : Nat))
    mru m valid matched.accept (by rw [limit]; lia)
  obtain ⟨sc₁, octets, held⟩ :=
    pppRecv_stuffed vj matched.covers ready.flush ready.escaped _ ready.held legal
  rw [stored, List.nil_append] at held
  have active : Active sc sc₁ (m.flatten ++ pppCheck mode m) (pppChecked mode m) := by
    have some : m.flatten ++ pppCheck mode m ≠ [] :=
      List.append_ne_nil_of_right_ne_nil _ (List.cons_ne_nil _ _)
    rw [Held, if_neg some] at held
    exact held
  obtain ⟨hi, lo, data, rest, rfl, -, -, comp, uncomp, short⟩ := pppValid_cases valid
  obtain ⟨ready', grown⟩ := pppFlag_packet vj active ready.flush ready.escaped matched.up
    (pppfcs_checked mode _) (by simp [PPP_HEADER_LEN]) (by
      rw [limit]
      simp only [List.flatten_cons, List.cons_append, List.length_cons, PPP_HEADER_LEN]
      lia) comp uncomp
  refine ⟨_, ?_, ready', grown⟩
  rw [pppWire_eq, List.foldl_append, octets, List.foldl_cons, List.foldl_nil, pppRecv_some,
    if_pos rfl]

variable (vj) in
theorem pppRecv_framed {ms : List PppPacket} {out : List Char8} (framed : PppFramed mode ms out)
    (valid : ∀ m ∈ ms, PppValid mru m) (below : mru < 2 ^ 15) (matched : Matched mode mru sc)
    (ready : Ready sc) :
    ∃ sc', out.foldl (pppRecv vj) (some sc) = some sc' ∧ Ready sc' ∧
      Grown sc sc' ((ms.filter fun m => Counted m).flatMap fun m => pppIp m.flatten)
        ((ms.filter fun m => Counted m).flatMap fun m => pppOther m.flatten) := by
  induction framed generalizing sc with
  | nil => exact ⟨sc, rfl, ready, Grown.refl sc⟩
  | cons m lead extra rest ih =>
    obtain ⟨first, others⟩ := List.forall_mem_cons.mp valid
    obtain ⟨sc₁, wire, ready₁, grown₁⟩ := pppRecv_wire vj first below matched ready
    by_cases counted : Counted m
    · rw [if_pos counted] at grown₁
      obtain ⟨sc₂, out, ready₂, grown₂⟩ := ih others (matched.grown grown₁) ready₁
      refine ⟨sc₂, ?_, ready₂, ?_⟩
      · rw [List.append_assoc, List.foldl_append, List.foldl_append, pppRecv_lead extra ready, wire,
          out]
      · rw [List.filter_cons_of_pos (by simpa using counted), List.flatMap_cons, List.flatMap_cons]
        exact grown₁.trans grown₂
    · rw [if_neg counted] at grown₁
      obtain ⟨sc₂, out, ready₂, grown₂⟩ := ih others (matched.grown grown₁) ready₁
      refine ⟨sc₂, ?_, ready₂, ?_⟩
      · rw [List.append_assoc, List.foldl_append, List.foldl_append, pppRecv_lead extra ready, wire,
          out]
      · rw [List.filter_cons_of_neg (by simpa using counted)]
        exact grown₁.trans grown₂

structure Quiet (sc sc' : PppSoftc Comp) : Prop where
  length : sc'.scM.length = sc.scM.length
  inq : sc'.scInq = sc.scInq
  ip : sc'.ipintrq = sc.ipintrq

theorem Quiet.trans {u v : PppSoftc Comp} (first : Quiet sc u) (second : Quiet u v) : Quiet sc v :=
  ⟨second.length.trans first.length, second.inq.trans first.inq, second.ip.trans first.ip⟩

theorem pppStore_quiet (c : Char8) (sc : PppSoftc Comp) : Quiet sc (pppStore c sc) := by
  unfold pppStore
  dsimp only
  split
  · exact ⟨rfl, rfl, rfl⟩
  split
  · split
    · exact ⟨rfl, rfl, rfl⟩
    · exact ⟨by simp only [pppMp, List.length_modify], rfl, rfl⟩
  · exact ⟨by simp only [pppMp, List.length_modify], rfl, rfl⟩

theorem pppHeaderOctet_quiet (c : Char8) (sc : PppSoftc Comp) : Quiet sc (pppHeaderOctet c sc) := by
  unfold pppHeaderOctet
  split
  · exact ⟨rfl, rfl, rfl⟩
  have put :
    Quiet sc
      (if sc.scIlen = 2 ∧ c &&& 1 = 1 then { pppMp 0 sc with scIlen := sc.scIlen + 1 }
       else sc) := by
    split
    · exact ⟨by simp only [pppMp, List.length_modify], rfl, rfl⟩
    · exact ⟨rfl, rfl, rfl⟩
  generalize
    (if sc.scIlen = 2 ∧ c &&& 1 = 1 then { pppMp 0 sc with scIlen := sc.scIlen + 1 }
     else sc) = u at put
  dsimp only
  split
  · exact put.trans ⟨rfl, rfl, rfl⟩
  · exact put.trans (pppStore_quiet c u)

theorem pppOctet_quiet (c : Char8) (some : sc.scM ≠ []) : ∃ sc', pppOctet c sc = Option.some sc' ∧
    Quiet sc sc' := by
  obtain ⟨m, rest, chain⟩ := List.exists_cons_of_ne_nil some
  unfold pppOctet
  split
  · rw [chain]
    dsimp only
    split
    · split
      · exact ⟨_, rfl, by rw [pppFlush, chain]; rfl, rfl, rfl⟩
      · refine ⟨_, rfl, ?_⟩
        refine Quiet.trans ?_ (pppHeaderOctet_quiet c _)
        exact ⟨by simp only [pppMp, List.length_modify, chain, List.length_cons], rfl, rfl⟩
    · refine ⟨_, rfl, ?_⟩
      refine Quiet.trans ?_ (pppHeaderOctet_quiet c _)
      exact ⟨by rw [chain]; rfl, rfl, rfl⟩
  · exact ⟨_, rfl, pppHeaderOctet_quiet c sc⟩

variable (vj) in
theorem pppRecv_quiet {c : Char8} (inside : c ≠ PPP_FLAG) (some : sc.scM ≠ []) :
    ∃ sc', pppRecv vj (Option.some sc) c = Option.some sc' ∧ Quiet sc sc' := by
  rw [pppRecv_some, if_neg inside]
  split
  · exact ⟨_, rfl, rfl, rfl, rfl⟩
  split
  · exact ⟨_, rfl, rfl, rfl, rfl⟩
  split
  · exact ⟨_, rfl, rfl, rfl, rfl⟩
  split
  · obtain ⟨sc', stored, quiet⟩ := @pppOctet_quiet _ { sc with escaped := false }
      (c ^^^ PPP_TRANS) some
    exact ⟨sc', stored, quiet.length, quiet.inq, quiet.ip⟩
  · exact pppOctet_quiet c some

variable (vj) in
theorem pppRecv_inside {l : List Char8} (inside : ∀ c ∈ l, c ≠ PPP_FLAG) (some : sc.scM ≠ []) :
    ∃ sc', l.foldl (pppRecv vj) (Option.some sc) = Option.some sc' ∧ Quiet sc sc' := by
  induction l generalizing sc with
  | nil => exact ⟨sc, rfl, rfl, rfl, rfl⟩
  | cons c l ih =>
    obtain ⟨first, others⟩ := List.forall_mem_cons.mp inside
    obtain ⟨sc₁, step, quiet⟩ := pppRecv_quiet vj first some
    obtain ⟨sc₂, rest, quiet'⟩ := ih others (by
      rw [← List.length_pos_iff, quiet.length]
      exact List.length_pos_iff.mpr some)
    refine ⟨sc₂, ?_, quiet.trans quiet'⟩
    rw [List.foldl_cons, step, rest]

theorem pppStuff_inside {l : List Char8} : ∀ c ∈ pppStuff mode l, c ≠ PPP_FLAG := by
  induction l with
  | nil => simp [pppStuff, stuff]
  | cons d l ih =>
    intro c member
    rw [pppStuff, stuff_cons] at member
    rcases List.mem_append.mp member with first | rest
    · split at first
      · rename_i special
        rcases List.mem_cons.mp first with rfl | first
        · decide
        · rw [List.mem_singleton.mp first]
          exact (escaped_code (escapeP_special special)).1
      · rename_i plain
        rw [List.mem_singleton.mp first]
        rintro rfl
        exact plain (by simp [escapeP])
    · exact ih c rest

/-- The part of a packet that is out holds its closing flag only when all of it is out. -/
theorem pppPart_inside {tp : PppTty} {tail : List Char8} (part : PppPart mode tp tail) :
    ∃ lead rest, tail = lead ++ rest ∧ (lead = [] ∨ lead = [PPP_FLAG]) ∧
      ∀ c ∈ rest, c ≠ PPP_FLAG := by
  unfold PppPart at part
  split at part
  · exact ⟨[], [], part, .inl rfl, by simp⟩
  · rename_i busy
    obtain ⟨m, lead, rest, -, extra, wire, rfl⟩ := part
    refine ⟨lead, rest, rfl, extra, ?_⟩
    obtain ⟨left, outm⟩ := Option.ne_none_iff_exists'.mp busy
    obtain ⟨ahead, pending⟩ : ∃ ahead, pppPending mode tp.scOutfcs tp.scOutm =
        ahead ++ [PPP_FLAG] := by
      rw [outm]
      exact ⟨_, (List.append_assoc _ _ _).symm⟩
    rw [pending, pppWire_eq, ← List.append_assoc] at wire
    have stuffed := List.append_inj_left' wire rfl
    intro c member
    exact pppStuff_inside c (by rw [← stuffed]; exact List.mem_append_left _ member)

structure Starved (sc : PppSoftc Comp) : Prop where
  some : sc.scM ≠ []
  mru : sc.scMru.toInt + (PPP_HEADER_LEN + PPP_FCS_LEN : Nat) ≤ 0
  idle : sc.scIlen = 0 ∨ sc.flush = true

theorem pppStore_starved {c : Char8}
    (mru : sc.scMru.toInt + (PPP_HEADER_LEN + PPP_FCS_LEN : Nat) ≤ 0)
    (ilen : 0 < (sc.scIlen + 1).toInt) : (pppStore c sc).flush = true ∧
    (pppStore c sc).scMru = sc.scMru := by
  unfold pppStore
  dsimp only
  rw [if_pos (by omega)]
  exact ⟨rfl, rfl⟩

theorem pppHeaderOctet_starved {c : Char8}
    (mru : sc.scMru.toInt + (PPP_HEADER_LEN + PPP_FCS_LEN : Nat) ≤ 0)
    (ilen : sc.scIlen = 0 ∨ sc.scIlen = 2) :
    (pppHeaderOctet c sc).flush = true ∧ (pppHeaderOctet c sc).scMru = sc.scMru := by
  unfold pppHeaderOctet
  split
  · exact ⟨rfl, rfl⟩
  dsimp only
  split
  · split
    · exact ⟨rfl, rfl⟩
    · refine pppStore_starved mru ?_
      rename_i both _
      change 0 < (sc.scIlen + 1 + 1).toInt
      rw [both.1]
      decide
  · split
    · exact ⟨rfl, rfl⟩
    · apply pppStore_starved mru
      rcases ilen with zero | two
      · rw [zero]
        decide
      · rw [two]
        decide

theorem pppOctet_starved {sc' : PppSoftc Comp} {c : Char8} (starved : Starved sc)
    (idle : sc.scIlen = 0) (stored : pppOctet c sc = Option.some sc') :
      sc'.flush = true ∧ sc'.scMru = sc.scMru := by
  obtain ⟨m, rest, chain⟩ := List.exists_cons_of_ne_nil starved.some
  rw [pppOctet, if_pos idle, chain] at stored
  dsimp only at stored
  split at stored
  · split at stored
    · cases stored
      exact ⟨rfl, rfl⟩
    · cases stored
      exact pppHeaderOctet_starved starved.mru (.inr rfl)
  · cases stored
    exact pppHeaderOctet_starved starved.mru (.inl idle)

variable (vj) in
theorem pppRecv_starved (c : Char8) (starved : Starved sc) :
    ∃ sc', pppRecv vj (some sc) c = some sc' ∧ Starved sc' ∧ Quiet sc sc' := by
  by_cases flag : c = PPP_FLAG
  · rw [pppRecv_some, if_pos flag]
    refine ⟨_, rfl, ?_⟩
    unfold pppFlag
    dsimp only
    split
    · exact ⟨⟨starved.some, starved.mru, .inl rfl⟩, rfl, rfl, rfl⟩
    · rename_i usual
      have idle : sc.scIlen = 0 := starved.idle.resolve_right fun flush => usual (.inl flush)
      rw [if_pos (by rw [idle]; decide)]
      exact ⟨⟨starved.some, starved.mru, .inl rfl⟩, rfl, rfl, rfl⟩
  · obtain ⟨sc', step, quiet⟩ := pppRecv_quiet vj flag starved.some
    refine ⟨sc', step, ?_, quiet⟩
    have some : sc'.scM ≠ [] := by
      rw [← List.length_pos_iff, quiet.length]
      exact List.length_pos_iff.mpr starved.some
    rw [pppRecv_some, if_neg flag] at step
    split at step
    · cases step
      exact starved
    rename_i usual
    have idle : sc.scIlen = 0 := starved.idle.resolve_right usual
    split at step
    · cases step
      exact ⟨starved.some, starved.mru, .inl idle⟩
    split at step
    · cases step
      exact starved
    split at step
    · obtain ⟨flush, mru⟩ := @pppOctet_starved _ { sc with escaped := false } _ _
        ⟨starved.some, starved.mru, starved.idle⟩ idle step
      exact ⟨some, by rw [mru]; exact starved.mru, .inr flush⟩
    · obtain ⟨flush, mru⟩ := pppOctet_starved starved idle step
      exact ⟨some, by rw [mru]; exact starved.mru, .inr flush⟩

variable (vj) in
theorem pppRecv_nothing (l : List Char8) (starved : Starved sc) :
    ∃ sc', l.foldl (pppRecv vj) (some sc) = some sc' ∧ Quiet sc sc' := by
  induction l generalizing sc with
  | nil => exact ⟨sc, rfl, rfl, rfl, rfl⟩
  | cons c l ih =>
    obtain ⟨sc₁, step, starved₁, quiet⟩ := pppRecv_starved vj c starved
    obtain ⟨sc₂, rest, quiet'⟩ := ih starved₁
    refine ⟨sc₂, ?_, quiet.trans quiet'⟩
    rw [List.foldl_cons, step, rest]

theorem pppReceive_eq (out : List Char8) :
    pppReceive vj (out.map fun c => (pppClear, c.setWidth 32)) sc =
      out.foldl (pppRecv vj) (some sc) := by
  rw [pppReceive, List.foldl_map]
  rfl

theorem queued_length (ms : List PppPacket) :
    (ms.flatMap fun m => pppIp m.flatten).length + (ms.flatMap fun m => pppOther m.flatten).length =
      ms.length := by
  induction ms with
  | nil => rfl
  | cons m ms ih =>
    have one : (pppIp m.flatten).length + (pppOther m.flatten).length = 1 := by
      unfold pppIp pppOther
      split <;> rfl
    simp only [List.flatMap_cons, List.length_append, List.length_cons]
    omega

/-- What `pppinput` has queued after some characters: the packets of `ms`, each once, in order. -/
def Delivered (sc sc' : PppSoftc Comp) (ms : List PppPacket) : Prop :=
  sc'.ipintrq = sc.ipintrq ++ ms.flatMap (fun m => pppIp m.flatten) ∧
    sc'.scInq = sc.scInq ++ ms.flatMap (fun m => pppOther m.flatten)

instance (sc sc' : PppSoftc Comp) (ms : List PppPacket) : Decidable (Delivered sc sc' ms) :=
  inferInstanceAs (Decidable (_ ∧ _))

theorem Delivered.length {sc' : PppSoftc Comp} {ms ks : List PppPacket} (one : Delivered sc sc' ms)
    (two : Delivered sc sc' ks) : ms.length = ks.length := by
  have ip := List.append_cancel_left (one.1.symm.trans two.1)
  have other := List.append_cancel_left (one.2.symm.trans two.2)
  rw [← queued_length ms, ← queued_length ks, ip, other]

/-- Of what was sent the receiver has the packets that `sc_ilen` can count, or none where `sc_mru`
is negative. -/
theorem pppRecv_sent {tp : PppTty} {out tail : List Char8} (framed : PppFramed mode tp.sent out)
    (part : PppPart mode tp tail) (valid : ∀ m ∈ tp.sent, PppValid mru m) (small : mru ≤ PPP_MAXMRU)
    (matched : Matched mode mru sc) (ready : Ready sc) :
    ∃ sc', (out ++ tail).foldl (pppRecv vj) (some sc) = some sc' ∧
      Delivered sc sc' (if mru < 2 ^ 15 then tp.sent.filter fun m => Counted m else []) := by
  by_cases below : mru < 2 ^ 15
  · rw [if_pos below]
    obtain ⟨sc₁, all, ready₁, scM, scMc, ilen, fcs, grown⟩ :=
      pppRecv_framed vj framed valid below matched ready
    obtain ⟨lead, rest, rfl, extra, inside⟩ := pppPart_inside part
    obtain ⟨sc₂, last, quiet⟩ := pppRecv_inside vj inside ready₁.roomy.some
    refine ⟨sc₂, ?_, ?_, ?_⟩
    · rw [List.foldl_append, List.foldl_append, all, pppRecv_lead extra ready₁, last]
    · rw [quiet.ip, grown]
    · rw [quiet.inq, grown]
  · rw [if_neg below]
    have starved : Starved sc := by
      refine ⟨ready.roomy.some, ?_, .inl ready.ilen⟩
      unfold PPP_MAXMRU PPP_HEADER_LEN PPP_FCS_LEN at *
      rw [matched.mru, BitVec.toInt_eq_toNat_cond, BitVec.toNat_ofNat, Nat.mod_eq_of_lt (by lia)]
      split <;> lia
    obtain ⟨sc', all, quiet⟩ := pppRecv_nothing vj (out ++ tail) starved
    refine ⟨sc', all, ?_, ?_⟩
    · rw [quiet.ip]
      exact (List.append_nil _).symm
    · rw [quiet.inq]
      exact (List.append_nil _).symm

/-- Where `sc_mru` and `sc_ilen`, which are `short`s, hold the `mru` of the receiver and the lengths
of the packets with header and check sequence, `pppinput` delivers what `pppstart` has sent in full;
and only there, once all that was queued is sent. -/
theorem ppp_round_trip (vj : PppVj Comp) (mode : PppMode) (ring : Ringb) (events : List PppEvent)
    (mru : Nat) (small : mru ≤ PPP_MAXMRU)
    (valid : ∀ m ∈ events.flatMap PppEvent.queued, PppValid mru m) (sc : PppSoftc Comp)
    (matched : Matched mode mru sc) (ready : Ready sc) :
    let tp := events.foldl (pppEvent mode) (pppIdle ring)
    let queued := events.flatMap PppEvent.queued
    List.Perm (tp.taken ++ tp.scFastq ++ tp.ifSnd) queued ∧
      Run Queues.Step .empty (events.map PppEvent.put) tp.queues ∧
      (∀ oproc, Stops oproc (pppstart mode oproc tp)) ∧
      ∃ out sc', tp.line ++ tp.tOut.contents = ring.contents ++ out ∧
        pppReceive vj (out.map fun c => (pppClear, c.setWidth 32)) sc = some sc' ∧
        (mru < 2 ^ 15 ∧ (∀ m ∈ queued, Counted m) → Delivered sc sc' tp.sent) ∧
        (queued ≠ [] → (∀ m ∈ queued, m ∈ tp.sent) → Delivered sc sc' tp.sent →
          mru < 2 ^ 15 ∧ ∀ m ∈ queued, Counted m) := by
  intro tp queued
  obtain ⟨⟨_, ⟨out, tail, framed, part, written⟩, -⟩, run⟩ :=
    pppEvents_sound events (@pppIdle_sound mode ring)
  have perm : List.Perm (tp.taken ++ tp.scFastq ++ tp.ifSnd) queued := by
    have perm := Queues.run_perm run
    rw [List.flatMap_map] at perm
    exact perm
  have taken : ∀ m ∈ tp.sent, m ∈ queued := by
    intro m member
    refine perm.mem_iff.mp ?_
    rw [List.append_assoc]
    refine List.mem_append_left _ ?_
    unfold PppTty.sent at member
    split at member
    · exact List.dropLast_subset _ member
    · exact member
  obtain ⟨sc', received, delivered⟩ := @pppRecv_sent _ vj mode sc mru tp out tail framed part
    (fun m member => valid m (taken m member)) small matched ready
  rw [List.append_assoc] at written
  refine ⟨perm, run, fun oproc => pppstart_stops mode oproc tp, out ++ tail, sc', written,
    (pppReceive_eq _).trans received, ?_, ?_⟩
  · rintro ⟨below, counted⟩
    have all := List.filter_eq_self.mpr fun m member => decide_eq_true (counted m (taken m member))
    rw [if_pos below, all] at delivered
    exact delivered
  · intro some sent whole
    have lengths := whole.length delivered
    by_cases below : mru < 2 ^ 15
    · rw [if_pos below] at lengths
      refine ⟨below, fun m member => ?_⟩
      have all := List.length_filter_eq_length_iff.mp lengths.symm m (sent m member)
      simpa using all
    · rw [if_neg below] at lengths
      obtain ⟨m, rest, first⟩ := List.exists_cons_of_ne_nil some
      have member := sent m (by rw [first]; exact List.mem_cons_self)
      rw [List.length_eq_zero_iff.mp lengths] at member
      cases member

/-- The receiver after `pppopen`, with the interface up. -/
def pppOpened : PppSoftc Unit :=
  { scM := [⟨MCLBYTES, 0, []⟩], scMc := 0, scIlen := 0, scFcs := 0,
    scMru := BitVec.ofNat 16 PPP_MRU, scRasyncmap := 0
    rejCompAc := false, rejCompTcp := false, escaped := false, flush := false, up := true, scComp :=
      ()
    scInq := [], ipintrq := [] }

def noVj : PppVj Unit := ⟨fun _ _ _ comp => (none, comp), fun comp => comp⟩

/-- A packet that does not fit in the ring, and behind it one that goes before the others. -/
def pppLong : PppPacket :=
  pppHeader false PPP_ALLSTATIONS PPP_UI PPP_IP [[0x45], List.replicate 520 0x7e]

def pppFast : PppPacket := pppHeader true PPP_ALLSTATIONS PPP_UI 0x8021 [[0x7d, 0x01]]

/-- `pppstart` has come back in the middle of the packet. -/
def pppFull : PppTty :=
  [PppEvent.output false pppLong fun _ => 0, .output true pppFast fun _ => 0].foldl
    (pppEvent ⟨0, true, true⟩) (pppIdle (initrb fun _ => 0))

def pppResumed : PppTty :=
  [PppEvent.drain 700, .start fun _ => 0].foldl (pppEvent ⟨0, true, true⟩) pppFull

theorem ppp_round_trip_resumed :
    pppFull.scOutm.isSome ∧ pppResumed.sent = [pppLong, pppFast] ∧
      ∃ out sc', pppResumed.line ++ pppResumed.tOut.contents = (initrb fun _ => 0).contents ++ out ∧
        pppReceive noVj (out.map fun c => (pppClear, c.setWidth 32)) pppOpened = some sc' ∧
        Delivered pppOpened sc' [pppLong, pppFast] := by
  have matched : Matched ⟨0, true, true⟩ 1500 pppOpened := ⟨rfl, by decide, fun _ => rfl, rfl⟩
  have ready : Ready pppOpened :=
    ⟨rfl, rfl, rfl, List.cons_ne_nil _ _, by simp [pppOpened], by decide⟩
  have sent : pppResumed.sent = [pppLong, pppFast] := by
    rw [pppResumed, List.foldl_cons, List.foldl_cons, List.foldl_nil, pppEvent, pppEvent,
      pppDrain_eq, Ringb.length_contents]
    decide +kernel
  have run := ppp_round_trip noVj ⟨0, true, true⟩ (initrb fun _ => 0)
    ([.output false pppLong fun _ => 0, .output true pppFast fun _ => 0] ++ [.drain 700,
      .start fun _ => 0])
    1500 (by decide) (by decide +kernel) pppOpened matched ready
  rw [List.foldl_append] at run
  obtain ⟨-, -, -, out, sc', written, received, delivered, -⟩ := run
  refine ⟨by decide +kernel, sent, out, sc', written, received, ?_⟩
  rw [← sent]
  exact delivered ⟨by decide, by decide +kernel⟩

/-- An `mru` that `PPPIOCSMRU` takes, and no packet is received. -/
theorem ppp_mru_wraps :
    let m := pppHeader false PPP_ALLSTATIONS PPP_UI PPP_IP [[0x7e]]
    let tp := [PppEvent.output false m fun _ => 0].foldl (pppEvent ⟨0, true, true⟩)
      (pppIdle (initrb fun _ => 0))
    let sc := pppSetMru pppClear 40000 pppOpened
    40000 ≤ PPP_MAXMRU ∧ PppValid 40000 m ∧ tp.sent = [m] ∧
      ∃ sc', pppReceive noVj ((tp.line ++ tp.tOut.contents).map fun c => (pppClear, c.setWidth 32))
        sc = some sc' ∧
        sc'.ipintrq = [] ∧ ¬ Delivered sc sc' tp.sent :=
  ⟨by decide, by decide, by decide, _, rfl, by decide, by decide⟩

end Run

end FreeBsd.Net
