import FreeBsd.Kern.UipcMbuf

/-! The length in the packet header of a chain of mbufs, and the operations that keep it. -/
namespace FreeBsd.Kern.UipcMbuf

section Measured

/-- `m_pkthdr.len` of the first mbuf, an `int`, is the length of the chain. -/
structure Measured (chain : List Mbuf) : Prop where
  header : chain.head?.bind Mbuf.pkthdr = some ((flat chain).length : Int)
  fits : (flat chain).length < 2 ^ 31

inductive ChainCall where
  | adj (reqLen : Int)
  | pullup (maxProtohdr : Nat) (mem : Bool) (len : Nat)
  /-- `m_copym` with offset 0. -/
  | copym (mem : Nat → Bool) (len : Int)

def ChainCall.Typed : ChainCall → Prop
  | .adj reqLen => -2 ^ 31 ≤ reqLen ∧ reqLen < 2 ^ 31
  | .pullup _ _ _ => True
  | .copym _ len => len < 2 ^ 31

/-- The header of the chain that comes back, if one does, has its length. -/
def KeepsLength (chain : List Mbuf) : ChainCall → Prop
  | .adj reqLen => ∃ chain', mAdj chain reqLen = some chain' ∧ Measured chain'
  | .pullup maxProtohdr mem len => ∀ top, mPullup maxProtohdr mem chain len = some (some top) →
    Measured top
  | .copym mem len => ∀ top, mCopym mem chain 0 len = some (some top) → top ≠ [] → Measured top

/-- What is left of the length of a copy is `M_COPYALL` behind some mbufs, which copies all the
others. -/
def ToEnd (chain : List Mbuf) (len : Nat) : Prop :=
  ∃ ys zs, chain = ys ++ zs ∧ (flat ys).length + M_COPYALL = len

/-- The tail does not lie in the last mbuf alone, unless that is the first one. What is left of the
length of a copy does not come down to `M_COPYALL`. -/
def LengthFits (chain : List Mbuf) : ChainCall → Prop
  | .adj reqLen => 0 ≤ reqLen ∨ reqLen ≠ -2 ^ 31 ∧ (chain.length = 1 ∨ ∀ m ∈ chain.getLast?,
    m.len < reqLen.natAbs)
  | .pullup _ _ _ => True
  | .copym mem len => len ≠ M_COPYALL → ToEnd chain len.toNat →
    (∃ k < chain.length, mem k = false) ∨ (flat chain).length = len.toNat

variable {chain chain' rest : List Mbuf} {m : Mbuf} {n len : Nat}

theorem measured_cons (header : m.pkthdr = some ((flat (m :: rest)).length : Int))
    (fits : (flat (m :: rest)).length < 2 ^ 31) :
    Measured (m :: rest) := ⟨header, fits⟩

theorem Measured.cons (measured : Measured chain) : ∃ m rest, chain = m :: rest ∧
    m.pkthdr = some ((flat chain).length : Int) := by
  cases chain with
  | nil => cases measured.header
  | cons m rest => exact ⟨m, rest, rfl, measured.header⟩

theorem trimHead_left (chain : List Mbuf) (n : Nat) :
    (trimHead chain n).2 = n - (flat chain).length := by
  induction chain generalizing n with
  | nil => cases n <;> rfl
  | cons m rest ih =>
    cases n with
    | zero => simp [trimHead]
    | succ n =>
      rw [trimHead, flat_cons, List.length_append, m.length_bytes]
      split
      · dsimp only
        rw [ih]
        lia
      · dsimp only
        lia

theorem trimHead_cons (m : Mbuf) (rest : List Mbuf) (n : Nat) :
    ∃ m' rest', (trimHead (m :: rest) n).1 = m' :: rest' ∧ m'.pkthdr = m.pkthdr := by
  cases n with
  | zero => exact ⟨m, rest, rfl, rfl⟩
  | succ n =>
    rw [trimHead]
    split
    · exact ⟨_, _, rfl, rfl⟩
    · exact ⟨_, _, rfl, rfl⟩

theorem adj_head_measured (measured : Measured chain) (n : Nat) :
    ∃ chain', mAdj chain n = some chain' ∧ Measured chain' := by
  obtain ⟨m, rest, rfl, header⟩ := measured.cons
  have fits := measured.fits
  obtain ⟨m', rest', trimmed, same⟩ := trimHead_cons m rest n
  have left := trimHead_left (m :: rest) n
  have flat' := congrArg List.length (trimHead_flat (m :: rest) n)
  rw [trimmed, List.length_drop] at flat'
  unfold mAdj
  rw [if_pos (Int.natCast_nonneg n), Int.toNat_natCast]
  refine ⟨_, rfl, ?_⟩
  rw [trimmed, left, List.modifyHead_cons]
  have bytes :
      (flat (m'.setHeader (fun h => h - (n - ((n - (flat (m :: rest)).length : Nat) : Int))) ::
      rest')).length =
      (flat (m :: rest)).length - n := flat'
  apply measured_cons
  · rw [bytes, Mbuf.setHeader]
    dsimp only
    rw [same, header, Option.map_some]
    congr 1
    lia
  · rw [bytes]
    lia

theorem truncate_cons (m : Mbuf) (rest : List Mbuf) (count : Int) :
    ∃ m' rest', truncate (m :: rest) count = m' :: rest' ∧ m'.pkthdr = m.pkthdr := by
  rw [truncate]
  split
  · exact ⟨_, _, rfl, rfl⟩
  · exact ⟨_, _, rfl, rfl⟩

theorem trimLast_eq_none : trimLast n chain = none ↔ ∀ m ∈ chain.getLast?, m.len < n := by
  induction chain with
  | nil => exact ⟨fun _ => (by rintro _ ⟨⟩), fun _ => rfl⟩
  | cons m rest ih =>
    cases rest with
    | nil =>
      rw [trimLast, List.getLast?_singleton]
      constructor
      · intro several last same
        cases same
        by_contra enough
        rw [if_pos (Nat.le_of_not_lt enough)] at several
        cases several
      · exact fun short => if_neg (Nat.not_le.mpr (short m rfl))
    | cons m' rest =>
      rw [trimLast, Option.map_eq_none_iff, ih, List.getLast?_cons_cons]

theorem adj_rescan_measured (measured : Measured chain) (argument : 0 < n ∧ n < 2 ^ 31)
    (several : trimLast n chain = none) :
    ∃ chain', mAdj chain (-n) = some chain' ∧ Measured chain' := by
  obtain ⟨m, rest, rfl, header⟩ := measured.cons
  have fits := measured.fits
  have sum := foldl_length (m :: rest) 0
  have start : int 0 = 0 := by decide
  rw [start, Int.zero_add] at sum
  have count : int ((m :: rest).foldl (fun count m => int (count + m.len)) 0 - n) =
      (flat (m :: rest)).length - n := by
    rw [sum, @int_eq ((flat (m :: rest)).length : Int) (by lia) (by lia), int_eq (by lia) (by lia)]
  have left :
      (if ((flat (m :: rest)).length - n : Int) < 0 then 0
       else ((flat (m :: rest)).length - n : Int)) =
      (((flat (m :: rest)).length - n : Nat) : Int) := by
    split <;> lia
  rw [mAdj, if_neg (by lia), if_neg (by lia), Int.natAbs_neg, Int.natAbs_natCast, several]
  dsimp only
  rw [count, left, List.modifyHead_cons]
  refine ⟨_, rfl, ?_⟩
  have cut :=
    truncate_flat (m.setHeader (fun _ => (((flat (m :: rest)).length - n : Nat) : Int)) :: rest)
      ((flat (m :: rest)).length - n) (Nat.sub_le _ _) (by lia)
  have whole : flat (m.setHeader (fun _ => (((flat (m :: rest)).length - n : Nat) : Int)) :: rest) =
      flat (m :: rest) :=
    flat_setHeader (m :: rest) _
  replace cut := congrArg List.length cut
  rw [whole, List.length_take_of_le (Nat.sub_le _ _)] at cut
  obtain ⟨m', rest', same, kept⟩ :=
    truncate_cons (m.setHeader (fun _ => (((flat (m :: rest)).length - n : Nat) : Int))) rest
      (((flat (m :: rest)).length - n : Nat) : Int)
  rw [same] at cut ⊢
  apply measured_cons
  · rw [cut, kept, Mbuf.setHeader]
    dsimp only
    rw [header, Option.map_some]
  · rw [cut]
    lia

theorem adj_last_measured_iff (measured : Measured chain) (argument : 0 < n ∧ n < 2 ^ 31)
    (last : trimLast n chain = some chain') :
    Measured chain' ↔ chain.length = 1 := by
  obtain ⟨m, rest, rfl, header⟩ := measured.cons
  have fits := measured.fits
  obtain ⟨room, cut⟩ := trimLast_flat last
  replace cut := congrArg List.length cut
  rw [List.length_take_of_le (Nat.sub_le _ _)] at cut
  cases rest with
  | nil =>
    rw [trimLast, Option.ite_none_right_eq_some] at last
    obtain ⟨-, same⟩ := last
    cases same
    refine ⟨fun _ => rfl, fun _ => measured_cons ?_ (by lia)⟩
    rw [cut, Mbuf.setHeader, Mbuf.cut]
    dsimp only
    rw [header, Option.map_some]
    congr 1
    lia
  | cons m' rest =>
    rw [trimLast, Option.map_eq_some_iff] at last
    obtain ⟨tail, -, rfl⟩ := last
    constructor
    · intro after
      have same := after.header
      rw [List.head?_cons, Option.bind_some, header, cut] at same
      have equal := Option.some.inj same
      lia
    · rintro ⟨⟩

theorem pull_header {maxProtohdr fuel : Nat} {plain : m.ext = false} {top : List Mbuf}
    (room : m.data + m.len + len ≤ MLEN)
    (done : pull maxProtohdr fuel m plain chain len = some (some top)) :
    top.head?.bind Mbuf.pkthdr = m.pkthdr := by
  induction fuel generalizing m chain len with
  | zero => cases done
  | succ fuel ih =>
    cases chain with
    | nil =>
      rw [pull] at done
      split at done
      · cases done
      · cases done
        rfl
    | cons n rest =>
      obtain ⟨c, less, fits, enough, unfolded⟩ := pull_cons maxProtohdr fuel plain n rest room
      have moved : (m.append (n.bytes.take c) plain fits).len = m.len + c := by
        show m.len + (n.bytes.take c).length = m.len + c
        rw [List.length_take, n.length_bytes, Nat.min_eq_left less]
      have start : (m.append (n.bytes.take c) plain fits).data = m.data := rfl
      rw [unfolded] at done
      generalize (if (n.advance c less).len ≠ 0 then n.advance c less :: rest else rest) =
        left at done
      split at done
      · rename_i more
        have room' :
            (m.append (n.bytes.take c) plain fits).data +
            (m.append (n.bytes.take c) plain fits).len + (len - c) ≤ MLEN := by
          rw [start, moved]
          lia
        exact @ih left (m.append (n.bytes.take c) plain fits) (len - c) plain room' done
      · split at done
        · cases done
        · cases done
          rfl

theorem pullup_measured {maxProtohdr : Nat} {mem : Bool} {top : List Mbuf}
    (measured : Measured chain) (done : mPullup maxProtohdr mem chain len = some (some top)) :
      Measured top := by
  obtain ⟨m, rest, rfl, header⟩ := measured.cons
  obtain ⟨r, done', kept⟩ := mPullup_flat maxProtohdr mem m rest len
  rw [done] at done'
  obtain ⟨same, -⟩ := kept top (Option.some.inj done').symm
  have head : top.head?.bind Mbuf.pkthdr = m.pkthdr := by
    unfold mPullup at done
    dsimp only at done
    split at done
    · split at done
      · cases done
        rfl
      · exact pull_header (by lia) done
    · split at done
      · cases done
      · rename_i fine
        apply pull_header _ done
        have start : (Mbuf.get m.pkthdr).data ≤ MLEN - MHLEN := by
          unfold Mbuf.get
          dsimp only
          split <;> lia
        have none : (Mbuf.get m.pkthdr).len = 0 := rfl
        unfold MLEN MHLEN at *
        lia
  refine ⟨?_, ?_⟩
  · rw [head, same, header]
  · rw [same]
    exact measured.fits

def copyHeader (m : Mbuf) (len : Nat) (copyhdr : Bool) : Option Int :=
  if copyhdr ∧ m.pkthdr.isSome then
    some (if len = M_COPYALL then m.pkthdr.getD 0 - (0 : Nat) else len)
  else none

theorem pkthdr_copy (m : Mbuf) {off count : Nat} {header : Option Int}
    (within : off + count ≤ m.len) (first : header.isSome → m.pkthdr.isSome) :
      (m.copy off count header within first).pkthdr = header := by
  unfold Mbuf.copy
  split
  · rfl
  · rfl

theorem copyChain_cons (mem : Nat → Bool) (k : Nat) (m : Mbuf) (rest : List Mbuf) (more : len ≠ 0)
    (copyhdr : Bool) :
    ∃ n : Mbuf, n.len = min len m.len ∧ n.pkthdr = copyHeader m len copyhdr ∧
      copyChain mem k (m :: rest) 0 len copyhdr =
        if mem k = false then some none
        else (copyChain mem (k + 1) rest 0 (if len = M_COPYALL then len else len - min len m.len)
          false).map
          (Option.map (n :: ·)) := by
  have within : 0 + min len (m.len - 0) ≤ m.len := by lia
  have first : (copyHeader m len copyhdr).isSome → m.pkthdr.isSome := by
    unfold copyHeader
    split
    · rename_i both
      exact fun _ => both.2
    · rintro ⟨⟩
  refine ⟨m.copy 0 (min len (m.len - 0)) (copyHeader m len copyhdr) within first, ?_,
    pkthdr_copy m within first, ?_⟩
  · have bytes := congrArg List.length (bytes_copy m within first)
    rw [Mbuf.length_bytes, List.drop_zero, List.length_take, m.length_bytes] at bytes
    lia
  · rw [copyChain, if_neg more]
    split
    · rfl
    · dsimp only
      rw [dif_pos within]
      cases later :
        copyChain mem (k + 1) rest 0 (if len = M_COPYALL then len else len - min len m.len)
        false with
      | none => rfl
      | some copied =>
        cases copied with
        | none => rfl
        | some chain => rfl

theorem toEnd_cons (down : ToEnd (m :: rest) len) :
    len ≠ 0 ∧ min len m.len = m.len ∧
      ToEnd rest (if len = M_COPYALL then len else len - min len m.len) := by
  have short := small m
  obtain ⟨ys, zs, split, count⟩ := down
  cases ys with
  | nil =>
    have all : len = M_COPYALL := by simpa using count.symm
    rw [if_pos all]
    exact ⟨by lia, by lia, [], rest, rfl, by simpa using all.symm⟩
  | cons y ys =>
    obtain ⟨rfl, rfl⟩ := List.cons.inj split
    rw [flat_cons, List.length_append, m.length_bytes] at count
    refine ⟨by unfold M_COPYALL at *; lia, by lia, ?_⟩
    split
    · rename_i all
      exact ⟨[], _, rfl, by simpa using all.symm⟩
    · exact ⟨ys, zs, rfl, by lia⟩

theorem toEnd_of_rest (less : m.len ≤ len) (down : ToEnd rest (len - m.len)) :
    ToEnd (m :: rest) len := by
  obtain ⟨ys, zs, rfl, count⟩ := down
  refine ⟨m :: ys, zs, rfl, ?_⟩
  rw [flat_cons, List.length_append, m.length_bytes]
  omega

/-- A copy to the end comes back if there is memory for as many mbufs as the chain has. -/
theorem copyChain_returns (mem : Nat → Bool) (k : Nat) (copyhdr : Bool) (down : ToEnd chain len) :
    (∃ top, copyChain mem k chain 0 len copyhdr = some (some top)) ↔ ∀ j < chain.length,
      mem (k + j) = true := by
  induction chain generalizing k len copyhdr with
  | nil =>
    obtain ⟨ys, zs, split, count⟩ := down
    obtain ⟨rfl, rfl⟩ := List.nil_eq_append_iff.mp split
    have all : len = M_COPYALL := by simpa using count.symm
    refine ⟨fun _ => (by rintro _ ⟨⟩), fun _ => ⟨[], ?_⟩⟩
    rw [copyChain, if_pos (.inr all)]
  | cons m rest ih =>
    obtain ⟨more, -, down'⟩ := toEnd_cons down
    obtain ⟨n, -, -, unfolded⟩ := copyChain_cons mem k m rest more copyhdr
    have rest_iff := ih (k + 1) false down'
    rw [unfolded]
    constructor
    · rintro ⟨top, done⟩ j below
      split at done
      · cases done
      · rename_i memory
        obtain ⟨top', done, same⟩ := Option.map_eq_some_iff.mp done
        obtain ⟨top'', rfl, -⟩ := Option.map_eq_some_iff.mp same
        cases j with
        | zero => simpa using memory
        | succ j =>
          have later := rest_iff.mp ⟨top'', done⟩ j (by simpa using below)
          rw [← later]
          congr 1
          lia
    · intro memory
      obtain ⟨top, done⟩ := rest_iff.mpr fun j below => by
        have later := memory (j + 1) (by simpa using below)
        rw [← later]
        congr 1
        lia
      have here := memory 0 (by simp)
      rw [Nat.add_zero] at here
      rw [if_neg (by rw [here]; exact (by rintro ⟨⟩)), done]
      exact ⟨n :: top, rfl⟩

theorem copyChain_length {mem : Nat → Bool} {k : Nat} {copyhdr : Bool} {top : List Mbuf}
    (done : copyChain mem k chain 0 len copyhdr = some (some top)) :
    (ToEnd chain len → (flat top).length = (flat chain).length) ∧
      (¬ ToEnd chain len → (flat top).length = len) := by
  induction chain generalizing k len copyhdr top with
  | nil =>
    rw [copyChain] at done
    split at done
    · rename_i ends
      cases done
      refine ⟨fun _ => rfl, fun up => ?_⟩
      rcases ends with rfl | all
      · rfl
      · exact absurd ⟨[], [], rfl, by simpa using all.symm⟩ up
    · cases done
  | cons m rest ih =>
    by_cases zero : len = 0
    · subst zero
      rw [copyChain, if_pos rfl] at done
      cases done
      refine ⟨?_, fun _ => rfl⟩
      rintro ⟨ys, zs, -, count⟩
      unfold M_COPYALL at count
      lia
    · obtain ⟨n, length, -, unfolded⟩ := copyChain_cons mem k m rest zero copyhdr
      rw [unfolded] at done
      split at done
      · cases done
      · obtain ⟨top', copied, same⟩ := Option.map_eq_some_iff.mp done
        obtain ⟨top'', rfl, rfl⟩ := Option.map_eq_some_iff.mp same
        obtain ⟨toEnd, short⟩ := ih copied
        rw [flat_cons, List.length_append, n.length_bytes, length]
        constructor
        · intro down
          obtain ⟨-, whole, down'⟩ := toEnd_cons down
          rw [toEnd down', whole, flat_cons, List.length_append, m.length_bytes]
        · intro up
          have notAll : len ≠ M_COPYALL :=
            fun all => up ⟨[], m :: rest, rfl, by simpa using all.symm⟩
          rw [if_neg notAll] at short
          rw [short]
          · lia
          · intro down
            by_cases less : m.len ≤ len
            · rw [Nat.min_eq_right less] at down
              exact up (toEnd_of_rest less down)
            · obtain ⟨ys, zs, -, count⟩ := down
              unfold M_COPYALL at count
              lia

theorem copyChain_head {mem : Nat → Bool} {k : Nat} {top : List Mbuf} (more : len ≠ 0)
    (header : m.pkthdr.isSome) (done : copyChain mem k (m :: rest) 0 len true = some (some top)) :
    top.head?.bind Mbuf.pkthdr = if len = M_COPYALL then m.pkthdr else some (len : Int) := by
  obtain ⟨n, -, same, unfolded⟩ := copyChain_cons mem k m rest more true
  rw [unfolded] at done
  split at done
  · cases done
  · obtain ⟨top', copied, nested⟩ := Option.map_eq_some_iff.mp done
    obtain ⟨top'', rfl, rfl⟩ := Option.map_eq_some_iff.mp nested
    rw [List.head?_cons, Option.bind_some, same, copyHeader, if_pos ⟨rfl, header⟩]
    split
    · obtain ⟨total, there⟩ := Option.isSome_iff_exists.mp header
      rw [there, Option.getD_some, Nat.cast_zero, Int.sub_zero]
    · rfl

theorem mCopym_zero (mem : Nat → Bool) (m : Mbuf) (rest : List Mbuf) (len : Nat) :
    mCopym mem (m :: rest) 0 len = copyChain mem 0 (m :: rest) 0 len true := by
  unfold mCopym
  rw [if_neg (by simp)]
  simp [seek]

theorem copym_measured_iff (measured : Measured chain) (mem : Nat → Bool) (fits : len < 2 ^ 31) :
    (∀ top, mCopym mem chain 0 len = some (some top) → top ≠ [] → Measured top) ↔
      (len ≠ M_COPYALL → ToEnd chain len → (∃ k < chain.length, mem k = false) ∨
        (flat chain).length = len) := by
  obtain ⟨m, rest, rfl, header⟩ := measured.cons
  have present : m.pkthdr.isSome := by
    rw [header]
    rfl
  rw [mCopym_zero]
  constructor
  · intro kept notAll down
    by_contra neither
    push Not at neither
    obtain ⟨memory, differ⟩ := neither
    obtain ⟨more, -⟩ := toEnd_cons down
    obtain ⟨top, done⟩ := (copyChain_returns mem 0 true down).mpr fun j below => by
      rw [Nat.zero_add]
      simpa using memory j below
    have head := copyChain_head more present done
    rw [if_neg notAll] at head
    have there : top ≠ [] := by
      rintro rfl
      cases head
    have right := (kept top done there).header
    rw [head, (copyChain_length done).1 down] at right
    exact differ (by exact_mod_cast (Option.some.inj right).symm)
  · intro fine top done there
    by_cases zero : len = 0
    · subst zero
      rw [copyChain, if_pos rfl] at done
      cases done
      exact absurd rfl there
    · have head := copyChain_head zero present done
      obtain ⟨toEnd, short⟩ := copyChain_length done
      by_cases all : len = M_COPYALL
      · have whole := toEnd ⟨[], m :: rest, rfl, by simpa using all.symm⟩
        rw [if_pos all, header, ← whole] at head
        refine ⟨head, ?_⟩
        rw [whole]
        exact measured.fits
      · rw [if_neg all] at head
        have length : (flat top).length = len := by
          by_cases down : ToEnd (m :: rest) len
          · rcases fine all down with ⟨k, below, fails⟩ | same
            · have memory := (copyChain_returns mem 0 true down).mp ⟨top, done⟩ k below
              rw [Nat.zero_add, fails] at memory
              cases memory
            · exact (toEnd down).trans same
          · exact short down
        refine ⟨?_, ?_⟩
        · rw [head, length]
        · rw [length]
          exact fits

/-- The header of a chain has its length after an operation in just these cases. -/
theorem keeps_length_iff (measured : Measured chain) (call : ChainCall) (typed : call.Typed) :
    KeepsLength chain call ↔ LengthFits chain call := by
  cases call with
  | adj reqLen =>
    unfold KeepsLength LengthFits
    dsimp only
    by_cases head : 0 ≤ reqLen
    · obtain ⟨n, rfl⟩ := Int.eq_ofNat_of_zero_le head
      exact ⟨fun _ => .inl head, fun _ => adj_head_measured measured n⟩
    · by_cases least : reqLen = -2 ^ 31
      · constructor
        · rintro ⟨chain', done, -⟩
          rw [mAdj, if_neg head, if_pos least] at done
          cases done
        · rintro (positive | ⟨other, -⟩)
          · exact absurd positive head
          · exact absurd least other
      · obtain ⟨n, rfl⟩ := Int.exists_eq_neg_ofNat (by omega : reqLen ≤ 0)
        have argument : 0 < n ∧ n < 2 ^ 31 := by
          have low := typed.1
          omega
        rw [Int.natAbs_neg, Int.natAbs_natCast, ← trimLast_eq_none]
        cases last : trimLast n chain with
        | none => exact ⟨fun _ => .inr ⟨least, .inr rfl⟩,
          fun _ => adj_rescan_measured measured argument last⟩
        | some chain' =>
          have done : mAdj chain (-n) = some chain' := by
            rw [mAdj, if_neg head, if_neg least, Int.natAbs_neg, Int.natAbs_natCast, last]
          have iff := adj_last_measured_iff measured argument last
          constructor
          · rintro ⟨chain'', done', after⟩
            rw [done] at done'
            cases done'
            exact .inr ⟨least, .inl (iff.mp after)⟩
          · rintro (positive | ⟨-, one | several⟩)
            · exact absurd positive head
            · exact ⟨chain', done, iff.mpr one⟩
            · cases several
  | pullup maxProtohdr mem len =>
    exact ⟨fun _ => trivial, fun _ top done => pullup_measured measured done⟩
  | copym mem len =>
    unfold KeepsLength LengthFits
    dsimp only
    by_cases negative : len < 0
    · have zero : len.toNat = 0 := Int.toNat_of_nonpos (by omega)
      constructor
      · rintro - - ⟨ys, zs, -, count⟩
        unfold M_COPYALL at count
        omega
      · intro _ top done
        rw [mCopym, if_pos (.inr (.inl negative))] at done
        cases done
    · obtain ⟨n, rfl⟩ := Int.eq_ofNat_of_zero_le (by omega : 0 ≤ len)
      have fits : n < 2 ^ 31 := by
        have high : (n : Int) < 2 ^ 31 := typed
        omega
      rw [Int.toNat_natCast, Nat.cast_inj.ne]
      exact copym_measured_iff measured mem fits

def packet : List Mbuf :=
  [{ Mbuf.get (some 20) with len := 10, inside := by decide }, { Mbuf.get none with len := 10,
                                                                                    inside := by decide }]

theorem packet_measured : Measured packet := ⟨rfl, by decide⟩

/-- Fifteen bytes are trimmed from the tail, more than the last mbuf has. -/
theorem keeps_length_packet : KeepsLength packet (.adj (-15)) ∧ (flat packet).length = 20 := by
  refine ⟨(keeps_length_iff packet_measured (.adj (-15)) ⟨by decide, by decide⟩).mpr ?_, rfl⟩
  refine .inr ⟨by decide, .inr fun m last => ?_⟩
  cases last
  decide

/-- Five bytes are trimmed from the tail, and the header says 20 still. -/
theorem loses_length : ¬ ∀ (chain : List Mbuf) (call : ChainCall), Measured chain → call.Typed →
    KeepsLength chain call := by
  intro claim
  obtain ⟨chain, done, measured⟩ := claim packet (.adj (-5)) packet_measured ⟨by decide, by decide⟩
  have header :
      ((mAdj packet (-5)).any fun chain => decide (chain.head?.bind Mbuf.pkthdr = some 20 ∧
      (flat chain).length = 15)) = true := by
    decide
  rw [done] at header
  obtain ⟨same, length⟩ := of_decide_eq_true header
  have right := measured.header
  rw [same, length] at right
  exact absurd right (by decide)

end Measured

end FreeBsd.Kern.UipcMbuf
