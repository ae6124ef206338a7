import FreeBsd.Net.Bpf
import Mathlib.Data.Int.Basic
import Mathlib.Tactic.Linarith

/-! Chains of mbufs, `kern/uipc_mbuf.c`. A chain is the list of its mbufs, each with its
storage, `m_dat` or a cluster, and the window of it that holds data. The types and the
flags that are only handed on are left out. What a new mbuf holds is not specified; it
reads as zeros here. -/
namespace FreeBsd.Kern.UipcMbuf

open FreeBsd.Net (Byte)

def MSIZE : Nat := 128
def MLEN : Nat := 108
def MHLEN : Nat := 100
def MCLBYTES : Nat := 2048
def M_COPYALL : Nat := 1000000000
def VM_KMEM_SIZE : Nat := 16 * 1024 * 1024

/-- `struct mbuf`; `pkthdr` is `m_pkthdr.len` where `M_PKTHDR` is set. -/
structure Mbuf where
  ext : Bool
  pkthdr : Option Int
  store : List Byte
  data : Nat
  len : Nat
  size : store.length = if ext then MCLBYTES else MLEN
  inside : data + len ≤ store.length
  -- the packet header takes the first bytes of `m_dat`
  behind : ext = false → pkthdr.isSome → MLEN - MHLEN ≤ data

namespace Mbuf

def bytes (m : Mbuf) : List Byte := (m.store.drop m.data).take m.len

@[simp] theorem length_bytes (m : Mbuf) : m.bytes.length = m.len := by
  have inside := m.inside
  simp only [bytes, List.length_take, List.length_drop]
  lia

def cut (m : Mbuf) (len : Nat) (less : len ≤ m.len) : Mbuf :=
  { m with len := len, inside := by have := m.inside; omega }

def advance (m : Mbuf) (count : Nat) (less : count ≤ m.len) : Mbuf :=
  { m with data := m.data + count, len := m.len - count,
           inside := by have := m.inside; lia,
           behind := fun plain header => by have := m.behind plain header; lia }

/-- `bcopy` to the end of the data, and `m_len += count`. -/
def append (m : Mbuf) (bs : List Byte) (plain : m.ext = false)
    (fits : m.data + m.len + bs.length ≤ MLEN) : Mbuf :=
  have size : m.store.length = MLEN := by rw [m.size, plain]; rfl
  { m with store := m.store.take (m.data + m.len) ++ bs ++ m.store.drop (m.data + m.len + bs.length),
           len := m.len + bs.length,
           size := by
             rw [← m.size]
             simp only [List.length_append, List.length_take, List.length_drop]
             lia,
           inside := by
             simp only [List.length_append, List.length_take, List.length_drop]
             lia }

/-- `MGET`, with the packet header of `M_COPY_PKTHDR` if there is one. -/
def get (header : Option Int) : Mbuf where
  ext := false
  pkthdr := header
  store := List.replicate MLEN 0
  data := if header.isSome then MLEN - MHLEN else 0
  len := 0
  size := List.length_replicate
  inside := by rw [List.length_replicate]; split <;> decide
  behind := fun _ some => by rw [if_pos some]

theorem get_plain (header : Option Int) : (get header).ext = false := rfl

theorem bytes_cut (m : Mbuf) {len : Nat} (less : len ≤ m.len) :
    (m.cut len less).bytes = m.bytes.take len := by
  simp only [bytes, cut, List.take_take, Nat.min_eq_left less]

theorem bytes_advance (m : Mbuf) {count : Nat} (less : count ≤ m.len) :
    (m.advance count less).bytes = m.bytes.drop count := by
  simp only [bytes, advance, List.drop_take, List.drop_drop]

theorem bytes_append (m : Mbuf) {bs : List Byte} (plain : m.ext = false)
    (fits : m.data + m.len + bs.length ≤ MLEN) :
    (m.append bs plain fits).bytes = m.bytes ++ bs := by
  have size : m.store.length = MLEN := by rw [m.size, plain]; rfl
  have front : (m.store.take (m.data + m.len)).drop m.data = m.bytes := by
    rw [bytes, List.drop_take, Nat.add_sub_cancel_left]
  simp only [bytes, append, List.append_assoc]
  rw [List.drop_append_of_le_length (by rw [List.length_take]; omega), front, ← List.append_assoc,
    List.take_append_of_le_length (by simp)]
  exact List.take_of_length_le (by simp)

end Mbuf

def flat (chain : List Mbuf) : List Byte := chain.flatMap Mbuf.bytes

@[simp] theorem flat_nil : flat [] = [] := rfl

@[simp] theorem flat_cons (m : Mbuf) (rest : List Mbuf) : flat (m :: rest) = m.bytes ++ flat rest :=
  List.flatMap_cons

section Copy

/-- `while (off > 0)`: to the mbuf with byte `off`; `none` is the panic. -/
def seek : List Mbuf → Nat → Option (List Mbuf × Nat)
  | chain, 0 => some (chain, 0)
  | [], _ + 1 => none
  | m :: rest, off + 1 =>
    if off + 1 < m.len then some (m :: rest, off + 1) else seek rest (off + 1 - m.len)

/-- The copy of `count` bytes of `m`: of a cluster it is a reference. -/
def Mbuf.copy (m : Mbuf) (off count : Nat) (header : Option Int) (within : off + count ≤ m.len)
    (first : header.isSome → m.pkthdr.isSome) : Mbuf :=
  if cluster : m.ext = true then
    { m with pkthdr := header, data := m.data + off, len := count,
             inside := by have := m.inside; lia,
             behind := fun plain => by rw [cluster] at plain; contradiction }
  else
    (Mbuf.get header).append ((m.bytes.drop off).take count) (Mbuf.get_plain header) (by
      have inside := m.inside
      rw [m.size, if_neg cluster] at inside
      simp only [Mbuf.get, List.length_take, List.length_drop, Mbuf.length_bytes]
      split
      · have behind := m.behind (by simpa using cluster) (first (by assumption))
        lia
      · lia)

/-- `while (len > 0)` of `m_copym`. The `k`th `MGET` succeeds if `mem k`; without memory
the result is `some none`, and `none` is the panic. A copy of no bytes has no mbuf: it is
a null pointer, too. -/
def copyChain (mem : Nat → Bool) :
    Nat → List Mbuf → Nat → Nat → (copyhdr : Bool) → Option (Option (List Mbuf))
  | _, [], _, len, _ => if len = 0 ∨ len = M_COPYALL then some (some []) else none
  | k, m :: rest, off, len, copyhdr =>
    if len = 0 then some (some [])
    else if mem k = false then some none
    else
      let header : Option Int := if copyhdr ∧ m.pkthdr.isSome then
        some (if len = M_COPYALL then m.pkthdr.getD 0 - off else len) else none
      let count := min len (m.len - off)
      if within : off + count ≤ m.len then
        let n := m.copy off count header within (by
          intro some
          by_contra none
          simp [header, none] at some)
        match copyChain mem (k + 1) rest 0 (if len = M_COPYALL then len else len - count) false with
        | none => none
        | some none => some none
        | some (some chain) => some (some (n :: chain))
      else none

def mCopym (mem : Nat → Bool) (m : List Mbuf) (off0 len : Int) : Option (Option (List Mbuf)) :=
  -- `m->m_flags` is read for offset 0
  if off0 < 0 ∨ len < 0 ∨ (off0 = 0 ∧ m.isEmpty) then none
  else
    match seek m off0.toNat with
    | none => none
    | some (chain, off) => copyChain mem 0 chain off len.toNat (off0 = 0)

def copyBytes : List Mbuf → Nat → Nat → Option (List Byte)
  | [], _, len => if len = 0 then some [] else none
  | m :: rest, off, len =>
    if len = 0 then some []
    else
      let count := min (m.len - off) len
      (copyBytes rest 0 (len - count)).map ((m.bytes.drop off).take count ++ ·)

def mCopydata (m : List Mbuf) (off len : Int) : Option (List Byte) :=
  if off < 0 ∨ len < 0 then none
  else
    match seek m off.toNat with
    | none => none
    | some (chain, off) => copyBytes chain off len.toNat

end Copy

section Cat

def splat (m : Mbuf) : List Mbuf → List Mbuf
  | [] => [m]
  | n :: rest =>
    if full : m.ext = true ∨ m.data + m.len + n.len ≥ MLEN then m :: n :: rest
    else splat (m.append n.bytes (by simp at full; exact full.1) (by rw [n.length_bytes]; omega))
      rest

/-- `m_cat`, of the chain of `m` with the mbufs `next`. -/
def mCat (m : Mbuf) : (next n : List Mbuf) → List Mbuf
  | [], n => splat m n
  | m' :: rest, n => m :: mCat m' rest n

end Cat

section Adj

def int (x : Int) : Int := Int.bmod x (2 ^ 32)

/-- Trim from head; what is left of `len` comes with it. -/
def trimHead : List Mbuf → Nat → List Mbuf × Nat
  | chain, 0 => (chain, 0)
  | [], len => ([], len)
  | m :: rest, len + 1 =>
    if less : m.len ≤ len + 1 then
      let r := trimHead rest (len + 1 - m.len)
      (m.cut 0 (Nat.zero_le _) :: r.1, r.2)
    else (m.advance (len + 1) (by omega) :: rest, 0)

def Mbuf.setHeader (m : Mbuf) (f : Int → Int) : Mbuf :=
  { m with pkthdr := m.pkthdr.map f,
           behind := fun plain some => m.behind plain (by simpa using some) }

def trimLast (len : Nat) : List Mbuf → Option (List Mbuf)
  | [] => none
  | [m] =>
    if m.len ≥ len then some [(m.cut (m.len - len) (Nat.sub_le _ _)).setHeader (· - len)] else none
  | m :: m' :: rest => (trimLast len (m' :: rest)).map (m :: ·)

def truncate : List Mbuf → Int → List Mbuf
  | [], _ => []
  | m :: rest, count =>
    if (m.len : Int) ≥ count then
      m.cut (min count.toNat m.len) (Nat.min_le_right _ _) ::
        rest.map fun m => m.cut 0 (Nat.zero_le _)
    else m :: truncate rest (int (count - m.len))

def mAdj (mp : List Mbuf) (reqLen : Int) : Option (List Mbuf) :=
  if reqLen ≥ 0 then
    let r := trimHead mp reqLen.toNat
    some (r.1.modifyHead (Mbuf.setHeader · fun h => h - (reqLen - r.2)))
  else if reqLen = -2 ^ 31 then none
  else
    match trimLast reqLen.natAbs mp with
    | some chain => some chain
    | none =>
      let count := int (mp.foldl (fun count m => int (count + m.len)) 0 - reqLen.natAbs)
      let count := if count < 0 then 0 else count
      some (truncate (mp.modifyHead (Mbuf.setHeader · fun _ => count)) count)

end Adj

section Pullup

def Mbuf.dropHeader (m : Mbuf) : Mbuf :=
  { m with pkthdr := none, behind := fun _ header => by simp at header }

/-- The loop of `m_pullup`, which moves data from the chain into `m`; 0 is `some none`. -/
def pull (maxProtohdr : Nat) :
    Nat → (m : Mbuf) → m.ext = false → List Mbuf → Nat → Option (Option (List Mbuf))
  | 0, _, _, _, _ => none
  | _ + 1, m, _, [], len => some (if len > 0 then none else some [m])
  | fuel + 1, m, plain, n :: rest, len =>
    let space := MLEN - (m.data + m.len)
    let count := min (min (max len maxProtohdr) space) n.len
    have fits : m.data + m.len + (n.bytes.take count).length ≤ MLEN := by
      have inside := m.inside
      rw [m.size, plain] at inside
      simp only [Bool.false_eq_true, if_false] at inside
      simp only [List.length_take, count, space]
      lia
    let m' := m.append (n.bytes.take count) plain fits
    let n' := n.advance count (Nat.min_le_right _ _)
    let chain := if n'.len ≠ 0 then n' :: rest else rest
    if len - count > 0 ∧ chain ≠ [] then pull maxProtohdr fuel m' plain chain (len - count)
    else some (if len - count > 0 then none else some (m' :: chain))

def mPullup (maxProtohdr : Nat) (mem : Bool) (chain : List Mbuf) (len : Nat) :
    Option (Option (List Mbuf)) :=
  match chain with
  | [] => none
  | n :: rest =>
    if first : n.ext = false ∧ n.data + len < MLEN ∧ rest ≠ [] then
      if n.len ≥ len then some (some chain)
      else pull maxProtohdr (rest.length + 2) n first.1 rest (len - n.len)
    else if len > MHLEN ∨ mem = false then some none
    else
      pull maxProtohdr (rest.length + 3) (.get n.pkthdr) (Mbuf.get_plain n.pkthdr)
        (n.dropHeader :: rest) len

end Pullup

section Flat

variable {chain chain' : List Mbuf} {off off' len : Nat}

def Within (chain : List Mbuf) (off : Nat) : Prop :=
  off = 0 ∨ ∃ m rest, chain = m :: rest ∧ off < m.len

theorem seek_flat (bound : off ≤ (flat chain).length) :
    ∃ chain' off', seek chain off = some (chain', off') ∧ Within chain' off' ∧
      (flat chain').drop off' = (flat chain).drop off := by
  induction chain generalizing off with
  | nil =>
    have zero : off = 0 := Nat.le_zero.mp bound
    subst zero
    exact ⟨[], 0, rfl, .inl rfl, rfl⟩
  | cons m rest ih =>
    cases off with
    | zero => exact ⟨m :: rest, 0, by rw [seek], .inl rfl, rfl⟩
    | succ off =>
      rw [seek]
      by_cases here : off + 1 < m.len
      · exact ⟨m :: rest, off + 1, if_pos here, .inr ⟨m, rest, rfl, here⟩, rfl⟩
      · rw [flat_cons, List.length_append, m.length_bytes] at bound
        obtain ⟨chain', off', found, within, same⟩ := @ih (off + 1 - m.len) (by lia)
        refine ⟨chain', off', by rw [if_neg here, found], within, same.trans ?_⟩
        have gone : m.bytes.drop (off + 1) = [] :=
          List.drop_of_length_le (by rw [m.length_bytes]; lia)
        rw [flat_cons, List.drop_append, m.length_bytes, gone, List.nil_append]

theorem bytes_copy (m : Mbuf) {count : Nat} {header : Option Int} (within : off + count ≤ m.len)
    (first : header.isSome → m.pkthdr.isSome) :
    (m.copy off count header within first).bytes = (m.bytes.drop off).take count := by
  unfold Mbuf.copy
  split
  · simp only [Mbuf.bytes, List.drop_take, List.drop_drop, List.take_take]
    congr 1
    lia
  · rw [Mbuf.bytes_append]
    simp [Mbuf.bytes, Mbuf.get]

def requested (len : Nat) (bytes : List Byte) : List Byte :=
  if len = M_COPYALL then bytes else bytes.take len

theorem small (m : Mbuf) : m.len < M_COPYALL := by
  have inside := m.inside
  rw [m.size] at inside
  have size : (if m.ext = true then MCLBYTES else MLEN) < M_COPYALL := by split <;> decide
  omega

theorem requested_append (m : Mbuf) (bytes : List Byte) (inside : off ≤ m.len)
    (limit : len ≤ M_COPYALL) :
    (m.bytes.drop off).take (min len (m.len - off)) ++
        requested (if len = M_COPYALL then len else len - min len (m.len - off)) bytes =
      requested len ((m.bytes ++ bytes).drop off) := by
  have size := small m
  have rest : (m.bytes.drop off).length = m.len - off := by simp
  rw [List.drop_append_of_le_length (by simpa using inside)]
  by_cases all : len = M_COPYALL
  · rw [requested, requested, if_pos all, if_pos all, if_pos all]
    congr 1
    exact List.take_of_length_le (by lia)
  · have less : ¬ len - min len (m.len - off) = M_COPYALL := by lia
    have front : (m.bytes.drop off).take len = (m.bytes.drop off).take (min len (m.len - off)) := by
      rw [List.take_eq_take_min, rest]
    rw [requested, requested, if_neg all, if_neg all, if_neg less, List.take_append, rest, front]
    congr 2
    lia

theorem copyChain_flat (mem : Nat → Bool) {k : Nat} {copyhdr : Bool} (within : Within chain off)
    (limit : len ≤ M_COPYALL) (bound : len = M_COPYALL ∨ off + len ≤ (flat chain).length) :
    ∃ r, copyChain mem k chain off len copyhdr = some r ∧
      (∀ top, r = some top → flat top = requested len ((flat chain).drop off)) ∧
      (r = none → ∃ k, mem k = false) := by
  induction chain generalizing k off len copyhdr with
  | nil =>
    have zero : off = 0 := by
      rcases within with zero | ⟨m, rest, no, _⟩
      · exact zero
      · contradiction
    subst zero
    have done : len = 0 ∨ len = M_COPYALL := by
      rcases bound with all | short
      · exact .inr all
      · exact .inl (Nat.le_zero.mp (by simpa using short))
    refine ⟨some [], by rw [copyChain, if_pos done], fun top same => ?_, fun no => by contradiction⟩
    cases same
    simp [requested]
  | cons m rest ih =>
    rw [copyChain]
    by_cases none : len = 0
    · subst none
      refine ⟨some [], if_pos rfl, fun top same => ?_, fun no => by contradiction⟩
      cases same
      rfl
    · rw [if_neg none]
      by_cases failed : mem k = false
      · exact ⟨Option.none, if_pos failed, fun top no => by contradiction, fun _ => ⟨k, failed⟩⟩
      · have inside : off ≤ m.len := by
          rcases within with zero | ⟨m', rest', same, less⟩
          · lia
          · cases same
            lia
        have fits : off + min len (m.len - off) ≤ m.len := by lia
        rw [if_neg failed, dif_pos fits]
        have later : (if len = M_COPYALL then len else len - min len (m.len - off)) = M_COPYALL ∨
            0 + (if len = M_COPYALL then len else len - min len (m.len - off)) ≤
              (flat rest).length := by
          rw [flat_cons, List.length_append, m.length_bytes] at bound
          split
          · exact .inl ‹_›
          · right
            lia
        obtain ⟨r, done, copied, short⟩ :=
          @ih 0 (if len = M_COPYALL then len else len - min len (m.len - off))
            (k + 1) false (.inl rfl) (by split <;> lia) later
        rw [done]
        cases r with
        | none => exact ⟨Option.none, rfl, fun top no => by contradiction, fun _ => short rfl⟩
        | some chain =>
          refine ⟨_, rfl, fun top same => ?_, fun no => by contradiction⟩
          cases same
          rw [flat_cons, bytes_copy, copied chain rfl, List.drop_zero]
          exact requested_append m (flat rest) inside limit

theorem mCopym_flat (mem : Nat → Bool) (m : Mbuf) (next : List Mbuf) {off len : Nat}
    (limit : len ≤ M_COPYALL)
    (bound : off + len ≤ (flat (m :: next)).length ∨ len = M_COPYALL ∧
      off ≤ (flat (m :: next)).length) :
    ∃ r, mCopym mem (m :: next) off len = some r ∧
      (∀ top, r = some top → flat top = requested len ((flat (m :: next)).drop off)) ∧
      (r = none → ∃ k, mem k = false) := by
  obtain ⟨chain, off', found, within, same⟩ := @seek_flat (m :: next) off (by lia)
  have length := congrArg List.length same
  rw [List.length_drop, List.length_drop] at length
  have starts : off' ≤ (flat chain).length := by
    rcases within with zero | ⟨first, rest, cons, less⟩
    · lia
    · rw [cons, flat_cons, List.length_append, first.length_bytes]
      lia
  rw [mCopym, if_neg (by simp), Int.toNat_natCast, found, Int.toNat_natCast, ← same]
  exact copyChain_flat mem within limit (by lia)

theorem copyBytes_flat (within : Within chain off) (bound : off + len ≤ (flat chain).length) :
    copyBytes chain off len = some (((flat chain).drop off).take len) := by
  induction chain generalizing off len with
  | nil =>
    have zero : len = 0 := by
      rw [flat_nil, List.length_nil] at bound
      lia
    simp [copyBytes, zero]
  | cons m rest ih =>
    rw [copyBytes]
    by_cases none : len = 0
    · rw [if_pos none, none, List.take_zero]
    · have inside : off ≤ m.len := by
        rcases within with zero | ⟨m', rest', same, less⟩
        · lia
        · cases same
          lia
      have length : (m.bytes.drop off).length = m.len - off := by simp
      have front : (m.bytes.drop off).take len =
        (m.bytes.drop off).take (min (m.len - off) len) := by
        rw [List.take_eq_take_min, length, Nat.min_comm]
      rw [flat_cons, List.length_append, m.length_bytes] at bound
      simp only [if_neg none]
      rw [ih (.inl rfl) (by lia), Option.map_some, List.drop_zero, flat_cons,
        List.drop_append_of_le_length (by simpa using inside), List.take_append, length, front]
      congr 3
      lia

theorem mCopydata_flat (bound : off + len ≤ (flat chain).length) :
    mCopydata chain off len = some (((flat chain).drop off).take len) := by
  obtain ⟨chain', off', found, within, same⟩ := @seek_flat chain off (by lia)
  have length := congrArg List.length same
  rw [List.length_drop, List.length_drop] at length
  by_cases none : len = 0
  · subst none
    rw [mCopydata, if_neg (by simp), Int.toNat_natCast, found]
    cases chain' <;> simp [copyBytes]
  · rw [mCopydata, if_neg (by simp), Int.toNat_natCast, found, Int.toNat_natCast, ← same]
    exact copyBytes_flat within (by lia)

theorem splat_flat (m : Mbuf) (n : List Mbuf) : flat (splat m n) = m.bytes ++ flat n := by
  induction n generalizing m with
  | nil => simp [splat]
  | cons n rest ih =>
    rw [splat]
    split
    · simp
    · rw [ih, Mbuf.bytes_append, flat_cons, List.append_assoc]

theorem mCat_flat (m : Mbuf) (next n : List Mbuf) :
    flat (mCat m next n) = flat (m :: next) ++ flat n := by
  induction next generalizing m with
  | nil => simp [mCat, splat_flat]
  | cons m' rest ih => rw [mCat, flat_cons, ih, flat_cons m, List.append_assoc]

@[simp] theorem bytes_setHeader (m : Mbuf) (f : Int → Int) : (m.setHeader f).bytes = m.bytes := rfl

theorem flat_setHeader (chain : List Mbuf) (f : Int → Int) :
    flat (chain.modifyHead (Mbuf.setHeader · f)) = flat chain := by
  cases chain <;> simp

theorem trimHead_flat (chain : List Mbuf) (len : Nat) :
    flat (trimHead chain len).1 = (flat chain).drop len := by
  induction chain generalizing len with
  | nil => cases len <;> simp [trimHead]
  | cons m rest ih =>
    cases len with
    | zero => simp [trimHead]
    | succ len =>
      rw [trimHead, flat_cons, List.drop_append, m.length_bytes]
      split
      · have gone : m.bytes.drop (len + 1) = [] :=
          List.drop_of_length_le (by rw [m.length_bytes]; omega)
        simp only [flat_cons, Mbuf.bytes_cut, List.take_zero, List.nil_append, ih, gone]
      · have kept : len + 1 - m.len = 0 := by omega
        rw [flat_cons, Mbuf.bytes_advance, kept, List.drop_zero]

theorem trimLast_flat {chain : List Mbuf} {len : Nat} {chain' : List Mbuf}
    (done : trimLast len chain = some chain') :
    len ≤ (flat chain).length ∧ flat chain' = (flat chain).take ((flat chain).length - len) := by
  induction chain generalizing chain' with
  | nil => contradiction
  | cons m rest ih =>
    cases rest with
    | nil =>
      rw [trimLast, Option.ite_none_right_eq_some] at done
      obtain ⟨room, same⟩ := done
      cases same
      simp [Mbuf.bytes_cut, room]
    | cons m' rest =>
      rw [trimLast, Option.map_eq_some_iff] at done
      obtain ⟨tail, done, same⟩ := done
      cases same
      obtain ⟨room, cut⟩ := ih done
      rw [flat_cons m tail, cut, flat_cons m, List.take_append, List.length_append, m.length_bytes]
      have whole : m.bytes.take (m.len + (flat (m' :: rest)).length - len) = m.bytes :=
        List.take_of_length_le (by rw [m.length_bytes]; lia)
      refine ⟨by lia, ?_⟩
      rw [whole]
      congr 2
      lia

theorem flat_cut_zero (chain : List Mbuf) :
    flat (chain.map fun m => m.cut 0 (Nat.zero_le _)) = [] := by
  induction chain with
  | nil => rfl
  | cons m rest ih => rw [List.map_cons, flat_cons, Mbuf.bytes_cut, ih, List.take_zero,
    List.nil_append]

theorem int_eq {x : Int} (low : -2 ^ 31 ≤ x) (high : x < 2 ^ 31) : int x = x := by
  unfold int
  exact Int.bmod_eq_of_le (by omega) (by omega)

theorem truncate_flat (chain : List Mbuf) (count : Nat) (short : count ≤ (flat chain).length)
    (fits : count < 2 ^ 31) : flat (truncate chain count) = (flat chain).take count := by
  induction chain generalizing count with
  | nil => simp [truncate]
  | cons m rest ih =>
    rw [flat_cons, List.length_append, m.length_bytes] at short
    rw [truncate, flat_cons, List.take_append, m.length_bytes]
    by_cases last : (m.len : Int) ≥ count
    · have least : min (count : Int).toNat m.len = count := by lia
      have none : count - m.len = 0 := by lia
      rw [if_pos last, flat_cons, Mbuf.bytes_cut, flat_cut_zero, least, none, List.take_zero]
    · have next : int (count - m.len) = ((count - m.len : Nat) : Int) := by
        rw [int_eq] <;> lia
      have whole : m.bytes.take count = m.bytes :=
        List.take_of_length_le (by rw [m.length_bytes]; lia)
      rw [if_neg last, flat_cons, next, ih _ (by lia) (by lia), whole]

theorem int_add (x y : Int) : int (int x + y) = int (x + y) := Int.bmod_add_bmod

theorem foldl_length (chain : List Mbuf) (start : Int) :
    chain.foldl (fun count m => int (count + m.len)) (int start) =
      int (start + (flat chain).length) := by
  induction chain generalizing start with
  | nil => simp
  | cons m rest ih =>
    rw [List.foldl_cons, int_add, ih, flat_cons, List.length_append, m.length_bytes]
    congr 1
    omega

theorem mAdj_head (chain : List Mbuf) (n : Nat) :
    ∃ chain', mAdj chain n = some chain' ∧ flat chain' = (flat chain).drop n := by
  unfold mAdj
  rw [if_pos (Int.natCast_nonneg n)]
  refine ⟨_, rfl, ?_⟩
  rw [flat_setHeader, trimHead_flat, Int.toNat_natCast]

/-- Where the last mbuf has not enough, the chain is cut at what is left of its length, as
an `int`. -/
theorem mAdj_rescan {chain : List Mbuf} {n : Nat} (argument : 0 < n ∧ n < 2 ^ 31)
    (several : trimLast n chain = none) :
    ∃ header, mAdj chain (-n) = some (truncate (chain.modifyHead (Mbuf.setHeader · header))
      (if int ((flat chain).length - n) < 0 then 0 else int ((flat chain).length - n))) := by
  have sum := foldl_length chain 0
  have start : int 0 = 0 := by decide
  rw [start, Int.zero_add] at sum
  have count : int (chain.foldl (fun count m => int (count + m.len)) 0 - n) =
      int ((flat chain).length - n) := by
    rw [sum, Int.sub_eq_add_neg, int_add, ← Int.sub_eq_add_neg]
  rw [mAdj, if_neg (by lia), if_neg (by lia), Int.natAbs_neg, Int.natAbs_natCast, several, ← count]
  exact ⟨_, rfl⟩

theorem mAdj_tail (chain : List Mbuf) {n : Nat} (argument : n < 2 ^ 31)
    (fits : (flat chain).length - n < 2 ^ 31) :
    ∃ chain', mAdj chain (-n) = some chain' ∧
      flat chain' = (flat chain).take ((flat chain).length - n) := by
  by_cases zero : n = 0
  · subst zero
    obtain ⟨chain', done, same⟩ := mAdj_head chain 0
    refine ⟨chain', done, ?_⟩
    rw [same, List.drop_zero, Nat.sub_zero, List.take_length]
  · cases several : trimLast n chain with
    | some chain' =>
      rw [mAdj, if_neg (by lia), if_neg (by lia), Int.natAbs_neg, Int.natAbs_natCast, several]
      exact ⟨chain', rfl, (trimLast_flat several).2⟩
    | none =>
      obtain ⟨header, done⟩ := mAdj_rescan ⟨Nat.pos_of_ne_zero zero, argument⟩ several
      have whole : int ((flat chain).length - n) = (flat chain).length - n := by
        apply int_eq <;> lia
      have left : (if int ((flat chain).length - n) < 0 then 0 else int ((flat chain).length - n)) =
          (((flat chain).length - n : Nat) : Int) := by
        rw [whole]
        split <;> lia
      refine ⟨_, done, ?_⟩
      rw [left, truncate_flat _ _ (by rw [flat_setHeader]; lia) fits, flat_setHeader]

end Flat

section Contiguous

theorem flat_left (n : Mbuf) (rest : List Mbuf) {count : Nat} (less : count ≤ n.len) :
    n.bytes.take count ++ flat (if (n.advance count less).len ≠ 0 then n.advance count less ::
      rest else rest) =
      flat (n :: rest) := by
  have parts := List.take_append_drop count n.bytes
  split
  · rw [flat_cons, flat_cons, Mbuf.bytes_advance, ← List.append_assoc, parts]
  · rename_i gone
    have none : n.bytes.drop count = [] := by
      rw [← List.length_eq_zero_iff, List.length_drop, n.length_bytes]
      simpa [Mbuf.advance] using gone
    rw [none, List.append_nil] at parts
    rw [flat_cons, parts]

theorem pull_cons (maxProtohdr fuel : Nat) {m : Mbuf} (plain : m.ext = false) (n : Mbuf)
    (rest : List Mbuf) {len : Nat} (room : m.data + m.len + len ≤ MLEN) :
    ∃ (c : Nat) (less : c ≤ n.len) (fits : m.data + m.len + (n.bytes.take c).length ≤ MLEN),
      (c = n.len ∨ len ≤ c) ∧
      pull maxProtohdr (fuel + 1) m plain (n :: rest) len =
        if len - c > 0 ∧ (if (n.advance c less).len ≠ 0 then n.advance c less :: rest else rest) ≠
          [] then
          pull maxProtohdr fuel (m.append (n.bytes.take c) plain fits) plain
            (if (n.advance c less).len ≠ 0 then n.advance c less :: rest else rest) (len - c)
        else some (if len - c > 0 then none else some (m.append (n.bytes.take c) plain fits ::
          (if (n.advance c less).len ≠ 0 then n.advance c less :: rest else rest))) := by
  refine ⟨min (min (max len maxProtohdr) (MLEN - (m.data + m.len))) n.len, Nat.min_le_right _ _, _,
    by lia, by rw [pull]⟩

/-- The loop moves bytes from the chain to the end of `m`, until `len` of them are there. -/
theorem pull_flat {maxProtohdr fuel : Nat} {m : Mbuf} {plain : m.ext = false} {chain : List Mbuf}
    {len : Nat} (room : m.data + m.len + len ≤ MLEN) (enough : chain.length < fuel) :
    ∃ r, pull maxProtohdr fuel m plain chain len = some r ∧
      ∀ top, r = some top → flat top = m.bytes ++ flat chain ∧
        ∃ first rest, top = first :: rest ∧ m.len + len ≤ first.len := by
  induction fuel generalizing m chain len with
  | zero => lia
  | succ fuel ih =>
    cases chain with
    | nil =>
      refine ⟨_, by rw [pull], fun top same => ?_⟩
      rw [Option.ite_none_left_eq_some] at same
      obtain ⟨done, same⟩ := same
      cases same
      exact ⟨rfl, m, [], rfl, by lia⟩
    | cons n rest =>
      obtain ⟨c, less, fits, enough', unfolded⟩ := pull_cons maxProtohdr fuel plain n rest room
      have moved : (n.bytes.take c).length = c := by
        rw [List.length_take, n.length_bytes]
        lia
      have left := flat_left n rest less
      have grown : (m.append (n.bytes.take c) plain fits).len = m.len + c := by
        rw [← congrArg (m.len + ·) moved]
        rfl
      have start : (m.append (n.bytes.take c) plain fits).data = m.data := rfl
      rw [unfolded]
      by_cases more : len - c > 0
      · have whole : c = n.len := by lia
        have freed : (n.advance c less).len = 0 := by simp [Mbuf.advance, whole]
        rw [if_neg (not_not_intro freed)] at left ⊢
        by_cases last : rest = []
        · rw [if_neg (by simp [last]), if_pos more]
          exact ⟨none, rfl, fun top no => by contradiction⟩
        · have shorter : rest.length < fuel := Nat.lt_of_succ_lt_succ enough
          obtain ⟨r, done, kept⟩ := @ih (m.append (n.bytes.take c) plain fits) plain rest (len - c)
            (by rw [start, grown]; lia) shorter
          rw [if_pos ⟨more, last⟩]
          refine ⟨r, done, fun top same => ?_⟩
          obtain ⟨flat, first, rest', same, long⟩ := kept top same
          rw [flat, Mbuf.bytes_append, List.append_assoc, left]
          exact ⟨rfl, first, rest', same, by lia⟩
      · rw [if_neg (fun both => more both.1), if_neg more]
        refine ⟨_, rfl, fun top same => ?_⟩
        cases same
        rw [flat_cons, Mbuf.bytes_append, List.append_assoc, left]
        exact ⟨rfl, _, _, rfl, by lia⟩

theorem mPullup_flat (maxProtohdr : Nat) (mem : Bool) (n : Mbuf) (next : List Mbuf) (len : Nat) :
    ∃ r, mPullup maxProtohdr mem (n :: next) len = some r ∧
      ∀ top, r = some top → flat top = flat (n :: next) ∧
        ∃ first rest, top = first :: rest ∧ len ≤ first.len := by
  unfold mPullup
  by_cases here : n.ext = false ∧ n.data + len < MLEN ∧ next ≠ []
  · simp only [dif_pos here]
    by_cases already : n.len ≥ len
    · refine ⟨_, if_pos already, fun top same => ?_⟩
      cases same
      exact ⟨rfl, n, next, rfl, already⟩
    · rw [if_neg already]
      obtain ⟨r, done, kept⟩ := @pull_flat maxProtohdr (next.length + 2) n here.1 next (len - n.len)
        (by lia) (by lia)
      refine ⟨r, done, fun top same => ?_⟩
      obtain ⟨flat, first, rest, same, long⟩ := kept top same
      exact ⟨flat, first, rest, same, by lia⟩
  · simp only [dif_neg here]
    by_cases bad : len > MHLEN ∨ mem = false
    · exact ⟨none, if_pos bad, fun top no => by contradiction⟩
    · rw [if_neg bad]
      have start : (Mbuf.get n.pkthdr).data ≤ MLEN - MHLEN := by
        unfold Mbuf.get
        dsimp only
        split <;> lia
      have none : (Mbuf.get n.pkthdr).len = 0 := rfl
      have room : (Mbuf.get n.pkthdr).data + (Mbuf.get n.pkthdr).len + len ≤ MLEN := by
        simp only [MLEN, MHLEN] at *
        lia
      obtain ⟨r, done, kept⟩ := @pull_flat maxProtohdr (next.length + 3) _ (Mbuf.get_plain n.pkthdr)
        (n.dropHeader :: next) len room (by simp)
      refine ⟨r, done, fun top same => ?_⟩
      obtain ⟨flat, first, rest, same, long⟩ := kept top same
      exact ⟨flat, first, rest, same, by lia⟩

end Contiguous

section Strings

/-- Mbufs come from `kmem_map`, however many of them share a cluster. -/
def Allocated (chain : List Mbuf) : Prop := chain.length * MSIZE ≤ VM_KMEM_SIZE

theorem length_flat_le (chain : List Mbuf) : (flat chain).length ≤ chain.length * MCLBYTES := by
  induction chain with
  | nil => exact Nat.zero_le _
  | cons m rest ih =>
    have inside := m.inside
    rw [m.size] at inside
    have most : (if m.ext = true then MCLBYTES else MLEN) ≤ MCLBYTES := by split <;> decide
    rw [flat_cons, List.length_append, m.length_bytes, List.length_cons, Nat.succ_mul]
    omega

theorem Allocated.short {chain : List Mbuf} (allocated : Allocated chain) :
    (flat chain).length ≤ 2 ^ 28 := by
  have bytes := length_flat_le chain
  unfold Allocated VM_KMEM_SIZE MSIZE at allocated
  unfold MCLBYTES at bytes
  omega

/-- The operations on chains are operations on their bytes, and only `m_copym` and `m_pullup`
can fail, for want of memory or room. -/
theorem chains_are_byte_strings (mem : Nat → Bool) (get : Bool) (maxProtohdr : Nat) (m : Mbuf)
    (next n : List Mbuf) (allocated : Allocated (m :: next)) :
    (∀ off len : Nat,
      off + len ≤ (flat (m :: next)).length ∨ len = M_COPYALL ∧ off ≤ (flat (m :: next)).length →
      ∃ r, mCopym mem (m :: next) off len = some r ∧
        (∀ top, r = some top → flat top = if len = M_COPYALL then (flat (m :: next)).drop off
          else ((flat (m :: next)).drop off).take len) ∧
        (r = none → ∃ k, mem k = false)) ∧
    (∀ off len : Nat, off + len ≤ (flat (m :: next)).length →
      mCopydata (m :: next) off len = some (((flat (m :: next)).drop off).take len)) ∧
    (∀ count : Nat, ∃ chain, mAdj (m :: next) count = some chain ∧
      flat chain = (flat (m :: next)).drop (min count (flat (m :: next)).length)) ∧
    (∀ count : Nat, count < 2 ^ 31 →
      ∃ chain, mAdj (m :: next) (-count) = some chain ∧ flat chain =
        (flat (m :: next)).take ((flat (m :: next)).length - min count (flat (m :: next)).length)) ∧
    flat (mCat m next n) = flat (m :: next) ++ flat n ∧
    ∀ len, ∃ r, mPullup maxProtohdr get (m :: next) len = some r ∧
      ∀ top, r = some top → flat top = flat (m :: next) ∧
        ∃ first rest, top = first :: rest ∧ first.bytes.take len = (flat (m :: next)).take len ∧
          len ≤ first.len := by
  have short := allocated.short
  have limit (off len : Nat)
      (bound : off + len ≤ (flat (m :: next)).length ∨ len = M_COPYALL ∧
        off ≤ (flat (m :: next)).length) :
      len ≤ M_COPYALL := by
    unfold M_COPYALL at *
    omega
  refine ⟨fun off len bound => mCopym_flat mem m next (limit off len bound) bound,
    fun off len bound => mCopydata_flat bound, fun count => ?_, fun count argument => ?_,
    mCat_flat m next n, fun len => ?_⟩
  · obtain ⟨chain, done, same⟩ := mAdj_head (m :: next) count
    refine ⟨chain, done, same.trans ?_⟩
    rcases Nat.le_total count (flat (m :: next)).length with less | more
    · rw [Nat.min_eq_left less]
    · rw [Nat.min_eq_right more, List.drop_of_length_le more, List.drop_length]
  · obtain ⟨chain, done, same⟩ := mAdj_tail (m :: next) argument (by omega)
    refine ⟨chain, done, same.trans ?_⟩
    congr 1
    omega
  · obtain ⟨r, done, kept⟩ := mPullup_flat maxProtohdr get m next len
    refine ⟨r, done, fun top same => ?_⟩
    obtain ⟨all, first, rest, same, long⟩ := kept top same
    refine ⟨all, first, rest, same, ?_, long⟩
    rw [← all, same, flat_cons,
      List.take_append_of_le_length (by rw [first.length_bytes]; exact long)]

def cluster : Mbuf where
  ext := true
  pkthdr := none
  store := List.replicate MCLBYTES 0
  data := 0
  len := MCLBYTES
  size := List.length_replicate
  inside := by rw [List.length_replicate, Nat.zero_add]
  behind := fun plain => by contradiction

theorem length_two : (flat [cluster, cluster]).length = 4096 := by
  rw [flat_cons, flat_cons, flat_nil, List.append_nil, List.length_append, Mbuf.length_bytes]
  rfl

theorem chains_are_byte_strings_two :
    (∃ r, mCopym (fun _ => true) [cluster, cluster] (2000 : Nat) (100 : Nat) = some r ∧
      ∀ top, r = some top → flat top = ((flat [cluster, cluster]).drop 2000).take 100) ∧
    mCopydata [cluster, cluster] (2000 : Nat) (100 : Nat) =
      some (((flat [cluster, cluster]).drop 2000).take 100) ∧
    ∃ chain, mAdj [cluster, cluster] (-(3000 : Nat)) = some chain ∧
      flat chain = (flat [cluster, cluster]).take (4096 - min 3000 4096) := by
  obtain ⟨copym, copydata, _, adj, _⟩ :=
    chains_are_byte_strings (fun _ => true) true 40 cluster [cluster] []
      (by unfold Allocated; decide)
  rw [length_two] at copym copydata adj
  refine ⟨?_, copydata 2000 100 (by omega), adj 3000 (by omega)⟩
  obtain ⟨r, done, same, _⟩ := copym 2000 100 (.inl (by omega))
  exact ⟨r, done, fun top some => (same top some).trans (if_neg (by decide))⟩

end Strings

end FreeBsd.Kern.UipcMbuf
