import FreeBsd.Netinet.Ip
import Mathlib.Data.List.TakeWhile

/-! Fragmentation followed by reassembly. The fragments of a datagram are tiles of its
payload; as long as only these arrive, the queue is the tiles seen so far, in order, and
it is complete when none is missing. -/
namespace FreeBsd.Netinet

open FreeBsd.Lib

section Offset

theorem mf_iff (x : BitVec 16) : x &&& IP_MF ≠ 0 ↔ x.getLsbD 13 = true := by
  have mask : IP_MF = BitVec.twoPow 16 13 := by decide
  rw [mask, BitVec.and_twoPow]
  cases x.getLsbD 13 with
  | false => simp
  | true => simp; decide

/-- Neither `IP_DF` nor `IP_MF` nor an offset: at most the reserved bit is set. -/
def Ip.Whole (ip : Ip) : Prop := ip.off &&& 0x7fff = 0

theorem Ip.Whole.cases {ip : Ip} (whole : ip.Whole) : ip.off = 0 ∨ ip.off = 0x8000 := by
  have low : ip.off.toNat % 2 ^ 15 = 0 := by
    have value := congrArg BitVec.toNat whole
    rw [BitVec.toNat_and] at value
    have mask : (0x7fff : BitVec 16).toNat = 2 ^ 15 - 1 := rfl
    rw [mask, Nat.and_two_pow_sub_one_eq_mod] at value
    exact value
  have bound := ip.off.isLt
  have cases : ip.off.toNat = 0 ∨ ip.off.toNat = 32768 := by lia
  rcases cases with zero | high
  · exact .inl (BitVec.eq_of_toNat_eq zero)
  · exact .inr (BitVec.eq_of_toNat_eq high)

theorem field_toNat {ip : Ip} (whole : ip.Whole) {k : Nat} (small : k < 4096) :
    ∃ b, (b = 0 ∨ b = 32768) ∧
      (BitVec.ofNat 16 k + (ip.off &&& ~~~ IP_MF)).toNat = k + b := by
  rcases whole.cases with zero | high
  · refine ⟨0, .inl rfl, ?_⟩
    have clear : (0 : BitVec 16) &&& ~~~ IP_MF = 0 := by decide
    rw [zero, clear]
    simp
    lia
  · refine ⟨32768, .inr rfl, ?_⟩
    have clear : (0x8000 : BitVec 16) &&& ~~~ IP_MF = 0x8000 := by decide
    rw [high, clear, BitVec.toNat_add, BitVec.toNat_ofNat]
    have value : (0x8000 : BitVec 16).toNat = 32768 := rfl
    rw [value]
    lia

theorem field_read (field : BitVec 16) {k b : Nat} (small : k < 4096) (base : b = 0 ∨ b = 32768)
    (value : field.toNat = k + b) (more : Bool) :
    let sent := if more = true then field ||| IP_MF else field
    (sent &&& IP_MF ≠ 0 ↔ more = true) ∧ (sent <<< 3).toInt = 8 * k := by
  have clear : field.getLsbD 13 = false := by
    rw [← BitVec.testBit_toNat, value, Nat.testBit_eq_decide_div_mod_eq]
    rcases base with rfl | rfl
    · simp
      lia
    · simp
      lia
  have shift : (field <<< 3).toInt = 8 * k := by
    have unsigned : (field <<< 3).toNat = 8 * k := by
      rw [BitVec.toNat_shiftLeft, value, Nat.shiftLeft_eq]
      lia
    rw [BitVec.toInt_eq_toNat_cond, unsigned]
    split <;> lia
  cases more with
  | false =>
    refine ⟨?_, by simpa using shift⟩
    simp only [Bool.false_eq_true, if_false, mf_iff, clear]
  | true =>
    simp only [if_true]
    refine ⟨?_, ?_⟩
    · rw [mf_iff, BitVec.getLsbD_or]
      have set : IP_MF.getLsbD 13 = true := by decide
      simp [set]
    · have gone : IP_MF <<< 3 = 0 := by decide
      rw [BitVec.shiftLeft_or_distrib, gone]
      simpa using shift

theorem fragOff_read {ip : Ip} (whole : ip.Whole) {k : Nat} (small : k < 4096) (more : Bool) :
    (fragOff ip (sizeofIp + 8 * k) more &&& IP_MF ≠ 0 ↔ more = true) ∧
      (fragOff ip (sizeofIp + 8 * k) more <<< 3).toInt = 8 * k := by
  obtain ⟨b, base, value⟩ := field_toNat whole small
  have unset : ¬ (ip.off &&& IP_MF ≠ 0) := by
    rcases whole.cases with zero | high
    · rw [zero]; decide
    · rw [high]; decide
  have at_ : (sizeofIp + 8 * k - sizeofIp) / 8 = k := by lia
  unfold fragOff
  simp only [at_, unset, if_false]
  exact field_read _ small base value more

end Offset

section Sender

structure Sent (m x : Packet) : Prop where
  hl : x.ip.hl = 5
  id : x.ip.id = m.ip.id
  src : x.ip.src = m.ip.src
  dst : x.ip.dst = m.ip.dst
  p : x.ip.p = m.ip.p
  len : x.ip.len.toInt = sizeofIp + x.data.length
  small : sizeofIp + x.data.length < 2 ^ 15

theorem Sent.frag_len {m x : Packet} (sent : Sent m x) : x.frag.len = x.data.length := by
  have small := sent.small
  unfold sizeofIp at small
  change wrap16 (x.ip.len.toInt - x.ip.hl * 4) = _
  rw [sent.len, sent.hl]
  unfold sizeofIp
  rw [wrap16_eq (by lia) (by lia)]
  lia

theorem frag_mff {x : Packet} {more : Bool} (read : x.ip.off &&& IP_MF ≠ 0 ↔ more = true) :
    x.frag.mff = more := by
  change decide (x.ip.off &&& IP_MF ≠ 0) = more
  cases more with
  | false => exact decide_eq_false fun set => Bool.false_ne_true (read.mp set)
  | true => exact decide_eq_true (read.mpr rfl)

/-- `F` is the payload of `m` from byte `o` on, cut up. -/
structure Cut (m : Packet) (o : Nat) (F : List Packet) : Prop where
  sent : ∀ x ∈ F, Sent m x
  tiles : Tiles Frag.off Frag.len o (F.map Packet.frag)
  data : F.flatMap (·.data) = m.data.drop o
  marked : ∀ A f B, F.map Packet.frag = A ++ f :: B → (f.mff = false ↔ B = [])

theorem Cut.nil {m : Packet} {o : Nat} (rest : m.data.drop o = []) : Cut m o [] := by
  refine ⟨?_, trivial, rest.symm, ?_⟩
  · intro x member
    cases member
  · intro A f B split
    have empty := congrArg List.length split
    simp at empty

theorem Cut.cons {m x : Packet} {o : Nat} {rest : List Packet} (sent : Sent m x)
    (off : x.frag.off = o) (positive : 0 < x.data.length)
    (data : x.data = (m.data.drop o).take x.data.length)
    (mark : x.frag.mff = false ↔ rest = []) (cut : Cut m (o + x.data.length) rest) :
    Cut m o (x :: rest) := by
  refine ⟨?_, ⟨off, ?_, ?_⟩, ?_, ?_⟩
  · intro y member
    rcases List.mem_cons.mp member with rfl | member
    · exact sent
    · exact cut.sent y member
  · rw [sent.frag_len]
    omega
  · have tiles := cut.tiles
    rw [Nat.cast_add] at tiles
    rw [sent.frag_len]
    exact tiles
  · rw [List.flatMap_cons, cut.data, ← List.drop_drop]
    conv_lhs => rw [data]
    rw [List.length_take]
    have bound : min x.data.length (m.data.drop o).length = x.data.length := by
      have := congrArg List.length data
      rw [List.length_take] at this
      exact this.symm
    rw [bound, List.take_append_drop]
  · intro A f B split
    cases A with
    | nil =>
      obtain ⟨rfl, rfl⟩ := List.cons_eq_cons.mp split
      rw [List.map_eq_nil_iff]
      exact mark
    | cons a A => exact cut.marked A f B (List.cons_eq_cons.mp split).2

theorem Cut.ne_nil {m : Packet} {o : Nat} {F : List Packet} (cut : Cut m o F)
    (left : o < m.data.length) : F ≠ [] := by
  intro empty
  have data := congrArg List.length cut.data
  rw [empty, List.length_drop] at data
  simp at data
  omega

variable {m : Packet} (hl : m.ip.hl = 5) (length : m.ip.len.toNat = sizeofIp + m.data.length)
  (small : m.ip.len.toNat ≤ 32767) (whole : m.ip.Whole)

include hl length small

theorem sent_of (n k : Nat) (ip : Ip) (positive : 0 < n) (inside : 8 * k + n ≤ m.data.length)
    (same : ip = { m.ip with off := ip.off, len := BitVec.ofNat 16 (n + sizeofIp) }) :
    Sent m ⟨ip, (m.data.drop (8 * k)).take n⟩ ∧
      ((m.data.drop (8 * k)).take n).length = n := by
  have count : ((m.data.drop (8 * k)).take n).length = n := by
    rw [List.length_take, List.length_drop]
    lia
  unfold sizeofIp at length same
  rw [same]
  refine ⟨⟨hl, rfl, rfl, rfl, rfl, ?_, ?_⟩, count⟩
  · simp only [count]
    rw [ofNat16_toInt (by lia)]
    unfold sizeofIp
    lia
  · simp only [count]
    unfold sizeofIp
    lia

include whole

theorem fragLoop_cut (fuel len k : Nat) (step : 0 < len) (units : len % 8 = 0)
    (inside : 8 * k ≤ m.data.length) (enough : m.data.length - 8 * k < fuel) :
    Cut m (8 * k) (fragLoop m fuel len (sizeofIp + 8 * k)) := by
  induction fuel generalizing k with
  | zero => lia
  | succ fuel ih =>
    rw [fragLoop]
    by_cases left : sizeofIp + 8 * k < m.ip.len.toNat
    · rw [if_pos left]
      have offset : sizeofIp + 8 * k - sizeofIp = 8 * k := by lia
      have slot : k < 4096 := by unfold sizeofIp at *; lia
      simp only [offset]
      by_cases last : sizeofIp + 8 * k + len ≥ m.ip.len.toNat
      · simp only [last, if_true, not_true, decide_false]
        have size : m.ip.len.toNat - (sizeofIp + 8 * k) = m.data.length - 8 * k := by lia
        rw [size]
        have done : fragLoop m fuel (m.data.length - 8 * k)
            (sizeofIp + 8 * k + (m.data.length - 8 * k)) = [] := by
          cases fuel with
          | zero => rfl
          | succ fuel => rw [fragLoop, if_neg (by lia)]
        rw [done]
        obtain ⟨read, shift⟩ := fragOff_read whole slot false
        obtain ⟨sent, count⟩ := sent_of hl length small (m.data.length - 8 * k) k
          { m.ip with off := fragOff m.ip (sizeofIp + 8 * k) false,
                      len := BitVec.ofNat 16 (m.data.length - 8 * k + sizeofIp) }
          (by lia) (by lia) rfl
        refine .cons sent shift (by rw [count]; lia) (by rw [count]) ?_ (.nil ?_)
        · rw [frag_mff read]
          simp
        · rw [count]
          exact List.drop_eq_nil_of_le (by lia)
      · simp only [last, if_false, not_false_eq_true, decide_true]
        obtain ⟨read, shift⟩ := fragOff_read whole slot true
        obtain ⟨sent, count⟩ := sent_of hl length small len k
          { m.ip with off := fragOff m.ip (sizeofIp + 8 * k) true,
                      len := BitVec.ofNat 16 (len + sizeofIp) }
          (by lia) (by lia) rfl
        have next : 8 * k + len = 8 * (k + len / 8) := by lia
        have cut := ih (k + len / 8) (by lia) (by lia)
        rw [← next, ← Nat.add_assoc] at cut
        refine .cons sent shift (by rw [count]; lia) (by rw [count]) ?_ (by rw [count]; exact cut)
        rw [frag_mff read]
        simpa using cut.ne_nil (by lia)
    · rw [if_neg left]
      exact .nil (List.drop_eq_nil_of_le (by lia))

theorem ipOutput_cut {mtu : Nat} (large : mtu < m.ip.len.toNat)
    (room : 8 ≤ (mtu - sizeofIp) / 8 * 8) :
    ∃ frags, ipOutput mtu m = .ok frags ∧ 2 ≤ frags.length ∧ Cut m 0 frags := by
  have allowed : ¬ (m.ip.off &&& IP_DF ≠ 0) := by
    rcases whole.cases with zero | high
    · rw [zero]; decide
    · rw [high]; decide
  unfold ipOutput
  rw [if_neg (by lia), if_neg allowed]
  simp only
  rw [if_neg (by lia)]
  refine ⟨_, rfl, ?_⟩
  generalize size : (mtu - sizeofIp) / 8 * 8 = len at room
  have units : len % 8 = 0 := by lia
  have fits : len < m.data.length := by unfold sizeofIp at *; lia
  have first : m.data.length - (m.ip.len.toNat - (sizeofIp + len)) = len := by lia
  rw [first]
  have slot : (0 : Nat) < 4096 := by decide
  obtain ⟨b, base, value⟩ := field_toNat whole slot
  have mask : m.ip.off &&& ~~~ IP_MF = m.ip.off := by
    rcases whole.cases with zero | high
    · rw [zero]; decide
    · rw [high]; decide
  rw [mask] at value
  have plain : m.ip.off.toNat = 0 + b := by simpa using value
  obtain ⟨read, shift⟩ := field_read m.ip.off slot base plain true
  simp only [if_true, iff_true] at read shift
  obtain ⟨sent, count⟩ := sent_of hl length small len 0
    { m.ip with len := BitVec.ofNat 16 (sizeofIp + len), off := m.ip.off ||| IP_MF }
    (by lia) (by lia) (by rw [Nat.add_comm])
  have cut := fragLoop_cut hl length small whole m.ip.len.toNat len (len / 8) (by lia) units
    (by lia) (by unfold sizeofIp at *; lia)
  have next : 8 * (len / 8) = len := by lia
  rw [next] at cut
  simp only [Nat.mul_zero, List.drop_zero] at sent count
  have several := List.length_pos_iff.mpr (cut.ne_nil fits)
  refine ⟨by rw [List.length_cons]; lia, ?_⟩
  refine .cons sent shift (by rw [count]; lia) (by rw [count]; rfl) ?_
    (by rw [count, Nat.zero_add]; exact cut)
  rw [frag_mff (iff_of_true read rfl)]
  simpa using cut.ne_nil fits

end Sender

section Receiver

theorem takeWhile_none {α : Type} {p : α → Bool} {l : List α} (none : ∀ a ∈ l, p a = false) :
    l.takeWhile p = [] ∧ l.dropWhile p = l := by
  cases l with
  | nil => exact ⟨rfl, rfl⟩
  | cons a l =>
    have first := none a List.mem_cons_self
    simp [List.takeWhile, List.dropWhile, first]

variable {F : List Frag} (tiles : Tiles Frag.off Frag.len 0 F)

include tiles

theorem span_at {A B : List Frag} {x : Frag} (split : F = A ++ x :: B) {P Q : List Frag}
    (left : ∀ a ∈ P, a ∈ A ∨ a = x) (right : ∀ b ∈ Q, b ∈ B) :
    (P ++ Q).span (fun q => decide ¬ q.off > x.off) = (P, Q) := by
  have order := tiles.ordered
  rw [split, List.pairwise_append, List.pairwise_cons] at order
  have positive := tiles.length_pos
  have before : ∀ a ∈ P, decide (¬ a.off > x.off) = true := by
    intro a member
    rw [decide_eq_true_eq]
    rcases left a member with inner | rfl
    · have bound := order.2.2 a inner x List.mem_cons_self
      have size := positive a (by simp [split, inner])
      omega
    · omega
  have after : ∀ b ∈ Q, decide (¬ b.off > x.off) = false := by
    intro b member
    rw [decide_eq_false_iff_not, not_not]
    have bound := order.2.1.1 b (right b member)
    have size := positive x (by simp [split])
    omega
  rw [List.span_eq_takeWhile_dropWhile, List.takeWhile_append_of_pos before,
    List.dropWhile_append_of_pos before, (takeWhile_none after).1, (takeWhile_none after).2,
    List.append_nil]

theorem filter_split {A B : List Frag} {x : Frag} (split : F = A ++ x :: B) :
    x ∉ A ∧ x ∉ B := by
  have order := tiles.ordered
  rw [split, List.pairwise_append, List.pairwise_cons] at order
  have size := tiles.length_pos x (by simp [split])
  constructor
  · intro member
    have bound := order.2.2 x member x List.mem_cons_self
    omega
  · intro member
    have bound := order.2.1.1 x member
    omega

theorem enqueue_seen {p : Frag → Bool} {x : Frag} (member : x ∈ F) (seen : p x = true) :
    enqueue x (F.filter p) = none := by
  obtain ⟨A, B, split⟩ := List.append_of_mem member
  have span : (F.filter p).span (fun q => decide ¬ q.off > x.off) =
      (A.filter p ++ [x], B.filter p) := by
    have list : F.filter p = (A.filter p ++ [x]) ++ B.filter p := by
      rw [split, List.filter_append, List.filter_cons_of_pos seen]
      simp
    rw [list]
    refine span_at tiles split ?_ (fun b inner => List.mem_of_mem_filter inner)
    intro a inner
    rcases List.mem_append.mp inner with inner | inner
    · exact .inl (List.mem_of_mem_filter inner)
    · exact .inr (List.mem_singleton.mp inner)
  have size := tiles.length_pos x member
  unfold enqueue
  rw [span]
  simp only [List.getLast?_append, List.getLast?_singleton, Option.some_or, trimFront]
  rw [if_pos (by omega), if_pos (by omega)]
  rfl

theorem enqueue_new {p : Frag → Bool} {x : Frag} (member : x ∈ F) (new : p x = false) :
    enqueue x (F.filter p) = some (F.filter fun y => p y || y = x) := by
  obtain ⟨A, B, split⟩ := List.append_of_mem member
  obtain ⟨notA, notB⟩ := filter_split tiles split
  have span : (F.filter p).span (fun q => decide ¬ q.off > x.off) = (A.filter p, B.filter p) := by
    have list : F.filter p = A.filter p ++ B.filter p := by
      rw [split, List.filter_append, List.filter_cons_of_neg (by simp [new])]
    rw [list]
    exact span_at tiles split (fun a inner => .inl (List.mem_of_mem_filter inner))
      (fun b inner => List.mem_of_mem_filter inner)
  have order := tiles.ordered
  rw [split, List.pairwise_append, List.pairwise_cons] at order
  have front : trimFront (A.filter p).getLast? x = some x := by
    cases last : (A.filter p).getLast? with
    | none => rfl
    | some prev =>
      have inner : prev ∈ A := List.mem_of_mem_filter (List.mem_of_getLast? last)
      have bound := order.2.2 prev inner x List.mem_cons_self
      rw [trimFront]
      exact if_neg (by omega)
  have back : trimBack x (B.filter p) = B.filter p := by
    cases rest : B.filter p with
    | nil => rfl
    | cons q t =>
      have inner : q ∈ B := List.mem_of_mem_filter (rest ▸ List.mem_cons_self)
      have bound := order.2.1.1 q inner
      rw [trimBack, if_neg (by omega)]
  have keep : ∀ l : List Frag, x ∉ l → (l.filter fun y => p y || y = x) = l.filter p := by
    intro l absent
    refine List.filter_congr fun y inner => ?_
    have differ : y ≠ x := fun same => absent (same ▸ inner)
    simp [differ]
  unfold enqueue
  rw [span]
  simp only [front, Option.map_some, back]
  rw [split, List.filter_append, List.filter_cons_of_pos (by simp), keep A notA, keep B notB]

variable (marked : ∀ A f B, F = A ++ f :: B → (f.mff = false ↔ B = []))

include marked

theorem finish_incomplete {fp : Ipq} {p : Frag → Bool} (frags : fp.frags = F.filter p)
    (missing : F.filter p ≠ F) : fp.finish = (some fp, none) := by
  unfold Ipq.finish
  split
  · rename_i next first last full _ ends
    cases more : last.mff with
    | true => rw [if_pos rfl]
    | false =>
      -- without a hole and with the last tile at its end nothing is missing
      rw [frags] at full ends
      have all : F.filter p = F := tiles.select_all
        (fun A f B split (final : (!f.mff) = true) => (marked A f B split).mp
          (by simpa using final))
        full ends (by simp [more])
      exact absurd all missing
  · rfl

theorem finish_complete {fp : Ipq} (frags : fp.frags = F) (some_ : F ≠ []) :
    ∃ first ∈ F, fp.finish = (none, some (fp.packet first ((F.map Frag.len).sum))) := by
  obtain ⟨first, rest, cons⟩ := List.exists_cons_of_ne_nil some_
  obtain ⟨front, last, snoc⟩ := List.eq_nil_or_concat F |>.resolve_left some_
  have final : last.mff = false := (marked front last [] (by simpa using snoc)).mpr rfl
  have head : F.head? = some first := by rw [cons]; rfl
  have tail : F.getLast? = some last := by rw [snoc]; simp
  refine ⟨first, List.mem_of_head? head, ?_⟩
  unfold Ipq.finish
  rw [frags, contiguous_tiles tiles, head, tail]
  simp [final]

end Receiver

section RoundTrip

def Ip.queue (ip : Ip) (frags : List Frag) : Ipq := ⟨IPFRAGTTL, ip.p, ip.id, ip.src, ip.dst, frags⟩

def withQueue (ip : Ip) (frags : List Frag) (ipq : List Ipq) : List Ipq :=
  if frags = [] then ipq else ip.queue frags :: ipq

theorem fragment_bits {off : BitVec 16} (none : off &&& ~~~ IP_DF = 0) :
    off &&& IP_MF = 0 ∧ off <<< 3 = 0 := by
  have only : off = off &&& IP_DF := by
    have all : (~~~ IP_DF ||| IP_DF) = BitVec.allOnes 16 := by decide
    have whole : off &&& (~~~ IP_DF ||| IP_DF) = off := by rw [all, BitVec.and_allOnes]
    rw [BitVec.and_or_distrib_left, none] at whole
    simpa using whole.symm
  constructor
  · have apart : IP_DF &&& IP_MF = 0 := by decide
    rw [only, BitVec.and_assoc, apart]
    exact BitVec.and_zero
  · have gone : IP_DF <<< 3 = 0 := by decide
    rw [only, BitVec.shiftLeft_and_distrib, gone]
    exact BitVec.and_zero

variable {m : Packet} {frags : List Packet} {ipq : List Ipq}

theorem Cut.fragment (cut : Cut m 0 frags) (several : 2 ≤ frags.length) {x : Packet}
    (member : x ∈ frags) : x.frag.mff = true ∨ x.frag.off ≠ 0 := by
  cases more : x.frag.mff with
  | true => exact .inl rfl
  | false =>
    obtain ⟨A, B, split⟩ := List.append_of_mem (List.mem_map_of_mem (f := Packet.frag) member)
    have last : B = [] := (cut.marked A x.frag B split).mp more
    have count : frags.length = A.length + 1 := by
      have lengths := congrArg List.length split
      simpa [last] using lengths
    obtain ⟨a, rest, cons⟩ := List.exists_cons_of_length_pos (by omega : 0 < A.length)
    have order := cut.tiles.ordered
    rw [split, List.pairwise_append] at order
    have bound := order.2.2 a (by simp [cons]) x.frag (by simp)
    have start := cut.tiles.start_le a (by simp [split, cons])
    have size := cut.tiles.length_pos a (by simp [split, cons])
    right
    intro zero
    simp only [Nat.cast_zero] at start
    omega

/-- A packet that the checks of `ipintr` let through to `ip_reass`, as it is. -/
structure Admitted (x : Packet) : Prop where
  long : ¬ x.ip.hl * 4 < sizeofIp
  enough : ¬ x.ip.len.toInt < (x.ip.hl * 4 : Nat)
  present : ¬ ((x.ip.hl * 4 : Nat) : Int) + x.data.length < x.ip.len.toInt
  data : x.data.take (x.ip.len.toInt - (x.ip.hl * 4 : Nat)).toNat = x.data
  marked : ¬ x.ip.off &&& ~~~ IP_DF = 0
  fragment : x.frag.mff = true ∨ x.frag.off ≠ 0

theorem Sent.admitted {x : Packet} (sent : Sent m x)
    (fragment : x.frag.mff = true ∨ x.frag.off ≠ 0) : Admitted x := by
  have value : x.ip.len.toInt = ((x.ip.hl * 4 : Nat) : Int) + x.data.length := by
    rw [sent.len, sent.hl]
    rfl
  refine ⟨?_, by lia, by lia, ?_, ?_, fragment⟩
  · rw [sent.hl]
    decide
  · have all : (x.ip.len.toInt - (x.ip.hl * 4 : Nat)).toNat = x.data.length := by lia
    rw [all, List.take_length]
  · intro none
    obtain ⟨clear, zero⟩ := fragment_bits none
    rcases fragment with more | later
    · have set : x.ip.off &&& IP_MF ≠ 0 := of_decide_eq_true more
      exact set clear
    · exact later (by change (x.ip.off <<< 3).toInt = 0; rw [zero]; rfl)

def Mbufs.Enough (b : Mbufs) : Prop := (b.ext = true → b.pullup = true) ∧ b.queue = true

instance (b : Mbufs) : Decidable b.Enough := inferInstanceAs (Decidable (_ ∧ _))

theorem Mbufs.Enough.pulled {b : Mbufs} (enough : b.Enough) :
    ¬ (b.ext = true ∧ ¬ b.pullup = true) :=
  fun short => short.2 (enough.1 short.1)

theorem Packet.inMbufs_short {x : Packet} {b : Mbufs}
    (short : b.ext = true → x.ip.hl * 4 ≤ max_protohdr) : x.inMbufs b = x.frag :=
  if_neg fun long => absurd long.2 (Nat.not_lt.mpr (short long.1))

variable {b : Mbufs}

theorem ipintr_first {x : Packet} (admitted : Admitted x) (mbufs : b.Enough)
    (short : x.ip.hl * 4 ≤ max_protohdr) {queues : List Ipq}
    (none_ : ∀ fp ∈ queues, fp.holds x.ip = false) :
    ipintr b queues x =
      ((ipReass true x.frag none).1.toList ++ queues, (ipReass true x.frag none).2) := by
  obtain ⟨long, enough, present, data, marked, fragment⟩ := admitted
  have all : ∀ fp ∈ queues, decide (¬ fp.holds x.ip = true) = true := by
    intro fp member
    simp [none_ fp member]
  have rest : (queues.span fun fp => decide (¬ fp.holds x.ip = true)).2 = [] := by
    rw [List.span_eq_takeWhile_dropWhile]
    exact List.dropWhile_eq_nil_iff.mpr all
  have same := Packet.inMbufs_short fun _ : b.ext = true => short
  unfold ipintr
  simp only [long, enough, present, data, marked, mbufs.pulled, mbufs.2, same, if_false]
  rw [rest]
  exact if_pos fragment

theorem ipintr_next {x : Packet} (admitted : Admitted x) (mbufs : b.Enough)
    (short : x.ip.hl * 4 ≤ max_protohdr) {fp : Ipq} {after : List Ipq}
    (holds : fp.holds x.ip = true) :
    ipintr b (fp :: after) x =
      ((ipReass true x.frag (some fp)).1.toList ++ after, (ipReass true x.frag (some fp)).2) := by
  obtain ⟨long, enough, present, data, marked, fragment⟩ := admitted
  have span : (fp :: after).span (fun fp => decide (¬ fp.holds x.ip = true)) =
    ([], fp :: after) := by
    rw [List.span_eq_takeWhile_dropWhile]
    simp [List.takeWhile, List.dropWhile, holds]
  have same := Packet.inMbufs_short fun _ : b.ext = true => short
  unfold ipintr
  simp only [long, enough, present, data, marked, mbufs.pulled, mbufs.2, same, if_false]
  rw [span]
  exact if_pos fragment

def also (p : Frag → Bool) (x : Frag) : Frag → Bool := fun y => p y || y = x

theorem Sent.holds {x : Packet} (sent : Sent m x) (fp : Ipq) : fp.holds x.ip = fp.holds m.ip := by
  simp only [Ipq.holds, sent.id, sent.src, sent.dst, sent.p]

/-- `ip_reass` on the queue of the fragments seen so far, if there is one. -/
theorem ipReass_queue (cut : Cut m 0 frags) {x : Packet} (member : x ∈ frags) (p : Frag → Bool) :
    ipReass true x.frag (if (frags.map Packet.frag).filter p = [] then none
        else some (m.ip.queue ((frags.map Packet.frag).filter p))) =
      if p x.frag = true then (some (m.ip.queue ((frags.map Packet.frag).filter p)), none)
      else (m.ip.queue ((frags.map Packet.frag).filter (also p x.frag))).finish := by
  have sent := cut.sent x member
  have inside : x.frag ∈ frags.map Packet.frag := List.mem_map_of_mem member
  cases seen : p x.frag with
  | true =>
    have some_ : (frags.map Packet.frag).filter p ≠ [] :=
      List.ne_nil_of_mem (List.mem_filter.mpr ⟨inside, seen⟩)
    rw [if_neg some_, if_pos rfl, ipReass]
    have drop := enqueue_seen cut.tiles inside seen
    simp only [Ip.queue, drop]
  | false =>
    rw [if_neg Bool.false_ne_true]
    have place := enqueue_new cut.tiles inside seen
    by_cases empty : (frags.map Packet.frag).filter p = []
    · rw [if_pos empty]
      rw [empty] at place
      have single : (frags.map Packet.frag).filter (also p x.frag) = [x.frag] :=
        (Option.some.inj place).symm
      rw [single, ipReass, if_pos rfl]
      have key : x.frag.ip = x.ip := rfl
      rw [key, sent.id, sent.src, sent.dst, sent.p]
      rfl
    · rw [if_neg empty, ipReass]
      simp only [Ip.queue, place]
      rfl

/-- One arrival: the queue holds what has been seen, and gives the datagram up when
nothing is missing. -/
theorem ipintr_arrival (cut : Cut m 0 frags) (several : 2 ≤ frags.length)
    (others : ∀ fp ∈ ipq, fp.holds m.ip = false) {x : Packet} (member : x ∈ frags)
    (mbufs : b.Enough) {p : Frag → Bool}
    (missing : (frags.map Packet.frag).filter p ≠ frags.map Packet.frag) :
    ipintr b (withQueue m.ip ((frags.map Packet.frag).filter p) ipq) x =
      (((m.ip.queue ((frags.map Packet.frag).filter (also p x.frag))).finish).1.toList ++ ipq,
        ((m.ip.queue ((frags.map Packet.frag).filter (also p x.frag))).finish).2) := by
  have sent := cut.sent x member
  have admitted := sent.admitted (cut.fragment several member)
  have short : x.ip.hl * 4 ≤ max_protohdr := by
    rw [sent.hl]
    decide
  have reass := ipReass_queue cut member p
  -- a fragment seen before changes nothing, and the scan has failed already
  have result : ipReass true x.frag (if (frags.map Packet.frag).filter p = [] then none
      else some (m.ip.queue ((frags.map Packet.frag).filter p))) =
        (m.ip.queue ((frags.map Packet.frag).filter (also p x.frag))).finish := by
    rw [reass]
    split
    · rename_i seen
      have same : (frags.map Packet.frag).filter (also p x.frag) =
          (frags.map Packet.frag).filter p := by
        refine List.filter_congr fun y _ => ?_
        by_cases equal : y = x.frag
        · simp [also, equal, seen]
        · simp [also, equal]
      rw [same]
      exact (finish_incomplete cut.tiles cut.marked rfl missing).symm
    · rfl
  unfold withQueue
  by_cases empty : (frags.map Packet.frag).filter p = []
  · rw [if_pos empty] at result ⊢
    rw [ipintr_first admitted mbufs short (fun fp inside => (sent.holds fp).trans
      (others fp inside)), result]
  · rw [if_neg empty] at result ⊢
    have mine : (m.ip.queue ((frags.map Packet.frag).filter p)).holds x.ip = true := by
      rw [sent.holds]
      simp [Ipq.holds, Ip.queue]
    rw [ipintr_next admitted mbufs short mine, result]

theorem filter_missing {last : Packet} (needed : last ∈ frags) {q : Frag → Bool}
    (missing : q last.frag = false) :
    (frags.map Packet.frag).filter q ≠ frags.map Packet.frag := by
  intro all
  have kept : last.frag ∈ (frags.map Packet.frag).filter q := by
    rw [all]
    exact List.mem_map_of_mem needed
  have chosen := (List.mem_filter.mp kept).2
  rw [missing] at chosen
  cases chosen

theorem receive_incomplete (cut : Cut m 0 frags) (several : 2 ≤ frags.length)
    (others : ∀ fp ∈ ipq, fp.holds m.ip = false) {last : Packet} (needed : last ∈ frags)
    (arrivals : List (Mbufs × Packet)) (mbufs : ∀ x ∈ arrivals, x.1.Enough)
    (inside : ∀ x ∈ arrivals, x.2 ∈ frags) (absent : ∀ x ∈ arrivals, x.2.frag ≠ last.frag)
    (p : Frag → Bool) (before : p last.frag = false) :
    ∃ q : Frag → Bool, q last.frag = false ∧
      (∀ f, q f = true ↔ p f = true ∨ ∃ x ∈ arrivals, x.2.frag = f) ∧
      (receive (withQueue m.ip ((frags.map Packet.frag).filter p) ipq) arrivals).1 =
        withQueue m.ip ((frags.map Packet.frag).filter q) ipq ∧
      ∀ r ∈ (receive (withQueue m.ip ((frags.map Packet.frag).filter p) ipq) arrivals).2,
        r = none := by
  induction arrivals generalizing p with
  | nil =>
    refine ⟨p, before, ?_, rfl, ?_⟩
    · intro f
      simp
    · intro r member
      cases member
  | cons x arrivals ih =>
    obtain ⟨b, x⟩ := x
    have other : x.frag ≠ last.frag := absent _ List.mem_cons_self
    have after : also p x.frag last.frag = false := by simp [also, before, other.symm]
    have step := ipintr_arrival cut several others (inside _ List.mem_cons_self)
      (mbufs _ List.mem_cons_self)
      (filter_missing needed before)
    rw [finish_incomplete cut.tiles cut.marked rfl (filter_missing needed after)] at step
    have queue : (some (m.ip.queue ((frags.map Packet.frag).filter (also p x.frag)))).toList ++
        ipq =
        withQueue m.ip ((frags.map Packet.frag).filter (also p x.frag)) ipq := by
      have some_ : (frags.map Packet.frag).filter (also p x.frag) ≠ [] := by
        have kept : x.frag ∈ (frags.map Packet.frag).filter (also p x.frag) :=
          List.mem_filter.mpr ⟨List.mem_map_of_mem (inside _ List.mem_cons_self), by simp [also]⟩
        exact List.ne_nil_of_mem kept
      rw [withQueue, if_neg some_]
      rfl
    rw [queue] at step
    obtain ⟨q, missing, seen, left, none⟩ :=
      ih (fun y member => mbufs y (List.mem_cons_of_mem _ member))
      (fun y member => inside y (List.mem_cons_of_mem _ member))
      (fun y member => absent y (List.mem_cons_of_mem _ member)) (also p x.frag) after
    refine ⟨q, missing, ?_, ?_, ?_⟩
    · intro f
      rw [seen]
      simp only [also, Bool.or_eq_true, decide_eq_true_eq, List.mem_cons, exists_eq_or_imp]
      rw [or_assoc, eq_comm (a := f) (b := x.frag)]
    · rw [receive]
      simp only [step]
      exact left
    · intro r member
      rw [receive] at member
      simp only [step] at member
      rcases List.mem_cons.mp member with rfl | member
      · rfl
      · exact none r member

theorem frag_injective {x y : Packet} (same : x.frag = y.frag) : x = y := by
  have ip : x.ip = y.ip := congrArg Frag.ip same
  have data : x.data = y.data := congrArg Frag.data same
  cases x
  cases y
  cases ip
  cases data
  rfl

theorem sum_len {F : List Packet} (sent : ∀ x ∈ F, Sent m x) :
    ((F.map Packet.frag).map Frag.len).sum = ((F.flatMap (·.data)).length : Int) := by
  induction F with
  | nil => rfl
  | cons x F ih =>
    have first := (sent x List.mem_cons_self).frag_len
    simp only [List.map_cons, List.sum_cons, List.flatMap_cons, List.length_append, first,
      ih fun y member => sent y (List.mem_cons_of_mem _ member)]
    omega

/-- The fragments of a datagram, in any order and with any duplicates: nothing comes out
before the last missing one, and then the payload, once. -/
theorem fragment_reassemble (mtu : Nat) (m : Packet) (options : m.ip.hl = 5) (whole : m.ip.Whole)
    (length : m.ip.len.toNat = sizeofIp + m.data.length) (small : m.ip.len.toNat ≤ 32767)
    (large : mtu < m.ip.len.toNat) (room : 8 ≤ (mtu - sizeofIp) / 8 * 8) :
    ∃ frags, ipOutput mtu m = .ok frags ∧
      ∀ (ipq : List Ipq) (arrivals : List (Mbufs × Packet)) (b : Mbufs) (last : Packet),
        (∀ x ∈ arrivals, x.1.Enough) → b.Enough →
        (∀ fp ∈ ipq, fp.holds m.ip = false) → (∀ x ∈ arrivals, x.2 ∈ frags) → last ∈ frags →
        last ∉ arrivals.map Prod.snd → (∀ x ∈ frags, x ∈ arrivals.map Prod.snd ∨ x = last) →
        (∀ r ∈ (receive ipq arrivals).2, r = none) ∧
        ∃ d : Packet, ipintr b (receive ipq arrivals).1 last = (ipq, some d) ∧
          d.data = m.data ∧ d.ip.len.toNat = m.data.length := by
  obtain ⟨frags, output, several, cut⟩ := ipOutput_cut options length small whole large room
  refine ⟨frags, output, ?_⟩
  intro ipq arrivals b last mbufs mbufs' others inside needed absent rest
  have start : withQueue m.ip ((frags.map Packet.frag).filter fun _ => false) ipq = ipq := by
    rw [List.filter_false, withQueue, if_pos rfl]
  obtain ⟨q, missing, seen, left, none⟩ := receive_incomplete cut several others needed arrivals
    mbufs inside (fun x member same => absent (frag_injective same ▸ List.mem_map_of_mem member))
    (fun _ => false) rfl
  rw [start] at left none
  refine ⟨none, ?_⟩
  have all : (frags.map Packet.frag).filter (also q last.frag) = frags.map Packet.frag := by
    rw [List.filter_eq_self]
    intro f member
    obtain ⟨x, found, rfl⟩ := List.mem_map.mp member
    rcases rest x found with arrived | rfl
    · obtain ⟨y, here, rfl⟩ := List.mem_map.mp arrived
      simp [also, (seen y.2.frag).mpr (.inr ⟨y, here, rfl⟩)]
    · simp [also]
  have some_ : frags.map Packet.frag ≠ [] := List.ne_nil_of_mem (List.mem_map_of_mem needed)
  obtain ⟨first, among, complete⟩ := finish_complete cut.tiles cut.marked
    (rfl : (m.ip.queue (frags.map Packet.frag)).frags = frags.map Packet.frag) some_
  have arrival := ipintr_arrival cut several others needed mbufs' (filter_missing needed missing)
  rw [all, complete] at arrival
  rw [left]
  refine ⟨_, arrival, ?_, ?_⟩
  · obtain ⟨x, _, rfl⟩ := List.mem_map.mp among
    change (frags.map Packet.frag).flatMap (·.data) = m.data
    rw [List.flatMap_map]
    exact cut.data
  · change (BitVec.ofInt 16 ((frags.map Packet.frag).map Frag.len).sum).toNat = m.data.length
    rw [sum_len cut.sent, cut.data, List.drop_zero, BitVec.ofInt_natCast, BitVec.toNat_ofNat]
    unfold sizeofIp at length
    omega

def small : Packet := ⟨⟨5, 0, 40, 7, 0, 64, 17, 1, 2⟩, (List.range 20).map (BitVec.ofNat 8)⟩

def plainMbufs : Mbufs := ⟨false, false, true, []⟩

def clusterMbufs : Mbufs := ⟨true, true, true, []⟩

theorem fragment_reassemble_small : ∃ a b c d, ipOutput 28 small = .ok [a, b, c] ∧
    (∀ r ∈ (receive [] [(plainMbufs, c), (clusterMbufs, b), (clusterMbufs, c)]).2, r = none) ∧
      ipintr plainMbufs (receive [] [(plainMbufs, c), (clusterMbufs, b), (clusterMbufs, c)]).1 a =
        ([], some d) ∧
      d.data = small.data := by
  obtain ⟨frags, output, run⟩ := fragment_reassemble 28 small rfl rfl rfl (by decide) (by decide)
    (by decide)
  have cut : ∃ a b c, ipOutput 28 small = .ok [a, b, c] ∧ a ≠ b ∧ a ≠ c :=
    ⟨_, _, _, rfl, by decide, by decide⟩
  obtain ⟨a, b, c, three, ab, ac⟩ := cut
  cases output.symm.trans three
  obtain ⟨none, d, last, data, _⟩ := run [] [(plainMbufs, c), (clusterMbufs, b), (clusterMbufs, c)]
    plainMbufs a
    (by simp only [List.forall_mem_cons]; decide) (by decide) (by simp) (by simp) (by simp)
      (by simp [ab, ac]) (by simp)
  exact ⟨a, b, c, d, three, none, last, data⟩

end RoundTrip

end FreeBsd.Netinet
