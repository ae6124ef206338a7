import FreeBsd.Lib.Trace
import FreeBsd.Net.SlCodec
import Mathlib.Data.Fintype.Card

/-! Compression followed by decompression. The two sides stay in step: the header saved
for a connection on the receiving side is the one on the sending side, less its IP
checksum, so the numbers sent as differences come out as they went in. -/
namespace FreeBsd.Net.Slcompress

open FreeBsd.Lib

section Locate

/-- The connection states from the latest used on, with `last_cs` at the end. -/
structure SlCompress.Order (comp : SlCompress) (order : List (Fin MAX_STATES)) : Prop where
  ring : ∃ others, order = others ++ [comp.lastCs] ∧
    Ring (fun i => (comp.tstate i).next) comp.lastCs others
  every : ∀ i, i ∈ order

theorem SlCompress.Order.nodup {comp : SlCompress} {order : List (Fin MAX_STATES)}
    (ordered : comp.Order order) : order.Nodup := by
  obtain ⟨others, rfl, ring⟩ := ordered.ring
  exact (List.perm_append_singleton _ _).nodup_iff.mpr ring.nodup

structure SlCompress.Agrees (comp comp' : SlCompress) : Prop where
  lastXmit : comp'.lastXmit = comp.lastXmit
  ip : ∀ i, (comp'.tstate i).ip = (comp.tstate i).ip
  id : ∀ i, (comp'.tstate i).id = (comp.tstate i).id

theorem SlCompress.Agrees.refl (comp : SlCompress) : comp.Agrees comp :=
  ⟨rfl, fun _ => rfl, fun _ => rfl⟩

/-- State `cs` was moved to the front: the first of the connection, or the last of all. -/
structure SlCompress.Located (comp : SlCompress) (order : List (Fin MAX_STATES)) (ip : Hdr)
    (comp' : SlCompress) (cs : Fin MAX_STATES) (xs ys : List (Fin MAX_STATES)) : Prop where
  split : order = xs ++ cs :: ys
  ordered : comp'.Order (cs :: (xs ++ ys))
  before : ∀ x ∈ xs, sameConnection ip (comp.tstate x) = false
  oldest : sameConnection ip (comp.tstate cs) = false → ys = []
  agrees : comp.Agrees comp'

theorem SlCompress.locate_spec {comp : SlCompress} {order : List (Fin MAX_STATES)}
    (ordered : comp.Order order) (ip : Hdr) :
    ∃ comp' cs xs ys, comp.locate ip = some (comp', cs, sameConnection ip (comp.tstate cs)) ∧
      comp.Located order ip comp' cs xs ys := by
  obtain ⟨⟨others, rfl, ring⟩, every⟩ := ordered
  have reorder : ∀ {xs ys : List (Fin MAX_STATES)} {c : Fin MAX_STATES},
      others ++ [comp.lastCs] = xs ++ c :: ys → ∀ i, i ∈ c :: (xs ++ ys) := by
    intro xs ys c split i
    have member := every i
    rw [split] at member
    exact List.perm_middle.mem_iff.mp member
  have short : others.length < MAX_STATES := by
    have bound := ring.nodup.length_le_card
    rwa [List.length_cons, Fintype.card_fin] at bound
  cases others with
  | nil =>
    have first := every 0
    have second := every 1
    rw [List.nil_append, List.mem_singleton] at first second
    rw [← first] at second
    exact absurd second (by decide)
  | cons a rest =>
    have next : (comp.tstate comp.lastCs).next = a := ring.linked.1
    unfold SlCompress.locate
    simp only [next]
    by_cases here : sameConnection ip (comp.tstate a) = true
    · rw [if_pos here]
      refine ⟨comp, a, [], rest ++ [comp.lastCs], by rw [here], rfl, ?_, by simp, ?_, .refl comp⟩
      · exact ⟨⟨_, rfl, ring⟩, reorder rfl⟩
      · exact fun other => absurd here (Bool.eq_false_iff.mp other)
    · have absent : comp.lastCs ∉ rest := fun member =>
        (List.nodup_cons.mp ring.nodup).1 (List.mem_cons_of_mem _ member)
      have enough : rest.length < MAX_STATES := Nat.lt_of_succ_lt short
      rw [if_neg here]
      rcases walk_spec (fun i => sameConnection ip (comp.tstate i)) ring.linked.2 absent
        (Bool.eq_false_iff.mpr here) enough with
        ⟨xs, p, c, zs, found, hit, before, split⟩ | ⟨xs, p, missed, before, none, split⟩
      · rw [found]
        have place : (a :: rest) ++ [comp.lastCs] = (xs ++ [p]) ++ c :: zs := by
          rw [List.append_assoc]
          exact split
        rcases List.eq_nil_or_concat zs with rfl | ⟨zs, last, rfl⟩
        · obtain ⟨same, tail⟩ := List.append_inj' place rfl
          cases tail
          rw [same] at ring
          refine ⟨{ comp with lastCs := p }, comp.lastCs, xs ++ [p],
            [], by rw [hit]; exact if_pos rfl, place, ?_, before, fun _ => rfl, ⟨rfl, fun _ => rfl,
            fun _ => rfl⟩⟩
          exact ⟨⟨comp.lastCs :: xs, by simp, ring.rotate⟩, reorder place⟩
        · have ends : (a :: rest) ++ [comp.lastCs] = (xs ++ p :: c :: zs) ++ [last] := by
            rw [place]
            simp
          obtain ⟨same, tail⟩ := List.append_inj' ends rfl
          cases tail
          rw [same] at ring
          have other : c ≠ comp.lastCs := by
            rintro rfl
            exact (List.nodup_cons.mp ring.nodup).1 (by simp)
          let moved : SlCompress :=
            { comp with tstate := fun i =>
                          { comp.tstate i with
                            next := relink (fun i => (comp.tstate i).next) comp.lastCs p c i } }
          have place : (a :: rest) ++ [comp.lastCs] =
            (xs ++ [p]) ++ c :: (zs ++ [comp.lastCs]) := by
            rw [same]
            simp
          refine ⟨moved, c, xs ++ [p], zs ++ [comp.lastCs], by rw [hit]; exact if_neg other, place, ?_,
            before, fun no => absurd hit (Bool.eq_false_iff.mp no),
            ⟨rfl, fun _ => rfl, fun _ => rfl⟩⟩
          exact ⟨⟨c :: (xs ++ p :: zs), by simp [moved], ring.relink⟩, reorder place⟩
      · rw [missed]
        refine ⟨{ comp with lastCs := p }, comp.lastCs, a :: rest, [], by rw [none], rfl, ?_, ?_,
          fun _ => rfl, ⟨rfl, fun _ => rfl, fun _ => rfl⟩⟩
        · rw [split] at ring
          exact ⟨⟨comp.lastCs :: xs, by rw [split]; simp, ring.rotate⟩, reorder rfl⟩
        · rw [split]
          exact before

end Locate

section Sound

def Hdr.Compressible (ip : Hdr) : Prop :=
  ip.off &&& htons 0x3fff = 0 ∧ ip.flags &&& (TH_SYN ||| TH_FIN ||| TH_RST ||| TH_ACK) = TH_ACK

instance (ip : Hdr) : Decidable ip.Compressible := inferInstanceAs (Decidable (_ ∧ _))

/-- An outgoing TCP packet with `mlen` bytes in its first mbuf. -/
structure Packet.Sound (m : Packet) (mlen : Nat) : Prop where
  p : m.ip.p = IPPROTO_TCP
  hl : 5 ≤ m.ip.hl
  opts : m.ip.opts.length = (m.ip.hl - 5) * 4
  thOff : 5 ≤ m.ip.thOff
  thopts : m.ip.thopts.length = (m.ip.thOff - 5) * 4
  x2 : m.ip.offx2 &&& 0x0f = 0
  reserved : m.ip.flags &&& 0xc0 = 0
  len : (ntohs m.ip.len).toNat = m.ip.hlen + m.data.length
  sum : m.ip.sum = cksum { m.ip with sum := 0 }
  whole : m.ip.hlen ≤ mlen

variable {m : Packet} {mlen : Nat} (sound : m.Sound mlen)

include sound

theorem Packet.Sound.regular (compressible : m.ip.Compressible) : m.ip.Regular := by
  have bits : ∀ f : BitVec 8, f &&& 0xc0 = 0 →
      f &&& (TH_SYN ||| TH_FIN ||| TH_RST ||| TH_ACK) = TH_ACK → f &&& 0xd7 = 0x10 := by decide
  exact ⟨sound.hl, sound.opts, sound.thOff, sound.thopts, sound.x2,
    bits _ sound.reserved compressible.2, sound.p⟩

theorem Packet.Sound.long : ¬ mlen < 40 := by
  have hl := sound.hl
  have thOff := sound.thOff
  have whole := sound.whole
  unfold Hdr.hlen at whole
  omega

theorem Packet.Sound.total :
    htons (BitVec.ofNat 16 (m.data.length + m.ip.hlen)) = m.ip.len := by
  rw [Nat.add_comm, ← sound.len, BitVec.ofNat_toNat, BitVec.setWidth_eq, htons_ntohs]

theorem Packet.Sound.used : m.ip ≠ .zero := by
  intro zero
  have hl := sound.hl
  rw [zero] at hl
  exact absurd hl (by decide)

end Sound

section Send

variable {comp : SlCompress} {m : Packet} {mlen : Nat}

def SlCompress.sent (comp : SlCompress) (cs : Fin MAX_STATES) (ip : Hdr) : SlCompress :=
  { comp with lastXmit := (comp.tstate cs).id,
              tstate := Function.update comp.tstate cs { comp.tstate cs with ip := ip } }

@[simp] theorem SlCompress.sent_self (comp : SlCompress) (cs : Fin MAX_STATES) (ip : Hdr) :
    ((comp.sent cs ip).tstate cs).ip = ip := by
  simp [SlCompress.sent]

theorem SlCompress.sent_of_ne (comp : SlCompress) {cs i : Fin MAX_STATES} (other : i ≠ cs)
    (ip : Hdr) :
    (comp.sent cs ip).tstate i = comp.tstate i := by
  simp [SlCompress.sent, other]

theorem SlCompress.sent_next (comp : SlCompress) (cs i : Fin MAX_STATES) (ip : Hdr) :
    ((comp.sent cs ip).tstate i).next = (comp.tstate i).next := by
  by_cases same : i = cs
  · subst same
    simp [SlCompress.sent]
  · rw [comp.sent_of_ne same]

theorem SlCompress.sent_id (comp : SlCompress) (cs i : Fin MAX_STATES) (ip : Hdr) :
    ((comp.sent cs ip).tstate i).id = (comp.tstate i).id := by
  by_cases same : i = cs
  · subst same
    simp [SlCompress.sent]
  · rw [comp.sent_of_ne same]

theorem SlCompress.Order.sent {comp : SlCompress} {order : List (Fin MAX_STATES)}
    (ordered : comp.Order order) (cs : Fin MAX_STATES) (ip : Hdr) :
      (comp.sent cs ip).Order order := by
  obtain ⟨⟨others, split, ring⟩, every⟩ := ordered
  refine ⟨⟨others, split, ?_⟩, every⟩
  change Ring _ comp.lastCs others
  simpa only [comp.sent_next] using ring

/-- The bytes of a compressed packet, with the connection id if `c`. -/
def compressedBytes (m : Packet) (c : Bool) (id changes : Byte) (seq : List Byte) : List Byte :=
  ((changes ||| if c then NEW_C else 0) :: if c then [id] else []) ++
    (hi (ntohs m.ip.thsum) :: lo (ntohs m.ip.thsum) :: (seq ++ m.data))

theorem slCompressTcp_ip (plain : ¬ m.ip.Compressible) (cid : Bool) :
    slCompressTcp comp mlen m cid = some (comp, .ip m) := by
  unfold slCompressTcp
  by_cases fragment : m.ip.off &&& htons 0x3fff = 0
  · have control := fun ack => plain ⟨fragment, ack⟩
    rw [if_pos control, ite_self]
  · rw [if_pos (.inl fragment)]

theorem slCompressTcp_overrun {order : List (Fin MAX_STATES)} (ordered : comp.Order order)
    (sound : m.Sound mlen) (compressible : m.ip.Compressible) (big : m.ip.hlen > MAX_HDR)
    (cid : Bool) : slCompressTcp comp mlen m cid = none := by
  obtain ⟨comp', cs, xs, ys, located, _⟩ := comp.locate_spec ordered m.ip
  unfold slCompressTcp
  rw [if_neg (not_or.mpr ⟨not_not.mpr compressible.1, sound.long⟩),
    if_neg (not_not.mpr compressible.2), located]
  simp only [if_neg (Nat.not_lt.mpr sound.whole), SlCompress.store, if_pos big, Option.map_none]
  split <;> rfl

/-- What is sent of a packet of connection `cs`, in full or as its differences from the
last one. -/
inductive Sends (comp : SlCompress) (cs : Fin MAX_STATES) (m : Packet) : Frame → Prop where
  | full (new : sameConnection m.ip (comp.tstate cs) = true →
        encoding (comp.tstate cs).ip m.ip = none) :
      Sends comp cs m (.uncompressed { m with ip := { m.ip with p := (comp.tstate cs).id } })
  | short {changes : Byte} {seq : List Byte} {c : Bool}
      (same : sameConnection m.ip (comp.tstate cs) = true)
      (encoded : encoding (comp.tstate cs).ip m.ip = some (changes, seq))
      (implicit : c = false → comp.lastXmit = (comp.tstate cs).id) :
      Sends comp cs m (.compressed (compressedBytes m c (comp.tstate cs).id changes seq))

theorem slCompressTcp_sent {order : List (Fin MAX_STATES)} (ordered : comp.Order order)
    (sound : m.Sound mlen) (compressible : m.ip.Compressible) (fits : m.ip.hlen ≤ MAX_HDR)
    (cid : Bool) :
    ∃ comp' cs xs ys frame, slCompressTcp comp mlen m cid = some (comp'.sent cs m.ip, frame) ∧
      comp.Located order m.ip comp' cs xs ys ∧ Sends comp cs m frame := by
  obtain ⟨comp', cs, xs, ys, located, moved⟩ := comp.locate_spec ordered m.ip
  have whole : ¬ m.ip.hlen > mlen := Nat.not_lt.mpr sound.whole
  have stored : ¬ m.ip.hlen > MAX_HDR := Nat.not_lt.mpr fits
  unfold slCompressTcp
  rw [if_neg (not_or.mpr ⟨not_not.mpr compressible.1, sound.long⟩),
    if_neg (not_not.mpr compressible.2), located]
  simp only [if_neg whole, SlCompress.store, if_neg stored, Option.map_some, moved.agrees.ip]
  cases chosen : (if sameConnection m.ip (comp.tstate cs) = true then
    encoding (comp.tstate cs).ip m.ip else none) with
  | none =>
    refine ⟨comp', cs, xs, ys, _, rfl, moved, ?_⟩
    rw [moved.agrees.id]
    refine .full fun same => ?_
    rwa [if_pos same] at chosen
  | some r =>
    obtain ⟨changes, seq⟩ := r
    obtain ⟨same, encoded⟩ := Option.ite_none_right_eq_some.mp chosen
    by_cases explicit : cid = false ∨ comp'.lastXmit ≠ (comp'.tstate cs).id
    · refine ⟨comp', cs, xs, ys, _, by simp only [if_pos explicit]; rfl, moved, ?_⟩
      rw [moved.agrees.id]
      exact .short (c := true) same encoded (fun no => absurd no (by decide))
    · have last : comp'.lastXmit = (comp'.tstate cs).id := by
        rw [not_or, not_not] at explicit
        exact explicit.2
      have state : comp'.sent cs m.ip =
          { comp' with tstate := Function.update comp'.tstate cs { comp'.tstate cs with ip := m.ip } } := by
        rw [SlCompress.sent, ← last]
      refine ⟨comp', cs, xs, ys, _, by simp only [if_neg explicit, state]; rfl, moved, ?_⟩
      have bytes : changes = changes ||| (if false = true then NEW_C else 0) := by simp
      rw [bytes]
      refine .short (c := false) same encoded fun _ => ?_
      rw [← moved.agrees.id, ← moved.agrees.lastXmit, last]

end Send

section Receive

variable {d : SlCompress} {m : Packet} {mlen : Nat} {cs : Fin MAX_STATES} {id : Byte}

/-- The decompressor after a packet of connection `cs`. -/
def SlCompress.got (d : SlCompress) (cs : Fin MAX_STATES) (ip : Hdr) (hlen : Nat) : SlCompress :=
  { d with lastRecv := BitVec.ofNat 8 cs, toss := false,
           rstate := Function.update d.rstate cs { d.rstate cs with ip := ip, hlen := hlen } }

theorem state_index (cs : Fin MAX_STATES) : (BitVec.ofNat 8 cs).toNat = cs := by
  have bound : (cs : Nat) < 16 := cs.isLt
  rw [BitVec.toNat_ofNat]
  omega

theorem state_known (cs : Fin MAX_STATES) : (BitVec.ofNat 8 cs).toNat < MAX_STATES := by
  rw [state_index]
  exact cs.isLt

theorem state_eq (cs : Fin MAX_STATES) : ⟨(BitVec.ofNat 8 cs).toNat, state_known cs⟩ = cs :=
  Fin.ext (state_index cs)

theorem slUncompressTcp_full (sound : m.Sound mlen) (fits : m.ip.hlen ≤ MAX_HDR) :
    slUncompressTcp d (.uncompressed { m with ip := { m.ip with p := BitVec.ofNat 8 cs } }) =
      some (d.got cs { m.ip with sum := 0 } m.ip.hlen, some m) := by
  have header : { m.ip with p := IPPROTO_TCP } = m.ip := by rw [← sound.p]
  simp only [slUncompressTcp, dif_pos (state_known cs), state_eq, header,
    if_neg (Nat.not_lt.mpr fits), SlCompress.got, sound.p]

theorem slUncompressTcp_state {c : Bool} {ch : Byte} (tail : List Byte)
    (bit : decide (ch &&& NEW_C ≠ 0) = c)
    (implicit : c = false → d.lastRecv = BitVec.ofNat 8 cs ∧ d.toss = false) :
    slUncompressTcp d (.compressed ((ch :: if c then [BitVec.ofNat 8 cs] else []) ++ tail)) =
      some (({ d with lastRecv := BitVec.ofNat 8 cs, toss := false }).rebuild cs ch
        (ch :: if c then [BitVec.ofNat 8 cs] else []).length
        ((ch :: if c then [BitVec.ofNat 8 cs] else []) ++ tail)) := by
  unfold slUncompressTcp
  cases c with
  | true =>
    have second : byte ((ch :: [BitVec.ofNat 8 cs]) ++ tail) 1 = BitVec.ofNat 8 cs := rfl
    have first : byte ((ch :: [BitVec.ofNat 8 cs]) ++ tail) 0 = ch := rfl
    simp only [if_true, first, second, if_pos (of_decide_eq_true bit), dif_pos (state_known cs),
      state_eq]
    rfl
  | false =>
    obtain ⟨last, kept⟩ := implicit rfl
    have first : byte ((ch :: []) ++ tail) 0 = ch := rfl
    simp only [Bool.false_eq_true, if_false, first, if_neg (of_decide_eq_false bit), kept, last,
      dif_pos (state_known cs), state_eq]
    have state : { d with lastRecv := BitVec.ofNat 8 cs, toss := false } =
      d := by rw [← last, ← kept]
    rw [state]
    rfl

/-- The header that comes out: all of the one that went in, if the flags are. -/
def restored (old ip : Hdr) : Hdr :=
  { ip with sum := 0,
            flags := received old ip (pushed old.flags (decide (ip.flags &&& TH_PUSH ≠ 0))) }

theorem rebuild_spec {old : Hdr} {ch : Byte} {seq : List Byte} (sound : m.Sound mlen)
    (follows : Follows old m.ip) (saved : (d.rstate cs).ip = { old with sum := 0 })
    (hlen : (d.rstate cs).hlen = old.hlen) (encoded : encoding old m.ip = some (ch, seq)) (c : Bool)
    (pre : List Byte) {bytes : List Byte}
    (layout : bytes = pre ++ (hi (ntohs m.ip.thsum) :: lo (ntohs m.ip.thsum) :: (seq ++ m.data))) :
    d.rebuild cs (ch ||| if c then NEW_C else 0) pre.length bytes =
      ({ d with rstate := Function.update d.rstate cs
                            { d.rstate cs with ip := restored old m.ip } },
        some ⟨{ restored old m.ip with sum := cksum (restored old m.ip) }, m.data⟩) := by
  have length : bytes.length = pre.length + 2 + seq.length + m.data.length := by
    rw [layout]
    simp only [List.length_append, List.length_cons]
    lia
  have rest : bytes.drop (pre.length + 2 + seq.length) = m.data := by
    rw [layout, Nat.add_assoc, List.drop_append, Nat.add_comm 2]
    simp
  have inside : ¬ bytes.length < pre.length + 2 + seq.length := by lia
  have total : bytes.length - (pre.length + 2 + seq.length) + (d.rstate cs).hlen =
      m.data.length + m.ip.hlen := by
    rw [hlen, follows.hlen]
    lia
  have decoded := decodeHeader_encoding follows c encoded rfl layout
  rw [← saved, ← hlen] at decoded
  unfold SlCompress.rebuild
  simp only [decoded, if_neg inside, total, sound.total, rest, restored]

theorem slUncompressTcp_short {old : Hdr} {ch : Byte} {seq : List Byte} {c : Bool}
    (sound : m.Sound mlen) (follows : Follows old m.ip)
    (saved : (d.rstate cs).ip = { old with sum := 0 }) (hlen : (d.rstate cs).hlen = old.hlen)
    (encoded : encoding old m.ip = some (ch, seq))
    (implicit : c = false → d.lastRecv = BitVec.ofNat 8 cs ∧ d.toss = false) :
    slUncompressTcp d (.compressed (compressedBytes m c (BitVec.ofNat 8 cs) ch seq)) =
      some (d.got cs (restored old m.ip) m.ip.hlen,
        some ⟨{ restored old m.ip with sum := cksum (restored old m.ip) }, m.data⟩) := by
  unfold compressedBytes
  rw [slUncompressTcp_state _ (encoding_bit encoded c) implicit,
    rebuild_spec (d := { d with lastRecv := BitVec.ofNat 8 cs, toss := false }) sound follows saved
    hlen
      encoded c _ rfl, SlCompress.got, follows.hlen, ← hlen]

/-- The packet comes out as it went in unless a special encoding left `TH_URG` set. -/
theorem restored_eq {old : Hdr} (sound : m.Sound mlen) (follows : Follows old m.ip) :
    (⟨{ restored old m.ip with sum := cksum (restored old m.ip) }, m.data⟩ : Packet) = m ↔
      ¬ (Special old m.ip ∧ urgent old = true) := by
  rw [← received_flags follows.before.flags follows.now.flags]
  constructor
  · intro same
    exact congrArg (fun m => m.ip.flags) same
  · intro flags
    rw [restored, flags]
    simp only [← sound.sum]

end Receive

structure Link where
  comp : SlCompress
  decomp : SlCompress

def Link.init : Link := ⟨slCompressInit, slCompressInit⟩

/-- A packet handed to one end and what comes out at the other; a packet of type
`TYPE_IP` bypasses the decompressor. -/
def Link.deliver (s : Link) (m : Packet) (mlen : Nat) (cid : Bool) :
    Option (Link × Option Packet) :=
  match slCompressTcp s.comp mlen m cid with
  | none => none
  | some (comp, .ip m) => some (⟨comp, s.decomp⟩, some m)
  | some (comp, frame) =>
    (slUncompressTcp s.decomp frame).map fun r => (⟨comp, r.1⟩, r.2)

section Sync

/-- States behind an unused one are unused, and no two belong to one connection. -/
def SlCompress.Apart (comp : SlCompress) (i j : Fin MAX_STATES) : Prop :=
  (comp.tstate j).ip ≠ .zero →
    (comp.tstate i).ip ≠ .zero ∧ sameConnection (comp.tstate i).ip (comp.tstate j) = false

/-- The invariant of a line: a state of the decompressor holds the header last sent for
its connection, and the two agree on the connection that goes without saying. -/
structure Link.Sync (s : Link) : Prop where
  order : ∃ order, s.comp.Order order ∧ order.Pairwise s.comp.Apart
  id : ∀ i, (s.comp.tstate i).id = BitVec.ofNat 8 i
  saved : ∀ i, (s.comp.tstate i).ip = .zero ∨ (s.comp.tstate i).ip.Regular ∧
    (s.decomp.rstate i).ip = { (s.comp.tstate i).ip with sum := 0 } ∧
    (s.decomp.rstate i).hlen = (s.comp.tstate i).ip.hlen
  last : s.comp.lastXmit = 255 ∨ s.decomp.lastRecv = s.comp.lastXmit ∧ s.decomp.toss = false

variable {s : Link} {m : Packet} {mlen : Nat}

theorem sameConnection_iff {ip : Hdr} {cs : CState} : sameConnection ip cs = true ↔
    ip.src = cs.ip.src ∧ ip.dst = cs.ip.dst ∧ ip.ports = cs.ip.ports := decide_eq_true_iff

theorem sameConnection_trans {ip : Hdr} {cs : CState} (same : sameConnection ip cs = true)
    (other : CState) : sameConnection ip other = sameConnection cs.ip other := by
  obtain ⟨src, dst, ports⟩ := sameConnection_iff.mp same
  unfold sameConnection
  rw [src, dst, ports]

theorem slCompressInit_order :
    slCompressInit.Order [15, 14, 13, 12, 11, 10, 9, 8, 7, 6, 5, 4, 3, 2, 1, 0] := by
  refine ⟨⟨[15, 14, 13, 12, 11, 10, 9, 8, 7, 6, 5, 4, 3, 2, 1], rfl, ?_⟩, by decide⟩
  exact ⟨by simp [Linked, slCompressInit], by decide⟩

theorem Link.sync_init : Link.init.Sync := by
  refine ⟨⟨_, slCompressInit_order, ?_⟩, fun i => rfl, fun i => .inl rfl, .inl rfl⟩
  exact List.pairwise_of_forall fun i j used => absurd rfl used

theorem SlCompress.Apart.congr {comp comp' : SlCompress} {i j : Fin MAX_STATES}
    (apart : comp.Apart i j) (first : (comp'.tstate i).ip = (comp.tstate i).ip)
    (second : (comp'.tstate j).ip = (comp.tstate j).ip) : comp'.Apart i j := by
  unfold SlCompress.Apart sameConnection at *
  rwa [first, second]

theorem SlCompress.Located.kept {comp comp' : SlCompress} {order xs ys : List (Fin MAX_STATES)}
    {ip : Hdr} {cs : Fin MAX_STATES} (moved : comp.Located order ip comp' cs xs ys)
    {i : Fin MAX_STATES} (other : i ≠ cs) :
    ((comp'.sent cs ip).tstate i).ip = (comp.tstate i).ip := by
  rw [comp'.sent_of_ne other, moved.agrees.ip]

theorem SlCompress.Located.apart {comp comp' : SlCompress} {order xs ys : List (Fin MAX_STATES)}
    {ip : Hdr} {cs : Fin MAX_STATES} (moved : comp.Located order ip comp' cs xs ys)
    (apart : order.Pairwise comp.Apart) (used : ip ≠ .zero) :
    (cs :: (xs ++ ys)).Pairwise (comp'.sent cs ip).Apart := by
  have distinct := moved.ordered.nodup
  have kept : ∀ i ∈ xs ++ ys, ((comp'.sent cs ip).tstate i).ip = (comp.tstate i).ip := by
    intro i member
    refine moved.kept ?_
    rintro rfl
    exact (List.nodup_cons.mp distinct).1 member
  rw [moved.split, List.pairwise_append, List.pairwise_cons] at apart
  obtain ⟨front, ⟨behind, back⟩, across⟩ := apart
  rw [List.pairwise_cons]
  constructor
  · intro j member live
    have other : sameConnection ip (comp.tstate j) = false := by
      rcases List.mem_append.mp member with before | after
      · exact moved.before j before
      · cases same : sameConnection ip (comp.tstate cs) with
        | false =>
          rw [moved.oldest same] at after
          contradiction
        | true =>
          rw [kept j member] at live
          rw [sameConnection_trans same]
          exact (behind j after live).2
    rw [comp'.sent_self]
    refine ⟨used, ?_⟩
    rwa [sameConnection, kept j member]
  · have rest : (xs ++ ys).Pairwise comp.Apart :=
      List.pairwise_append.mpr ⟨front, back, fun x first y second =>
        across x first y (List.mem_cons_of_mem _ second)⟩
    exact rest.imp_of_mem fun first second apart => apart.congr (kept _ first) (kept _ second)

theorem Link.Sync.sent {order xs ys : List (Fin MAX_STATES)} {comp' : SlCompress}
    {cs : Fin MAX_STATES} (sync : s.Sync) (apart : order.Pairwise s.comp.Apart)
    (moved : s.comp.Located order m.ip comp' cs xs ys) (sound : m.Sound mlen)
    (compressible : m.ip.Compressible) :
    (⟨comp'.sent cs m.ip, s.decomp.got cs { m.ip with sum := 0 } m.ip.hlen⟩ : Link).Sync := by
  refine ⟨⟨_, moved.ordered.sent cs m.ip, moved.apart apart sound.used⟩, ?_, ?_, .inr ⟨?_, rfl⟩⟩
  · intro i
    rw [comp'.sent_id, moved.agrees.id, sync.id]
  · intro i
    by_cases same : i = cs
    · subst same
      refine .inr ⟨?_, ?_, ?_⟩
      · rw [comp'.sent_self]
        exact sound.regular compressible
      · simp [SlCompress.got]
      · simp [SlCompress.got]
    · have state : (s.decomp.got cs { m.ip with sum := 0 } m.ip.hlen).rstate i =
        s.decomp.rstate i := by
        simp [SlCompress.got, same]
      rw [moved.kept same, state]
      exact sync.saved i
  · have id := moved.agrees.id cs
    rw [sync.id] at id
    exact id.symm

end Sync

section Lossless

variable {s : Link} {m : Packet} {mlen : Nat}

/-- Where the code keeps its promise: the header of a packet that is not sent as it is
fits the buffer, and no special encoding is right after a packet with urgent data. -/
def Link.Meets (s : Link) (m : Packet) : Prop :=
  m.ip.Compressible → m.ip.hlen ≤ MAX_HDR ∧
    ∀ i, sameConnection m.ip (s.comp.tstate i) = true → expected (s.comp.tstate i).ip m.ip = true →
      Special (s.comp.tstate i).ip m.ip → urgent (s.comp.tstate i).ip = false

theorem Packet.Sound.expected_used (sound : m.Sound mlen) {old : Hdr}
    (tests : expected old m.ip = true) : old ≠ .zero := by
  rintro rfl
  have hl := sound.hl
  have zero : m.ip.hl = Hdr.zero.hl := by
    rw [Hdr.hl, (of_decide_eq_true tests).1]
    rfl
  rw [zero] at hl
  exact absurd hl (by decide)

theorem SlCompress.Located.only {comp comp' : SlCompress} {order xs ys : List (Fin MAX_STATES)}
    {ip : Hdr} {cs i : Fin MAX_STATES} (moved : comp.Located order ip comp' cs xs ys)
    (apart : order.Pairwise comp.Apart) (member : i ∈ order) (used : (comp.tstate i).ip ≠ .zero)
    (same : sameConnection ip (comp.tstate i) = true) : i = cs := by
  rw [moved.split] at member apart
  rcases List.mem_append.mp member with before | here
  · have other := moved.before i before
    rw [same] at other
    contradiction
  · rcases List.mem_cons.mp here with here | after
    · exact here
    · cases found : sameConnection ip (comp.tstate cs) with
      | false =>
        rw [moved.oldest found] at after
        contradiction
      | true =>
        have behind := (List.pairwise_cons.mp (List.pairwise_append.mp apart).2.1).1 i after used
        rw [← sameConnection_trans found, same] at behind
        exact absurd behind.2 (by decide)

theorem Link.meets_iff {comp' : SlCompress} {order xs ys : List (Fin MAX_STATES)}
    {cs : Fin MAX_STATES} (moved : s.comp.Located order m.ip comp' cs xs ys)
    (apart : order.Pairwise s.comp.Apart) (every : ∀ i, i ∈ order) (sound : m.Sound mlen)
    (compressible : m.ip.Compressible) (fits : m.ip.hlen ≤ MAX_HDR) :
    s.Meets m ↔ (sameConnection m.ip (s.comp.tstate cs) = true →
      expected (s.comp.tstate cs).ip m.ip = true → Special (s.comp.tstate cs).ip m.ip →
      urgent (s.comp.tstate cs).ip = false) := by
  constructor
  · exact fun meets => (meets compressible).2 cs
  · intro promise _
    refine ⟨fits, fun i same tests => ?_⟩
    have here := moved.only apart (every i) (sound.expected_used tests) same
    subst here
    exact promise same tests

theorem Link.Sync.follows {cs : Fin MAX_STATES} {r : Byte × List Byte} (sync : s.Sync)
    (sound : m.Sound mlen) (compressible : m.ip.Compressible)
    (same : sameConnection m.ip (s.comp.tstate cs) = true)
    (encoded : encoding (s.comp.tstate cs).ip m.ip = some r) :
    Follows (s.comp.tstate cs).ip m.ip ∧
      (s.decomp.rstate cs).ip = { (s.comp.tstate cs).ip with sum := 0 } ∧
      (s.decomp.rstate cs).hlen = (s.comp.tstate cs).ip.hlen := by
  obtain ⟨tests, _⟩ := Option.ite_none_right_eq_some.mp encoded
  obtain ⟨src, dst, ports⟩ := sameConnection_iff.mp same
  rcases sync.saved cs with zero | ⟨before, saved⟩
  · exact absurd zero (sound.expected_used tests)
  · exact ⟨⟨before, sound.regular compressible, src, dst, ports, tests⟩, saved⟩

theorem Link.Sync.implicit {cs : Fin MAX_STATES} (sync : s.Sync)
    (last : s.comp.lastXmit = (s.comp.tstate cs).id) :
    s.decomp.lastRecv = BitVec.ofNat 8 cs ∧ s.decomp.toss = false := by
  rw [sync.id] at last
  rcases sync.last with first | ⟨same, kept⟩
  · have index := state_index cs
    rw [← last, first] at index
    exact absurd (index ▸ cs.isLt) (by decide)
  · exact ⟨same.trans last, kept⟩

/-- One packet: it comes out as it went in if the code keeps its promise, and the two
sides stay in step, else it does not. -/
theorem Link.Sync.deliver (sync : s.Sync) (sound : m.Sound mlen) (cid : Bool) :
    (s.Meets m ∧ ∃ t, s.deliver m mlen cid = some (t, some m) ∧ t.Sync) ∨
      (¬ s.Meets m ∧ ∀ t, s.deliver m mlen cid ≠ some (t, some m)) := by
  unfold Link.deliver
  by_cases compressible : m.ip.Compressible
  · obtain ⟨order, ordered, apart⟩ := sync.order
    by_cases fits : m.ip.hlen ≤ MAX_HDR
    · obtain ⟨comp', cs, xs, ys, frame, run, moved, sends⟩ :=
        slCompressTcp_sent ordered sound compressible fits cid
      have next := sync.sent apart moved sound compressible
      rw [run, Link.meets_iff moved apart ordered.every sound compressible fits]
      cases sends with
      | full new =>
        refine .inl ⟨fun same tests found => ?_, _, ?_, next⟩
        · exact absurd (new same) (found.encoded tests)
        · simp only [sync.id, slUncompressTcp_full sound fits, Option.map_some]
      | short same encoded implicit =>
        obtain ⟨follows, saved, hlen⟩ := sync.follows sound compressible same encoded
        have received := slUncompressTcp_short sound follows saved hlen encoded
          fun c => sync.implicit (implicit c)
        have whole := restored_eq sound follows
        simp only [sync.id, received, Option.map_some]
        by_cases lost : Special (s.comp.tstate cs).ip m.ip ∧ urgent (s.comp.tstate cs).ip = true
        · refine .inr ⟨fun promise => ?_, fun t done => ?_⟩
          · have plain := promise same follows.expected lost.1
            rw [lost.2] at plain
            contradiction
          · rw [Option.some.injEq, Prod.mk.injEq, Option.some.injEq, whole] at done
            exact done.2 lost
        · refine .inl ⟨fun _ _ found => ?_, _, by rw [whole.mpr lost], ?_⟩
          · exact Bool.eq_false_iff.mpr fun set => lost ⟨found, set⟩
          · have header : restored (s.comp.tstate cs).ip m.ip = { m.ip with sum := 0 } := by
              rw [restored, (received_flags follows.before.flags follows.now.flags).mpr lost]
            rw [header]
            exact next
    · have overrun := slCompressTcp_overrun ordered sound compressible (Nat.lt_of_not_le fits) cid
      rw [overrun]
      exact .inr ⟨fun meets => fits (meets compressible).1, fun t => by simp⟩
  · rw [slCompressTcp_ip compressible]
    exact .inl ⟨fun yes => absurd yes compressible, s, rfl, sync⟩

/-- A packet and the length of its first mbuf, with compression of connection ids or not. -/
structure Outgoing where
  m : Packet
  mlen : Nat
  cid : Bool

/-- A sound packet crosses the line where the code keeps its promise. -/
def Link.Step (s : Link) (out : Outgoing) (t : Link) : Prop :=
  out.m.Sound out.mlen ∧ s.Meets out.m ∧
    ∃ result, s.deliver out.m out.mlen out.cid = some (t, result)

theorem Link.Sync.run {t : Link} {events : List Outgoing} (sync : s.Sync)
    (run : Run Link.Step s events t) : t.Sync := by
  have preserved : ∀ s out t, True → Link.Sync s → Link.Step s out t → Link.Sync t := by
    intro s out t _ sync ⟨sound, meets, result, done⟩
    rcases sync.deliver sound out.cid with ⟨_, u, arrived, next⟩ | ⟨broken, _⟩
    · rw [done] at arrived
      cases arrived
      exact next
    · exact absurd meets broken
  exact run.invariant preserved (fun _ _ => trivial) sync

/-- After any number of packets that the code keeps its promise for, the next one comes
out as it went in, byte for byte, just if the code keeps its promise for it. -/
theorem lossless {events : List Outgoing} (run : Run Link.Step .init events s)
    (sound : m.Sound mlen) (cid : Bool) :
    (∃ t, s.deliver m mlen cid = some (t, some m)) ↔ s.Meets m := by
  have sync := Link.sync_init.run run
  rcases sync.deliver sound cid with ⟨meets, t, arrived, _⟩ | ⟨broken, never⟩
  · exact iff_of_true ⟨t, arrived⟩ meets
  · exact iff_of_false (fun ⟨t, arrived⟩ => never t arrived) broken

def segment (id : BitVec 16) (seq : BitVec 32) (flags : Byte) : Packet :=
  let ip : Hdr := ⟨0x45, 0, htons 41, htons id, 0, 64, IPPROTO_TCP, 0, htonl 0x0a000001,
    htonl 0x0a000002, [], htonl 0x03ff0201, htonl seq, htonl 200, 0x50, flags, htons 4096, 0,
    htons 1, []⟩
  ⟨{ ip with sum := cksum ip }, [13]⟩

theorem segment_sound (id : BitVec 16) (seq : BitVec 32) {flags : Byte}
    (reserved : flags &&& 0xc0 = 0) : (segment id seq flags).Sound 41 := by
  have hl : (segment id seq flags).ip.hl = 5 := by
    change ((0x45 : Byte) &&& 0x0f).toNat = 5
    decide
  have thOff : (segment id seq flags).ip.thOff = 5 := by
    change ((0x50 : Byte) >>> 4).toNat = 5
    decide
  have hlen : (segment id seq flags).ip.hlen = 40 := by rw [Hdr.hlen, hl, thOff]
  refine ⟨rfl, hl.ge, by rw [hl]; rfl, thOff.ge, by rw [thOff]; rfl, ?_, reserved, ?_, rfl, ?_⟩
  · change (0x50 : Byte) &&& 0x0f = 0
    decide
  · rw [hlen]
    change (ntohs (htons 41)).toNat = 41
    decide
  · rw [hlen]
    decide

def Link.after (m : Packet) : Link := ((Link.init.deliver m 41 true).getD (.init, none)).1

theorem lossless_segments : ∃ s t, Run Link.Step .init [⟨segment 1 100 TH_ACK, 41, true⟩] s ∧
    s.deliver (segment 2 101 TH_ACK) 41 true = some (t, some (segment 2 101 TH_ACK)) := by
  have first : Link.Step .init ⟨segment 1 100 TH_ACK, 41, true⟩ (.after (segment 1 100 TH_ACK)) :=
    ⟨segment_sound _ _ (by decide), fun _ => ⟨by decide, by decide⟩, _, rfl⟩
  have run := Run.cons first (.nil _)
  have meets : (Link.after (segment 1 100 TH_ACK)).Meets (segment 2 101 TH_ACK) :=
    fun _ => ⟨by decide, by decide⟩
  obtain ⟨t, done⟩ := (lossless run (segment_sound 2 101 (by decide)) true).mpr meets
  exact ⟨_, t, run, done⟩

/-- The data that follows a segment with urgent data comes out as urgent, too. -/
theorem lossless_fails :
    ∃ s t m, Run Link.Step .init [⟨segment 1 100 (TH_ACK ||| TH_URG), 41, true⟩] s ∧
    (segment 2 101 TH_ACK).Sound 41 ∧
    s.deliver (segment 2 101 TH_ACK) 41 true = some (t, some m) ∧ m.ip.flags = TH_ACK ||| TH_URG ∧
    (segment 2 101 TH_ACK).ip.flags = TH_ACK := by
  have first : Link.Step .init ⟨segment 1 100 (TH_ACK ||| TH_URG), 41, true⟩
      (.after (segment 1 100 (TH_ACK ||| TH_URG))) :=
    ⟨segment_sound _ _ (by decide), fun _ => ⟨by decide, by decide⟩, _, rfl⟩
  exact ⟨_, _, _, .cons first (.nil _), segment_sound _ _ (by decide), rfl, by decide, rfl⟩

end Lossless

end FreeBsd.Net.Slcompress
