import FreeBsd.Lib.Word
import FreeBsd.Net.SlCompress

/-! What the decompressor makes of a header that was sent as its differences from the
one before. -/
namespace FreeBsd.Net.Slcompress

open FreeBsd.Lib

section Order

theorem hi_append (a b : Byte) : hi (a ++ b) = a := extract_high a b

theorem lo_append (a b : Byte) : lo (a ++ b) = b := extract_low a b

theorem hi_lo (x : BitVec 16) : hi x ++ lo x = x := append_extract (v := 8) (w := 8) x

@[simp] theorem htons_ntohs (x : BitVec 16) : htons (ntohs x) = x := by
  rw [htons, ntohs, hi_append, lo_append, hi_lo]

@[simp] theorem ntohs_htons (x : BitVec 16) : ntohs (htons x) = x := htons_ntohs x

@[simp] theorem htonl_ntohl (x : BitVec 32) : htonl (ntohl x) = x := by
  have low := extract_low (ntohs (x.extractLsb' 0 16)) (ntohs (x.extractLsb' 16 16))
  have high := extract_high (ntohs (x.extractLsb' 0 16)) (ntohs (x.extractLsb' 16 16))
  unfold htonl ntohl
  rw [low, high, htons_ntohs, htons_ntohs]
  exact append_extract (v := 16) (w := 16) x

end Order

section Codec

variable {bytes pre post : List Byte}

theorem byte_append (pre tail : List Byte) (i : Nat) :
    byte (pre ++ tail) (pre.length + i) = byte tail i := by
  unfold byte
  rw [List.getD_eq_getElem?_getD, List.getD_eq_getElem?_getD,
    List.getElem?_append_right (Nat.le_add_right _ _), Nat.add_sub_cancel_left]

theorem byte_start (pre tail : List Byte) : byte (pre ++ tail) pre.length = byte tail 0 :=
  byte_append pre tail 0

theorem decode_long (n : BitVec 16) :
    decode (pre ++ (0 :: hi n :: lo n :: post)) pre.length = (n, pre.length + 3) := by
  unfold decode
  rw [byte_start, byte_append, byte_append]
  simp [byte, hi_lo]

theorem decode_short {n : BitVec 16} (small : n.toNat < 256) (nonzero : n ≠ 0) :
    decode (pre ++ (lo n :: post)) pre.length = (n, pre.length + 1) := by
  have value : (lo n).toNat = n.toNat := by
    simp [lo]
    omega
  have visible : lo n ≠ 0 := by
    intro zero
    rw [zero] at value
    exact nonzero (BitVec.eq_of_toNat_eq value.symm)
  unfold decode
  rw [byte_start]
  simp only [byte, List.getD_cons_zero, if_neg visible, Prod.mk.injEq, and_true]
  apply BitVec.eq_of_toNat_eq
  rw [BitVec.toNat_setWidth, value]
  omega

theorem decode_encode {n : BitVec 16} (nonzero : n ≠ 0) :
    decode (pre ++ (encode n ++ post)) pre.length = (n, pre.length + (encode n).length) := by
  unfold encode
  split
  · exact decode_long n
  · exact decode_short (by omega) nonzero

theorem decode_encodez (n : BitVec 16) :
    decode (pre ++ (encodez n ++ post)) pre.length = (n, pre.length + (encodez n).length) := by
  unfold encodez
  split
  · exact decode_long n
  · rename_i short
    rw [not_or] at short
    exact decode_short (by omega) short.2

end Codec

section Mask

/-- The change mask as its bits: urgent, window, ack, seq, id, push and connection. -/
def mask (u w a s i b c : Bool) : Byte :=
  (if u then NEW_U else 0) ||| (if w then NEW_W else 0) ||| (if a then NEW_A else 0) |||
    (if s then NEW_S else 0) ||| (if i then NEW_I else 0) ||| (if b then TCP_PUSH_BIT else 0) |||
    (if c then NEW_C else 0)

theorem mask_bits : ∀ u w a s i b c,
    (decide (mask u w a s i b c &&& NEW_U ≠ 0) = u ∧ decide (mask u w a s i b c &&& NEW_W ≠ 0) = w ∧
      decide (mask u w a s i b c &&& NEW_A ≠ 0) = a ∧
        decide (mask u w a s i b c &&& NEW_S ≠ 0) = s) ∧
    decide (mask u w a s i b c &&& NEW_I ≠ 0) = i ∧
    decide (mask u w a s i b c &&& TCP_PUSH_BIT ≠ 0) = b ∧
    decide (mask u w a s i b c &&& NEW_C ≠ 0) = c ∧
    decide (mask u w a s i b c &&& SPECIALS_MASK = SPECIAL_I) = (u && w && !a && s) ∧
    decide (mask u w a s i b c &&& SPECIALS_MASK = SPECIAL_D) = (u && w && a && s) := by
  decide

theorem changes_cases : ∀ u w a s,
    decide (mask u w a s false false false = SPECIAL_I) = (u && w && !a && s) ∧
    decide (mask u w a s false false false = SPECIAL_D) = (u && w && a && s) ∧
    decide (mask u w a s false false false = NEW_S ||| NEW_A) = (!u && !w && a && s) ∧
    decide (mask u w a s false false false = NEW_S) = (!u && !w && !a && s) := by
  decide

theorem mask_or : ∀ u w a s i b c,
    mask u w a s false false false ||| (if i then NEW_I else 0) |||
      (if b then TCP_PUSH_BIT else 0) ||| (if c then NEW_C else 0) = mask u w a s i b c := by
  decide

theorem flags_cases : ∀ f : BitVec 8, f &&& 0xd7 = 0x10 →
    f = 0x10 ∨ f = 0x18 ∨ f = 0x30 ∨ f = 0x38 := by
  decide

end Mask

section Fields

variable {bytes pre post : List Byte} {h : Hdr}

theorem optional_win {d : BitVec 16}
    (layout : bytes = pre ++ ((if d ≠ 0 then encode d else []) ++ post)) :
    optional (decide (d ≠ 0)) (decodeWin bytes) (h, pre.length) =
      ({ h with win := htons (ntohs h.win + d) },
        (pre ++ if d ≠ 0 then encode d else []).length) := by
  by_cases same : d = 0
  · simp [optional, same]
  · simp only [same, ne_eq, not_false_eq_true, if_true] at layout ⊢
    simp [optional, decodeWin, layout, decode_encode same]

theorem setWidth_back {d : BitVec 32} (small : d ≤ 0xffff) : (d.setWidth 16).setWidth 32 = d := by
  have bound : d.toNat ≤ 65535 := small
  apply BitVec.eq_of_toNat_eq
  rw [BitVec.toNat_setWidth, BitVec.toNat_setWidth]
  lia

theorem setWidth_ne {d : BitVec 32} (small : d ≤ 0xffff) (nonzero : d ≠ 0) :
    d.setWidth 16 ≠ 0 := by
  intro zero
  apply nonzero
  rw [← setWidth_back small, zero]
  rfl

theorem optional_ack {d : BitVec 32} (small : d ≤ 0xffff)
    (layout : bytes = pre ++ ((if d ≠ 0 then encode (d.setWidth 16) else []) ++ post)) :
    optional (decide (d ≠ 0)) (decodeAck bytes) (h, pre.length) =
      ({ h with ack := htonl (ntohl h.ack + d) },
        (pre ++ if d ≠ 0 then encode (d.setWidth 16) else []).length) := by
  by_cases same : d = 0
  · simp [optional, same]
  · simp only [same, ne_eq, not_false_eq_true, if_true] at layout ⊢
    simp [optional, decodeAck, layout, decode_encode (setWidth_ne small same), setWidth_back small]

theorem optional_seq {d : BitVec 32} (small : d ≤ 0xffff)
    (layout : bytes = pre ++ ((if d ≠ 0 then encode (d.setWidth 16) else []) ++ post)) :
    optional (decide (d ≠ 0)) (decodeSeq bytes) (h, pre.length) =
      ({ h with seq := htonl (ntohl h.seq + d) },
        (pre ++ if d ≠ 0 then encode (d.setWidth 16) else []).length) := by
  by_cases same : d = 0
  · simp [optional, same]
  · simp only [same, ne_eq, not_false_eq_true, if_true] at layout ⊢
    simp [optional, decodeSeq, layout, decode_encode (setWidth_ne small same), setWidth_back small]

theorem deltaId_low (old ip : Hdr) : (deltaId old ip).setWidth 16 = ntohs ip.id - ntohs old.id := by
  unfold deltaId
  apply BitVec.eq_of_toNat_eq
  simp only [BitVec.toNat_setWidth, BitVec.toNat_sub]
  have first := (ntohs ip.id).isLt
  have second := (ntohs old.id).isLt
  omega

theorem add_sub_self {w : Nat} (x y : BitVec w) : x + (y - x) = y := by
  rw [BitVec.add_comm, BitVec.sub_add_cancel]

theorem decode_id (old : Hdr) {ip : Hdr} (same : h.id = old.id)
    (layout : bytes = pre ++
      ((if deltaId old ip ≠ 1 then encodez ((deltaId old ip).setWidth 16) else []) ++ post)) :
    (if deltaId old ip ≠ 1 then decodeId bytes pre.length h
      else ({ h with id := htons (ntohs h.id + 1) }, pre.length)) =
      ({ h with id := ip.id },
        (pre ++
          if deltaId old ip ≠ 1 then encodez ((deltaId old ip).setWidth 16) else []).length) := by
  by_cases one : deltaId old ip = 1
  · have step : ntohs old.id + 1 = ntohs ip.id := by
      have low := deltaId_low old ip
      rw [one] at low
      have value : (1 : BitVec 32).setWidth 16 = 1 := rfl
      rw [value] at low
      rw [low, add_sub_self]
    simp only [one, ne_eq, not_true, if_false, same, step, htons_ntohs, List.append_nil]
  · simp only [one, ne_eq, not_false_eq_true, if_true] at layout ⊢
    rw [decodeId, layout, decode_encodez, deltaId_low, same, add_sub_self, htons_ntohs,
      List.length_append]

end Fields

section Header

/-- A header of a compressible packet: what the claims about its own lengths promise, no
reserved bit, and of the control bits only `TH_ACK`. -/
structure Hdr.Regular (h : Hdr) : Prop where
  hl : 5 ≤ h.hl
  opts : h.opts.length = (h.hl - 5) * 4
  thOff : 5 ≤ h.thOff
  thopts : h.thopts.length = (h.thOff - 5) * 4
  x2 : h.offx2 &&& 0x0f = 0
  flags : h.flags &&& 0xd7 = 0x10
  p : h.p = IPPROTO_TCP

theorem offx2_eq {a b : Byte} (first : a &&& 0x0f = 0) (second : b &&& 0x0f = 0)
    (same : (a >>> 4).toNat = (b >>> 4).toNat) : a = b := by
  have low : ∀ x : Byte, x &&& 0x0f = 0 → x.toNat % 16 = 0 := by
    intro x zero
    have value := congrArg BitVec.toNat zero
    rw [BitVec.toNat_and] at value
    have nibble : (0x0f : Byte).toNat = 2 ^ 4 - 1 := rfl
    rw [nibble, Nat.and_two_pow_sub_one_eq_mod] at value
    exact value
  have highA := low a first
  have highB := low b second
  rw [BitVec.toNat_ushiftRight, BitVec.toNat_ushiftRight, Nat.shiftRight_eq_div_pow,
    Nat.shiftRight_eq_div_pow] at same
  apply BitVec.eq_of_toNat_eq
  omega

theorem options_eq {a b : List Byte} {n : Nat} (first : a.length = (n - 5) * 4)
    (second : b.length = (n - 5) * 4) (same : ¬ (n > 5 ∧ a ≠ b)) : a = b := by
  by_cases more : n > 5
  · by_contra differ
    exact same ⟨more, differ⟩
  · have none : (n - 5) * 4 = 0 := by lia
    rw [none] at first second
    rw [List.length_eq_zero_iff.mp first, List.length_eq_zero_iff.mp second]

theorem window (old ip : Hdr) : htons (ntohs old.win + deltaWin old ip) = ip.win := by
  rw [deltaWin, add_sub_self, htons_ntohs]

theorem acknowledgment (old ip : Hdr) : htonl (ntohl old.ack + deltaAck old ip) = ip.ack := by
  rw [deltaAck, add_sub_self, htonl_ntohl]

theorem sequence (old ip : Hdr) : htonl (ntohl old.seq + deltaSeq old ip) = ip.seq := by
  rw [deltaSeq, add_sub_self, htonl_ntohl]

/-- What must agree for a packet to be sent compressed, and what may change. -/
structure Follows (old ip : Hdr) : Prop where
  before : old.Regular
  now : ip.Regular
  src : ip.src = old.src
  dst : ip.dst = old.dst
  ports : ip.ports = old.ports
  expected : expected old ip = true

namespace Follows

variable {old ip : Hdr} (follows : Follows old ip)

include follows

theorem facts : ip.vhl = old.vhl ∧ ip.tos = old.tos ∧ ip.off = old.off ∧ ip.ttl = old.ttl ∧
    ip.p = old.p ∧ ip.thOff = old.thOff ∧ ¬ (ip.hl > 5 ∧ ip.opts ≠ old.opts) ∧
    ¬ (ip.thOff > 5 ∧ ip.thopts ≠ old.thopts) ∧ (urgent ip = true ∨ ip.urp = old.urp) ∧
    deltaAck old ip ≤ 0xffff ∧ deltaSeq old ip ≤ 0xffff :=
  of_decide_eq_true follows.expected

theorem hlen : ip.hlen = old.hlen := by
  obtain ⟨vhl, _, _, _, _, thOff, _⟩ := follows.facts
  simp only [Hdr.hlen, Hdr.hl, vhl, thOff]

theorem update (f : Byte) :
    { old with sum := 0, thsum := ip.thsum, flags := f, win := ip.win, ack := ip.ack,
               seq := ip.seq, urp := ip.urp, id := ip.id } =
      { ip with sum := 0, len := old.len, flags := f } := by
  obtain ⟨vhl, tos, off, ttl, p, thOff, opts, thopts, _⟩ := follows.facts
  have hl : ip.hl = old.hl := by simp only [Hdr.hl, vhl]
  have first : ip.opts = old.opts :=
    options_eq follows.now.opts (by rw [hl]; exact follows.before.opts) opts
  have second : ip.thopts = old.thopts :=
    options_eq follows.now.thopts (by rw [thOff]; exact follows.before.thopts) thopts
  have third : ip.offx2 = old.offx2 := offx2_eq follows.now.x2 follows.before.x2 thOff
  simp only [vhl, tos, off, ttl, p, first, second, third, follows.src, follows.dst, follows.ports]

end Follows

/-- The flag byte after `TCP_PUSH_BIT` has been looked at. -/
def pushed (f : Byte) (push : Bool) : Byte := if push then f ||| TH_PUSH else f &&& ~~~ TH_PUSH

theorem flags_plain {f g : Byte} (first : f &&& 0xd7 = 0x10) (second : g &&& 0xd7 = 0x10) :
    (if g &&& TH_URG ≠ 0 then pushed f (decide (g &&& TH_PUSH ≠ 0)) ||| TH_URG
      else pushed f (decide (g &&& TH_PUSH ≠ 0)) &&& ~~~ TH_URG) = g := by
  rcases flags_cases f first with rfl | rfl | rfl | rfl <;>
    rcases flags_cases g second with rfl | rfl | rfl | rfl <;> decide

theorem flags_special {f g : Byte} (first : f &&& 0xd7 = 0x10) (second : g &&& 0xd7 = 0x10) :
    pushed f (decide (g &&& TH_PUSH ≠ 0)) = g ↔ (f &&& TH_URG ≠ 0 ↔ g &&& TH_URG ≠ 0) := by
  rcases flags_cases f first with rfl | rfl | rfl | rfl <;>
    rcases flags_cases g second with rfl | rfl | rfl | rfl <;> decide

end Header

section Decode

variable {old ip h : Hdr} {bytes pre post : List Byte}

theorem changes_eq (old ip : Hdr) :
    changes old ip = mask (urgent ip) (decide (deltaWin old ip ≠ 0)) (decide (deltaAck old ip ≠ 0))
      (decide (deltaSeq old ip ≠ 0)) false false false := by
  simp only [changes, mask, decide_eq_true_eq, Bool.false_eq_true, if_false]
  simp

/-- The data of the last packet, and that much more acknowledged or nothing, is all that
is new: the numbers follow from the last packet and none is sent. -/
def Special (old ip : Hdr) : Prop :=
  urgent ip = false ∧ deltaWin old ip = 0 ∧ deltaSeq old ip ≠ 0 ∧
    deltaSeq old ip = lastData old ip ∧
    (deltaAck old ip = 0 ∨ deltaAck old ip = deltaSeq old ip)

instance (old ip : Hdr) : Decidable (Special old ip) := inferInstanceAs (Decidable (_ ∧ _))

theorem changes_transfer (old ip : Hdr) : changes old ip = NEW_S ↔
    urgent ip = false ∧ deltaWin old ip = 0 ∧ deltaAck old ip = 0 ∧ deltaSeq old ip ≠ 0 := by
  obtain ⟨_, _, _, only⟩ := changes_cases (urgent ip) (decide (deltaWin old ip ≠ 0))
    (decide (deltaAck old ip ≠ 0)) (decide (deltaSeq old ip ≠ 0))
  rw [← changes_eq] at only
  rw [← decide_eq_true_iff (p := changes old ip = NEW_S), only]
  simp [and_assoc]

theorem changes_echo (old ip : Hdr) : changes old ip = NEW_S ||| NEW_A ↔
    urgent ip = false ∧ deltaWin old ip = 0 ∧ deltaAck old ip ≠ 0 ∧ deltaSeq old ip ≠ 0 := by
  obtain ⟨_, _, both, _⟩ := changes_cases (urgent ip) (decide (deltaWin old ip ≠ 0))
    (decide (deltaAck old ip ≠ 0)) (decide (deltaSeq old ip ≠ 0))
  rw [← changes_eq] at both
  rw [← decide_eq_true_iff (p := changes old ip = NEW_S ||| NEW_A), both]
  simp [and_assoc]

theorem Special.changes (found : Special old ip) :
    changes old ip = NEW_S ∨ changes old ip = NEW_S ||| NEW_A := by
  obtain ⟨plain, window, more, _, _⟩ := found
  by_cases nothing : deltaAck old ip = 0
  · exact .inl ((changes_transfer old ip).mpr ⟨plain, window, nothing, more⟩)
  · exact .inr ((changes_echo old ip).mpr ⟨plain, window, nothing, more⟩)

theorem Special.same_win (found : Special old ip) : ip.win = old.win := by
  rw [← window old ip, found.2.1, add_zero, htons_ntohs]

theorem Special.same_urp (found : Special old ip) (follows : Follows old ip) :
    ip.urp = old.urp := by
  obtain ⟨_, _, _, _, _, _, _, _, urgency, _⟩ := follows.facts
  exact urgency.resolve_left (Bool.eq_false_iff.mp found.1)

/-- A packet is sent compressed as the numbers that changed or in one of the two special
ways. -/
theorem special_cases {r : Byte × List Byte} (sent : special old ip = some r) :
    (r = (changes old ip, newSeq old ip) ∧ changes old ip ≠ SPECIAL_I ∧
      changes old ip ≠ SPECIAL_D ∧ ¬ Special old ip) ∨
    (r = (SPECIAL_I, []) ∧ Special old ip ∧ deltaAck old ip = deltaSeq old ip) ∨
    (r = (SPECIAL_D, []) ∧ Special old ip ∧ deltaAck old ip = 0) := by
  unfold special at sent
  split_ifs at sent with none data taken both matched only matched
  · have zero : (0 : Byte) ≠ SPECIAL_I ∧ (0 : Byte) ≠ SPECIAL_D ∧
        ¬ ((0 : Byte) = NEW_S ∨ (0 : Byte) = NEW_S ||| NEW_A) := by decide
    rw [← none] at zero sent
    cases sent
    exact .inl ⟨rfl, zero.1, zero.2.1, fun found => zero.2.2 found.changes⟩
  · obtain ⟨plain, window, _, more⟩ := (changes_echo old ip).mp both
    cases sent
    exact .inr (.inl ⟨rfl, ⟨plain, window, more, matched.2, .inr matched.1.symm⟩, matched.1.symm⟩)
  · obtain ⟨_, _, acked, _⟩ := (changes_echo old ip).mp both
    rw [not_or] at taken
    cases sent
    refine .inl ⟨rfl, taken.1, taken.2, ?_⟩
    rintro ⟨_, _, _, data, nothing | same⟩
    · exact acked nothing
    · exact matched ⟨same.symm, data⟩
  · obtain ⟨plain, window, nothing, more⟩ := (changes_transfer old ip).mp only
    cases sent
    exact .inr (.inr ⟨rfl, ⟨plain, window, more, matched, .inl nothing⟩, nothing⟩)
  · rw [not_or] at taken
    cases sent
    exact .inl ⟨rfl, taken.1, taken.2, fun found => matched found.2.2.2.1⟩
  · rw [not_or] at taken
    cases sent
    exact .inl ⟨rfl, taken.1, taken.2, fun found => found.changes.elim only both⟩

theorem Special.encoded (found : Special old ip) (tests : expected old ip = true) :
    encoding old ip ≠ none := by
  have masks : NEW_S ≠ 0 ∧ ¬ (NEW_S = SPECIAL_I ∨ NEW_S = SPECIAL_D) ∧ NEW_S ≠ NEW_S ||| NEW_A ∧
      NEW_S ||| NEW_A ≠ 0 ∧ ¬ (NEW_S ||| NEW_A = SPECIAL_I ∨
        NEW_S ||| NEW_A = SPECIAL_D) := by decide
  obtain ⟨notZero, notSpecial, notBoth, zero, both⟩ := masks
  have sent : special old ip ≠ none := by
    unfold special
    rcases found.changes with only | both_
    · rw [only, if_neg notZero, if_neg notSpecial, if_neg notBoth, if_pos rfl]
      split <;> simp
    · rw [both_, if_neg zero, if_neg both, if_pos rfl]
      split <;> simp
  rw [encoding, if_pos tests]
  simpa using sent

theorem special_mask {r : Byte × List Byte} (sent : special old ip = some r) :
    ∃ u w a s, r.1 = mask u w a s false false false := by
  rcases special_cases sent with ⟨rfl, _⟩ | ⟨rfl, _⟩ | ⟨rfl, _⟩
  · exact ⟨_, _, _, _, changes_eq old ip⟩
  · exact ⟨true, true, false, true, by decide⟩
  · exact ⟨true, true, true, true, by decide⟩

theorem decodeChanges_plain (follows : Follows old ip) (hlen : Nat) {i b c : Bool}
    (plain : changes old ip ≠ SPECIAL_I ∧ changes old ip ≠ SPECIAL_D)
    (win : h.win = old.win) (ack : h.ack = old.ack) (seq : h.seq = old.seq) (urp : h.urp = old.urp)
    (layout : bytes = pre ++ (newSeq old ip ++ post)) :
    decodeChanges bytes (mask (urgent ip) (decide (deltaWin old ip ≠ 0))
        (decide (deltaAck old ip ≠ 0)) (decide (deltaSeq old ip ≠ 0)) i b c) hlen (h, pre.length) =
      ({ h with flags := if urgent ip then h.flags ||| TH_URG else h.flags &&& ~~~ TH_URG,
                urp := ip.urp, win := ip.win, ack := ip.ack, seq := ip.seq },
        (pre ++ newSeq old ip).length) := by
  obtain ⟨_, _, _, _, _, _, _, _, urgency, small, small'⟩ := follows.facts
  have bits := mask_bits (urgent ip) (decide (deltaWin old ip ≠ 0)) (decide (deltaAck old ip ≠ 0))
    (decide (deltaSeq old ip ≠ 0)) i b c
  have cases := changes_cases (urgent ip) (decide (deltaWin old ip ≠ 0))
    (decide (deltaAck old ip ≠ 0)) (decide (deltaSeq old ip ≠ 0))
  rw [← changes_eq, decide_eq_false plain.1, decide_eq_false plain.2] at cases
  generalize mask (urgent ip) (decide (deltaWin old ip ≠ 0)) (decide (deltaAck old ip ≠ 0))
    (decide (deltaSeq old ip ≠ 0)) i b c = ch at bits ⊢
  obtain ⟨⟨bitU, bitW, bitA, bitS⟩, _, _, _, notI, notD⟩ := bits
  rw [← cases.1] at notI
  rw [← cases.2.1] at notD
  simp only [newSeq, List.append_assoc] at layout
  unfold decodeChanges
  simp only [of_decide_eq_false notI, of_decide_eq_false notD, if_false, bitW, bitA, bitS]
  have first :
    (if ch &&& NEW_U ≠ 0 then decodeu bytes pre.length { h with flags := h.flags ||| TH_URG }
      else ({ h with flags := h.flags &&& ~~~ TH_URG }, pre.length)) =
      ({ h with flags := if urgent ip then h.flags ||| TH_URG else h.flags &&& ~~~ TH_URG,
                urp := ip.urp },
        (pre ++ if urgent ip then encodez (ntohs ip.urp) else []).length) := by
    cases urge : urgent ip with
    | true =>
      rw [urge] at bitU
      simp only [urge, if_true] at layout
      rw [if_pos (of_decide_eq_true bitU)]
      simp [decodeu, layout, decode_encodez]
    | false =>
      rw [urge] at bitU urgency
      have same : ip.urp = old.urp := urgency.resolve_left Bool.false_ne_true
      rw [if_neg (of_decide_eq_false bitU)]
      simp [same, ← urp]
  have atWin := layout.trans (List.append_assoc pre _ _).symm
  have atAck := atWin.trans (List.append_assoc _ _ _).symm
  have atSeq := atAck.trans (List.append_assoc _ _ _).symm
  rw [first, optional_win atWin, optional_ack small atAck, optional_seq small' atSeq]
  simp only [win, ack, seq, window, acknowledgment, sequence, newSeq, List.append_assoc]

/-- What the decoder makes of the flag byte `f` of the saved header. -/
def received (old ip : Hdr) (f : Byte) : Byte :=
  if Special old ip then f else if urgent ip then f ||| TH_URG else f &&& ~~~ TH_URG

theorem decodeChanges_special (follows : Follows old ip) {i b c : Bool} {r : Byte × List Byte}
    (sent : special old ip = some r) (len : h.len = old.len) (win : h.win = old.win)
    (ack : h.ack = old.ack) (seq : h.seq = old.seq) (urp : h.urp = old.urp)
    (layout : bytes = pre ++ (r.2 ++ post)) :
    decodeChanges bytes (r.1 ||| (if i then NEW_I else 0) ||| (if b then TCP_PUSH_BIT else 0) |||
        (if c then NEW_C else 0)) old.hlen (h, pre.length) =
      ({ h with flags := received old ip h.flags, urp := ip.urp, win := ip.win, ack := ip.ack,
                seq := ip.seq }, (pre ++ r.2).length) := by
  have data : (ntohs h.len).setWidth 32 - BitVec.ofNat 32 old.hlen = lastData old ip := by
    rw [len, lastData, follows.hlen]
  rcases special_cases sent with ⟨rfl, notI, notD, other⟩ | ⟨rfl, found, acked⟩ | ⟨rfl, found,
    acked⟩
  · rw [changes_eq, mask_or, decodeChanges_plain follows _ ⟨notI, notD⟩ win ack seq urp layout,
      received, if_neg other]
  · have bits := mask_bits true true false true i b c
    have first : SPECIAL_I = mask true true false true false false false := by decide
    rw [received, if_pos found, first, mask_or, decodeChanges,
      if_pos (of_decide_eq_true bits.2.2.2.2.1), data, ack, seq, ← found.2.2.2.1, sequence, ← acked,
      acknowledgment, found.same_win, found.same_urp follows, ← win, ← urp, List.append_nil]
  · have bits := mask_bits true true true true i b c
    have first : SPECIAL_D = mask true true true true false false false := by decide
    have unchanged : ip.ack = old.ack := by
      rw [← acknowledgment old ip, acked, add_zero, htonl_ntohl]
    rw [received, if_pos found, first, mask_or, decodeChanges,
      if_neg (of_decide_eq_false bits.2.2.2.2.1), if_pos (of_decide_eq_true bits.2.2.2.2.2), data,
      seq, ← found.2.2.2.1, sequence, unchanged, found.same_win,
      found.same_urp follows, ← win, ← urp, ← ack, List.append_nil]

/-- The header that comes out is the one that went in, but for the length, the IP checksum
and what a special encoding does to `TH_URG`. -/
theorem decodeHeader_encoding (follows : Follows old ip) {ch : Byte} {seq : List Byte} (c : Bool)
    (sent : encoding old ip = some (ch, seq)) {t : BitVec 16} (sum : t = ntohs ip.thsum)
    (layout : bytes = pre ++ (hi t :: lo t :: (seq ++ post))) :
    decodeHeader bytes (ch ||| if c then NEW_C else 0) old.hlen pre.length { old with sum := 0 } =
      ({ ip with sum := 0, len := old.len,
                 flags := received old ip (pushed old.flags (decide (ip.flags &&& TH_PUSH ≠ 0))) },
        pre.length + 2 + seq.length) := by
  unfold encoding at sent
  rw [if_pos follows.expected, Option.map_eq_some_iff] at sent
  obtain ⟨r, chosen, same⟩ := sent
  cases same
  obtain ⟨u, w, a, s, bits⟩ := special_mask chosen
  obtain ⟨_, idSent, push, _⟩ := mask_bits u w a s (decide (deltaId old ip ≠ 1))
    (decide (ip.flags &&& TH_PUSH ≠ 0)) c
  rw [← mask_or, ← bits] at idSent push
  simp only [decide_eq_true_eq] at idSent push
  have start : bytes = (pre ++ [hi t, lo t]) ++ (r.2 ++
      ((if deltaId old ip ≠ 1 then encodez ((deltaId old ip).setWidth 16) else []) ++ post)) := by
    rw [layout]
    simp only [List.append_assoc, List.cons_append, List.nil_append]
  have sums : htons (byte bytes pre.length ++ byte bytes (pre.length + 1)) = ip.thsum := by
    rw [layout, byte_start, byte_append]
    simp [byte, hi_lo, sum]
  have body := decodeChanges_special (c := c) follows chosen
    (h := { old with sum := 0, thsum := ip.thsum,
                     flags := pushed old.flags (decide (ip.flags &&& TH_PUSH ≠ 0)) })
    (i := decide (deltaId old ip ≠ 1)) (b := decide (ip.flags &&& TH_PUSH ≠ 0))
    rfl rfl rfl rfl rfl start
  have behind : (pre ++ [hi t, lo t]).length = pre.length + 2 := by simp
  rw [behind] at body
  simp only [decide_eq_true_eq] at body
  unfold decodeHeader
  simp only [sums, decide_eq_decide.mp idSent, decide_eq_decide.mp push]
  unfold pushed at body ⊢
  simp only [decide_eq_true_eq] at body ⊢
  rw [body]
  generalize received old ip _ = f
  dsimp only
  have last := start.trans (List.append_assoc _ _ _).symm
  rw [decode_id old (h := { old with sum := 0, flags := f, win := ip.win, ack := ip.ack,
                                     urp := ip.urp, seq := ip.seq, thsum := ip.thsum }) rfl last,
                                     follows.update]
  simp only [List.length_append, List.length_cons, List.length_nil, Prod.mk.injEq, true_and]
  omega

theorem encoding_bit {ch : Byte} {seq : List Byte} (sent : encoding old ip = some (ch, seq))
    (c : Bool) : decide ((ch ||| if c then NEW_C else 0) &&& NEW_C ≠ 0) = c := by
  unfold encoding at sent
  obtain ⟨_, sent⟩ := Option.ite_none_right_eq_some.mp sent
  obtain ⟨r, chosen, same⟩ := Option.map_eq_some_iff.mp sent
  cases same
  obtain ⟨u, w, a, s, bits⟩ := special_mask chosen
  obtain ⟨_, _, _, connection, _⟩ := mask_bits u w a s (decide (deltaId old ip ≠ 1))
    (decide (ip.flags &&& TH_PUSH ≠ 0)) c
  rw [← mask_or, ← bits] at connection
  simpa only [decide_eq_true_eq] using connection

/-- `TH_URG` is lost on the way, or rather stays, when a special encoding follows a packet
with urgent data. -/
theorem received_flags (before : old.flags &&& 0xd7 = 0x10) (now : ip.flags &&& 0xd7 = 0x10) :
    received old ip (pushed old.flags (decide (ip.flags &&& TH_PUSH ≠ 0))) = ip.flags ↔
      ¬ (Special old ip ∧ urgent old = true) := by
  unfold received
  by_cases found : Special old ip
  · have plain : ¬ ip.flags &&& TH_URG ≠ 0 := of_decide_eq_false found.1
    rw [if_pos found, flags_special before now, iff_false_right plain, urgent, decide_eq_true_eq]
    exact not_congr (and_iff_right found).symm
  · rw [if_neg found, urgent, ite_congr (decide_eq_true_eq) (fun _ => rfl) (fun _ => rfl),
      flags_plain before now]
    exact iff_of_true rfl fun both => found both.1

end Decode

end FreeBsd.Net.Slcompress
