import FreeBsd.Net.SlLossless

/-! The list of the transmit states over any number of calls of `sl_compress_tcp`: the states are
kept in the order of their use, so that the oldest one is taken for a new connection. -/
namespace FreeBsd.Net.Slcompress

open FreeBsd.Lib

/-- The state that a call finds, or takes for a new connection, and which of both. -/
def SlCompress.uses (comp : SlCompress) (out : Outgoing) : Option (Fin MAX_STATES × Bool) :=
  if out.m.ip.Compressible ∧ 40 ≤ out.mlen then
    (comp.locate out.m.ip).bind fun (_, cs, found) =>
      if found = false ∧ out.m.ip.hlen > out.mlen then none else some (cs, found)
  else none

structure Sender where
  comp : SlCompress
  used : List (Fin MAX_STATES)

namespace Sender

def init : Sender := ⟨slCompressInit, []⟩

def call (s : Sender) (out : Outgoing) : Option (Sender × Frame) :=
  (slCompressTcp s.comp out.mlen out.m out.cid).map fun (comp, frame) =>
    (⟨comp, ((s.comp.uses out).map Prod.fst).toList ++ s.used⟩, frame)

/-- A header that is whole fits `cs_hdr`, and one that is not is of a connection with a state. -/
def Meets (s : Sender) (out : Outgoing) : Prop :=
  out.m.ip.Compressible → 40 ≤ out.mlen →
    (out.m.ip.hlen ≤ out.mlen → out.m.ip.hlen ≤ MAX_HDR) ∧
    (out.m.ip.hlen > out.mlen → ∃ i, sameConnection out.m.ip (s.comp.tstate i) = true)

def Step (s : Sender) (out : Outgoing) (t : Sender) : Prop :=
  s.Meets out ∧ ∃ frame, s.call out = some (t, frame)

structure Sound (s : Sender) : Prop where
  recent : ∃ order, s.comp.Order order ∧ Recent s.used order
  id : ∀ i, (s.comp.tstate i).id = BitVec.ofNat 8 i

end Sender

structure SlCompress.SameList (comp comp' : SlCompress) : Prop where
  lastCs : comp'.lastCs = comp.lastCs
  next : ∀ i, (comp'.tstate i).next = (comp.tstate i).next
  id : ∀ i, (comp'.tstate i).id = (comp.tstate i).id

variable {comp comp' : SlCompress} {order xs ys : List (Fin MAX_STATES)} {cs : Fin MAX_STATES}
    {m : Packet} {mlen : Nat}
  {cid : Bool} {s t : Sender} {out : Outgoing}

theorem SlCompress.Order.congr (ordered : comp.Order order) (same : comp.SameList comp') :
    comp'.Order order := by
  obtain ⟨⟨others, split, ring⟩, every⟩ := ordered
  refine ⟨⟨others, by rw [split, same.lastCs], ?_⟩, every⟩
  rw [same.lastCs, funext same.next]
  exact ring

theorem SlCompress.Order.front (ordered : comp.Order (cs :: order)) :
    (comp.tstate comp.lastCs).next = cs := by
  obtain ⟨⟨others, split, ring⟩, _⟩ := ordered
  cases others with
  | nil => exact ring.linked.trans (List.cons.inj split).1.symm
  | cons first others => exact ring.linked.1.trans (List.cons.inj split).1.symm

theorem SlCompress.store_list (fits : m.ip.hlen ≤ MAX_HDR) :
    ∃ comp', comp.store cs m.ip = some comp' ∧ comp.SameList comp' := by
  exact ⟨_, if_neg (Nat.not_lt.mpr fits), rfl, fun i => comp.sent_next cs i m.ip,
    fun i => comp.sent_id cs i m.ip⟩

theorem searches_iff : (m.ip.Compressible ∧ 40 ≤ mlen) ↔
    ¬ (m.ip.off &&& htons 0x3fff ≠ 0 ∨ mlen < 40) ∧
      ¬ m.ip.flags &&& (TH_SYN ||| TH_FIN ||| TH_RST ||| TH_ACK) ≠ TH_ACK := by
  unfold Hdr.Compressible
  rw [not_or, not_not, not_not, Nat.not_lt]
  tauto

theorem slCompressTcp_plain (plain : ¬ (m.ip.Compressible ∧ 40 ≤ mlen)) :
    slCompressTcp comp mlen m cid = some (comp, .ip m) := by
  rw [searches_iff, not_and_or, not_not, not_not] at plain
  unfold slCompressTcp
  rcases plain with bail | bail
  · rw [if_pos bail]
  · rw [if_pos bail, ite_self]

theorem slCompressTcp_list {found : Bool} (searches : m.ip.Compressible ∧ 40 ≤ mlen)
    (located : comp.locate m.ip = some (comp', cs, found))
    (fits : m.ip.hlen ≤ mlen → m.ip.hlen ≤ MAX_HDR) :
    ∃ comp'' frame, slCompressTcp comp mlen m cid = some (comp'', frame) ∧
      comp'.SameList comp'' := by
  obtain ⟨long, control⟩ := searches_iff.mp searches
  unfold slCompressTcp
  rw [if_neg long, if_neg control, located]
  dsimp only
  split
  · exact ⟨comp', _, rfl, rfl, fun _ => rfl, fun _ => rfl⟩
  · rename_i whole
    obtain ⟨comp'', stored, same⟩ := @SlCompress.store_list comp' cs m (fits (Nat.not_lt.mp whole))
    rw [stored]
    split
    · exact ⟨_, _, rfl, same.lastCs, same.next, same.id⟩
    · rw [Option.map_some]
      split
      · exact ⟨_, _, rfl, same.lastCs, same.next, same.id⟩
      · exact ⟨_, _, rfl, same⟩

theorem SlCompress.Located.found (located : comp.Located order m.ip comp' cs xs ys)
    (every : ∀ i, i ∈ order) {i : Fin MAX_STATES}
    (same : sameConnection m.ip (comp.tstate i) = true) : sameConnection m.ip (comp.tstate cs) =
    true := by
  by_contra missed
  rw [Bool.not_eq_true] at missed
  have member := every i
  rw [located.split, located.oldest missed, List.mem_append, List.mem_singleton] at member
  rcases member with before | rfl
  · rw [located.before i before] at same
    cases same
  · rw [missed] at same
    cases same

namespace Sender

theorem sound_init : init.Sound := by
  refine ⟨⟨_, slCompressInit_order, ?_⟩, fun i => rfl⟩
  exact List.pairwise_of_forall fun i j newer older none => absurd none (by simp [init])

/-- A call keeps the states in the order of use, with the one it uses at the front. -/
theorem Sound.call (sound : s.Sound) (meets : s.Meets out) :
    ∃ t frame, s.call out = some (t, frame) ∧ t.Sound ∧
    ∀ cs found, s.comp.uses out = some (cs, found) →
      (t.comp.tstate t.comp.lastCs).next = cs ∧ (found = false → LeastRecent s.used cs) := by
  obtain ⟨⟨order, ordered, recent⟩, id⟩ := sound
  unfold Sender.call SlCompress.uses
  by_cases searches : out.m.ip.Compressible ∧ 40 ≤ out.mlen
  · obtain ⟨fits, known⟩ := meets searches.1 searches.2
    obtain ⟨comp', cs, xs, ys, run, located⟩ := s.comp.locate_spec ordered out.m.ip
    obtain ⟨comp'', frame, sent, same⟩ := @slCompressTcp_list _ _ _ _ _ out.cid _ searches run fits
    -- a header that is not whole is sent as it is, but its connection has a state
    have taken :
        ¬ (sameConnection out.m.ip (s.comp.tstate cs) = false ∧ out.m.ip.hlen > out.mlen) := by
      rintro ⟨missed, short⟩
      obtain ⟨i, same⟩ := known short
      rw [located.found ordered.every same] at missed
      cases missed
    have ordered' := located.ordered.congr same
    have nodup := ordered.nodup
    rw [located.split] at nodup recent
    rw [if_pos searches, run, sent, Option.bind_some]
    dsimp only
    rw [if_neg taken]
    refine ⟨_, _, rfl, ⟨⟨_, ordered', recent.use nodup⟩, fun i => ?_⟩, fun c found use => ?_⟩
    · rw [same.id, located.agrees.id, id]
    · cases use
      refine ⟨ordered'.front, fun missed => ?_⟩
      rw [located.oldest missed] at recent
      refine recent.oldest fun i => ?_
      have member := ordered.every i
      rwa [located.split, located.oldest missed] at member
  · rw [if_neg searches, slCompressTcp_plain searches]
    exact ⟨s, _, rfl, ⟨⟨order, ordered, recent⟩, id⟩, fun cs found use => by cases use⟩

theorem Sound.run {events : List Outgoing} (sound : s.Sound) (run : Run Step s events t) :
    t.Sound := by
  have preserved : ∀ s out t, True → Sound s → Step s out t → Sound t := by
    rintro s out t - sound ⟨meets, frame, done⟩
    obtain ⟨t', frame', done', next, _⟩ := sound.call meets
    rw [done] at done'
    cases done'
    exact next
  exact run.invariant preserved (fun _ _ => trivial) sound

end Sender

/-- The transmit states form one circular list, each with its identifier; the state that a call
finds or takes comes to the front, and the one that is taken for a new connection is the least
recently used one. -/
theorem states_lru {events : List Outgoing} (run : Run Sender.Step .init events s) :
    (∃ others, Ring (fun i => (s.comp.tstate i).next) s.comp.lastCs others ∧ ∀ i,
      i ∈ s.comp.lastCs :: others) ∧
    (∀ i, (s.comp.tstate i).id = BitVec.ofNat 8 i) ∧
    ∀ out, s.Meets out → ∃ t frame, s.call out = some (t, frame) ∧
      ∀ cs found, s.comp.uses out = some (cs, found) →
        (t.comp.tstate t.comp.lastCs).next = cs ∧ (found = false → LeastRecent s.used cs) := by
  have sound := Sender.sound_init.run run
  obtain ⟨order, ⟨⟨others, split, ring⟩, every⟩, _⟩ := sound.recent
  refine ⟨⟨others, ring, fun i => ?_⟩, sound.id, fun out meets => ?_⟩
  · have member := every i
    rw [split] at member
    exact (List.perm_append_singleton _ _).mem_iff.mp member
  · obtain ⟨t, frame, done, _, front⟩ := sound.call meets
    exact ⟨t, frame, done, front⟩

/-- A segment of the connection with these ports, whose TCP header has `words` words. -/
def portSegment (ports : BitVec 32) (words : Byte) : Packet :=
  let m := segment 1 100 TH_ACK
  { m with ip := { m.ip with ports := ports, offx2 := words <<< 4 } }

def portOut (ports : Nat) : Outgoing := ⟨portSegment (BitVec.ofNat 32 ports) 5, 41, true⟩

theorem portOut_meets (ports : Nat) (s : Sender) : s.Meets (portOut ports) := by
  have words : (portOut ports).m.ip.hlen = 40 := (by decide : (segment 1 100 TH_ACK).ip.hlen = 40)
  intro _ _
  rw [words]
  exact ⟨fun _ => by decide, fun short => absurd short (by decide : ¬ 40 > 41)⟩

def ports : List Nat := [1, 2, 3, 4, 5, 6, 7, 8, 9, 10, 11, 12, 13, 14, 15, 16, 8]

theorem ports_run : ∃ s, Run Sender.Step .init (ports.map portOut) s ∧
    s.comp.uses (portOut 3) = some (2, true) ∧
    s.comp.uses (portOut 17) = some (0, false) := by
  have evaluated :
      (replay (fun (s : Sender) n => (s.call (portOut n)).map Prod.fst) .init ports).map
      (fun s => (s.comp.uses (portOut 3), s.comp.uses (portOut 17))) =
        some (some (2, true), some (0, false)) := by
    decide +kernel
  obtain ⟨s, replayed, uses⟩ := Option.map_eq_some_iff.mp evaluated
  obtain ⟨found, missed⟩ := Prod.ext_iff.mp uses
  have sound (s : Sender) (n : Nat) (t : Sender) (done : (s.call (portOut n)).map Prod.fst =
      some t) :
      Sender.Step s (portOut n) t := by
    obtain ⟨⟨t, frame⟩, call, rfl⟩ := Option.map_eq_some_iff.mp done
    exact ⟨portOut_meets n s, frame, call⟩
  exact ⟨s, (replay_run sound replayed).map, found, missed⟩

theorem states_lru_ports : ∃ s, Run Sender.Step .init (ports.map portOut) s ∧
    (∃ t frame, s.call (portOut 3) = some (t, frame) ∧ (t.comp.tstate t.comp.lastCs).next = 2) ∧
    ∃ t frame, s.call (portOut 17) = some (t, frame) ∧ (t.comp.tstate t.comp.lastCs).next = 0 ∧
      LeastRecent s.used 0 := by
  obtain ⟨s, run, found, missed⟩ := ports_run
  obtain ⟨-, -, calls⟩ := states_lru run
  obtain ⟨t, frame, call, front⟩ := calls (portOut 3) (portOut_meets 3 s)
  obtain ⟨t', frame', call', front'⟩ := calls (portOut 17) (portOut_meets 17 s)
  obtain ⟨first, least⟩ := front' 0 false missed
  exact ⟨s, run, ⟨t, frame, call, (front 2 true found).1⟩, t', frame', call', first, least rfl⟩

def Sender.after (s : Sender) (outs : List Outgoing) : Option Sender :=
  replay (fun (s : Sender) out => (s.call out).map Prod.fst) s outs

/-- A whole segment, and then 15 of another connection with the first 40 of their 44 bytes of header
in the mbuf. -/
def shortSegments : List Outgoing :=
  ⟨portSegment 1 5, 41, true⟩ :: List.replicate 15 ⟨portSegment 2 6, 40, true⟩

/-- The next connection takes the only state that was used. A header of 112 bytes is copied over the
end of `cs_hdr`. -/
theorem states_not_lru :
    (∃ s, Sender.init.after shortSegments = some s ∧
      s.comp.uses ⟨portSegment 3 5, 41, true⟩ = some (0, false) ∧
      ¬ LeastRecent s.used 0) ∧
    ∃ m : Packet, m.ip.hlen = 112 ∧ slCompressTcp slCompressInit 112 m true = none := by
  have evaluated : (Sender.init.after shortSegments).map
      (fun s => (s.comp.uses ⟨portSegment 3 5, 41, true⟩, s.used)) =
        some (some (0, false), [0]) := by
    decide +kernel
  obtain ⟨s, run, eq⟩ := Option.map_eq_some_iff.mp evaluated
  obtain ⟨uses, used⟩ := Prod.ext_iff.mp eq
  dsimp only at uses used
  refine ⟨⟨s, run, uses, fun least => ?_⟩, ⟨{ (portSegment 1 13).ip with vhl := 0x4f },
    []⟩, by decide +kernel, ?_⟩
  · exact absurd (least [] [] used 1 (by decide)) List.not_mem_nil
  · exact rfl

end FreeBsd.Net.Slcompress
