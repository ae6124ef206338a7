import FreeBsd.Lib.Segments
import FreeBsd.Lib.Trace
import FreeBsd.Netinet.IpReass

/-! The reassembly queues over whole runs of `ipintr`, `ip_slowtimo` and `ip_drain`, with
any fragments. Offsets and lengths are shorts, and of a header in a cluster only the first
bytes are moved to the front: as long as no fragment is cut at byte 2^15 or above, no datagram
is completed that reaches there and no header in a cluster is longer than these bytes, each
queue is in order, without overlaps, and its lengths are those of its data. -/
namespace FreeBsd.Netinet

open FreeBsd.Lib

def IP_MAXPACKET : Int := 65535

def ipSlowtimo (ipq : List Ipq) : List Ipq :=
  (ipq.map fun fp => { fp with ttl := (fp.ttl + 255) % 256 }).filter (·.ttl ≠ 0)

def ipDrain (_ipq : List Ipq) : List Ipq := []

inductive Event where
  | packet (b : Mbufs) (m : Packet)
  | slowtimo
  | drain
  deriving DecidableEq, Repr

def handle (ipq : List Ipq) : Event → List Ipq × Option Packet
  | .packet b m => ipintr b ipq m
  | .slowtimo => (ipSlowtimo ipq, none)
  | .drain => (ipDrain ipq, none)

section Condition

def Packet.trim (m : Packet) : Packet :=
  { m with data := m.data.take (m.ip.len.toInt - (m.ip.hl * 4 : Nat)).toNat }

structure Packet.Checked (m : Packet) : Prop where
  long : sizeofIp ≤ m.ip.hl * 4
  enough : (m.ip.hl * 4 : Nat) ≤ m.ip.len.toInt
  present : m.ip.len.toInt ≤ (m.ip.hl * 4 : Nat) + m.data.length

def Packet.Fragment (m : Packet) : Prop :=
  m.Checked ∧ (m.trim.frag.mff = true ∨ m.trim.frag.off ≠ 0)

/-- Where two fragments overlap in part, the first ends below 2^15; and a last fragment
that ends at 2^15 or above still has a byte missing before it. -/
structure Clear (frags : List Frag) (ip : Frag) : Prop where
  cut : ∀ a ∈ ip :: frags, ∀ b ∈ ip :: frags, b.off ≤ a.off → a.off < b.off + b.len →
    b.off + b.len < a.off + a.len → b.off + b.len < 2 ^ 15
  short : ∀ q ∈ ip :: frags, q.mff = false → 2 ^ 15 ≤ q.off + q.len →
    ∃ x, 0 ≤ x ∧ x < q.off + q.len ∧ ∀ f ∈ ip :: frags, ¬ (f.off ≤ x ∧ x < f.off + f.len)

/-- The condition on an event: a fragment has its header in one mbuf, and is clear of the queue
of its datagram. -/
def Event.Clear (ipq : List Ipq) : Event → Prop
  | .packet b m => m.Fragment → (b.ext = true → m.ip.hl * 4 ≤ max_protohdr) ∧
      ∀ fp ∈ ipq, fp.holds m.ip = true → Netinet.Clear fp.frags m.trim.frag
  | .slowtimo => True
  | .drain => True

end Condition

section Queue

/-- A queued fragment: as much data as `ip_len` says, and fields that are shorts. -/
structure Frag.Held (f : Frag) : Prop where
  data : f.len = f.data.length
  whole : f.under = 0
  len : f.len < 2 ^ 15
  low : - 2 ^ 15 ≤ f.off
  high : f.off < 2 ^ 15
  header : f.ip.hl * 4 < 2 ^ 15

structure Ipq.Sound (fp : Ipq) : Prop where
  ordered : Segments.Ordered Frag.off Frag.len fp.frags
  held : ∀ f ∈ fp.frags, f.Held

theorem trimBack_eq (ip : Frag) (frags : List Frag) :
    trimBack ip frags = Segments.trimBack Frag.off Frag.len Frag.cut ip frags := by
  induction frags with
  | nil => rfl
  | cons q rest ih =>
    rw [trimBack, Segments.trimBack, ih]

theorem trimFront_eq (prev : Option Frag) (ip : Frag) :
    trimFront prev ip = Segments.trimFront Frag.off Frag.len Frag.cut prev ip := by
  cases prev with
  | none => rfl
  | some prev => rfl

theorem enqueue_eq (ip : Frag) (frags : List Frag) :
    enqueue ip frags = Segments.insert Frag.off Frag.len Frag.cut ip frags := by
  simp only [enqueue, Segments.insert, trimFront_eq, trimBack_eq]

theorem wrap16_range (x : Int) : - 2 ^ 15 ≤ wrap16 x ∧ wrap16 x < 2 ^ 15 := by
  unfold wrap16
  rw [Int.bmod_def]
  split <;> lia

theorem Frag.Held.part {f a : Frag} (held : a.Held)
    (part : Segments.Part Frag.off Frag.len Frag.cut f a) : f.Held := by
  obtain ⟨data, whole, len, low, high, header⟩ := held
  rcases part with rfl | ⟨i, positive, less, rfl, start, short⟩
  · exact ⟨data, whole, len, low, high, header⟩
  · have count : (a.data.drop (i.toNat + a.under)).length = a.data.length - (i.toNat + a.under) :=
      List.length_drop
    have range := wrap16_range (a.off + i)
    refine ⟨?_, rfl, by lia, range.1, range.2, header⟩
    rw [short]
    change a.len - i = ((a.data.drop (i.toNat + a.under)).length : Int)
    lia

theorem Clear.exact {frags : List Frag} {ip : Frag} (clear : Clear frags ip)
    (held : ∀ f ∈ ip :: frags, f.Held) :
    Segments.Exact Frag.off Frag.len Frag.cut (ip :: frags) := by
  intro a here b there before overlap partly
  have bound := clear.cut a here b there before overlap partly
  obtain ⟨_, _, len, low, _, _⟩ := held a here
  have point : a.off + (b.off + b.len - a.off) = b.off + b.len := by lia
  refine ⟨?_, ?_⟩
  · change wrap16 (a.off + (b.off + b.len - a.off)) = b.off + b.len
    rw [point, wrap16_eq (by lia) bound]
  · change wrap16 (a.len - (b.off + b.len - a.off)) = a.off + a.len - (b.off + b.len)
    rw [wrap16_eq (by lia) (by lia)]
    lia

theorem Frag.cut_mff {f a : Frag} (part : Segments.Part Frag.off Frag.len Frag.cut f a) :
    f.mff = a.mff := by
  rcases part with rfl | ⟨i, _, _, rfl, _, _⟩ <;> rfl

theorem sum_data {frags : List Frag} (held : ∀ f ∈ frags, f.Held) :
    (frags.map Frag.len).sum = ((frags.flatMap (·.data)).length : Int) := by
  induction frags with
  | nil => rfl
  | cons f rest ih =>
    have first := (held f List.mem_cons_self).data
    have later := ih fun g member => held g (List.mem_cons_of_mem _ member)
    rw [List.map_cons, List.sum_cons, later, first, List.flatMap_cons, List.length_append]
    omega

def Packet.Whole (d : Packet) : Prop :=
  d.ip.len.toInt + (d.ip.hl * 4 : Nat) ≤ IP_MAXPACKET ∧ d.ip.len.toInt = d.data.length

def Ipq.Answer (r : Option Ipq × Option Packet) : Prop :=
  (∀ fp, r.1 = some fp → fp.Sound) ∧ ∀ d, r.2 = some d → d.Whole

theorem Ipq.Sound.finish {fp : Ipq} (sound : fp.Sound)
    (short : ∀ l, fp.frags.getLast? = some l → l.mff = false → 2 ^ 15 ≤ l.off + l.len →
      ∃ x, 0 ≤ x ∧ x < l.off + l.len ∧ ∀ f ∈ fp.frags, ¬ (f.off ≤ x ∧ x < f.off + f.len)) :
    Ipq.Answer fp.finish := by
  have kept : Ipq.Answer (some fp, none) := by
    refine ⟨fun fp' same => ?_, (by rintro _ ⟨⟩)⟩
    cases same
    exact sound
  unfold Ipq.finish
  split
  · rename_i next first last full head ends
    split
    · exact kept
    · rename_i final
      refine ⟨(by rintro _ ⟨⟩), fun d same => ?_⟩
      cases same
      obtain ⟨sum, cover, stop⟩ := contiguous_cover full
      have total := stop last ends
      -- no byte is missing, so the last fragment ends below 2^15
      have bound : next < 2 ^ 15 := by
        by_contra large
        obtain ⟨x, low, high, missing⟩ := short last ends (by simpa using final) (by lia)
        obtain ⟨f, member, inside⟩ := cover x low (by lia)
        exact missing f member inside
      have data := sum_data sound.held
      have header := (sound.held first (List.mem_of_head? head)).header
      have whole := (sound.held first (List.mem_of_head? head)).whole
      have length : (BitVec.ofInt 16 next).toInt = next := by
        rw [BitVec.toInt_ofInt]
        exact wrap16_eq (by lia) bound
      change (BitVec.ofInt 16 next).toInt + _ ≤ _ ∧ (BitVec.ofInt 16 next).toInt = _
      rw [length]
      refine ⟨?_, ?_⟩
      · change next + (first.ip.hl * 4 : Nat) ≤ 65535
        lia
      · change next = (((fp.frags.flatMap (·.data)).drop first.under).length : Int)
        rw [whole, List.drop_zero]
        lia
  · exact kept

theorem ipReass_sound {avail : Bool} {ip : Frag} {fp : Option Ipq} (held : ip.Held)
    (sound : ∀ q, fp = some q → q.Sound) (clear : ∀ q, fp = some q → Clear q.frags ip)
    (alone : Clear [] ip) : Ipq.Answer (ipReass avail ip fp) := by
  unfold ipReass
  cases fp with
  | none =>
    cases avail with
    | false => exact ⟨(by rintro _ ⟨⟩), (by rintro _ ⟨⟩)⟩
    | true =>
      refine Ipq.Sound.finish ⟨List.pairwise_singleton _ _, fun f member => ?_⟩ fun l last => ?_
      · rw [List.mem_singleton.mp member]
        exact held
      · cases last
        exact alone.short ip List.mem_cons_self
  | some fp =>
    have before := sound fp rfl
    have clear := clear fp rfl
    have all : ∀ f ∈ ip :: fp.frags, f.Held := by
      intro f member
      rcases List.mem_cons.mp member with rfl | member
      · exact held
      · exact before.held f member
    dsimp only
    cases done : enqueue ip fp.frags with
    | none =>
      refine ⟨fun fp' same => ?_, (by rintro _ ⟨⟩)⟩
      cases same
      exact before
    | some frags =>
      rw [enqueue_eq] at done
      obtain ⟨ordered, parts⟩ := Segments.insert_ordered before.ordered
        (fun q member => by have := (all q member).data; lia) (clear.exact all) done
      refine Ipq.Sound.finish ⟨ordered, fun f member => ?_⟩ fun l last final large => ?_
      · obtain ⟨a, origin, part⟩ := parts f member
        exact (all a origin).part part
      · obtain ⟨a, origin, part⟩ := parts l (List.mem_of_getLast? last)
        have ends := part.ends
        obtain ⟨x, low, high, missing⟩ := clear.short a origin (Frag.cut_mff part ▸ final) (by lia)
        refine ⟨x, low, by lia, fun f member inside => ?_⟩
        obtain ⟨b, source, piece⟩ := parts f member
        have start := piece.start_le
        have stop := piece.ends
        exact missing b source (by lia)

end Queue

section Runs

variable {b : Mbufs} {ipq : List Ipq} {m : Packet}

theorem Packet.Checked.held (checked : m.Checked) : m.trim.frag.Held := by
  obtain ⟨_, enough, present⟩ := checked
  have top := BitVec.toInt_lt (x := m.ip.len)
  have length : m.trim.frag.len = m.ip.len.toInt - (m.ip.hl * 4 : Nat) := by
    change wrap16 (m.ip.len.toInt - m.ip.hl * 4) = _
    rw [wrap16_eq] <;> lia
  have low := BitVec.le_toInt (x := m.ip.off <<< 3)
  have high := BitVec.toInt_lt (x := m.ip.off <<< 3)
  refine ⟨?_, rfl, by lia, low, high, by change m.ip.hl * 4 < _; lia⟩
  rw [length]
  change _ = ((m.data.take (m.ip.len.toInt - (m.ip.hl * 4 : Nat)).toNat).length : Int)
  rw [List.length_take]
  lia

theorem Packet.Checked.deliver (checked : m.Checked) : m.trim.deliver.Whole := by
  obtain ⟨_, enough, present⟩ := checked
  have top := BitVec.toInt_lt (x := m.ip.len)
  have length : (BitVec.ofInt 16 (m.ip.len.toInt - m.ip.hl * 4)).toInt =
      m.ip.len.toInt - (m.ip.hl * 4 : Nat) := by
    rw [BitVec.toInt_ofInt]
    exact wrap16_eq (by lia) (by lia)
  refine ⟨?_, ?_⟩
  · change (BitVec.ofInt 16 (m.ip.len.toInt - m.ip.hl * 4)).toInt + (m.ip.hl * 4 : Nat) ≤ 65535
    rw [length]
    lia
  · change (BitVec.ofInt 16 (m.ip.len.toInt - m.ip.hl * 4)).toInt =
      ((m.data.take (m.ip.len.toInt - (m.ip.hl * 4 : Nat)).toNat).length : Int)
    rw [length, List.length_take]
    lia

theorem Packet.Fragment.alone (fragment : m.Fragment) : Clear [] m.trim.frag := by
  obtain ⟨checked, marked⟩ := fragment
  obtain ⟨_, _, len, low, high, _⟩ := checked.held
  refine ⟨fun a here b there before overlap partly => ?_, fun q here final large => ?_⟩
  · rw [List.mem_singleton.mp here, List.mem_singleton.mp there] at partly
    lia
  · rw [List.mem_singleton.mp here] at final large ⊢
    rcases marked with more | later
    · rw [more] at final
      contradiction
    · refine ⟨0, Int.le_refl 0, by lia, fun f there inside => ?_⟩
      rw [List.mem_singleton.mp there] at inside
      lia

theorem ipintr_cases (b : Mbufs) (ipq : List Ipq) (m : Packet) :
    ipintr b ipq m = (ipq, none) ∨
    (m.Checked ∧ ∃ d rest, ipintr b ipq m = (rest, some d) ∧ (∀ fp ∈ rest, fp ∈ ipq) ∧
      d.ip.len = m.trim.deliver.ip.len ∧ d.ip.hl = m.ip.hl ∧ d.data = m.trim.data) ∨
    (m.Fragment ∧ ∃ before fp after, (∀ q ∈ before ++ after, q ∈ ipq) ∧
      (∀ q, fp = some q → q ∈ ipq ∧ q.holds m.ip = true) ∧
      ipintr b ipq m = (before ++ ((ipReass b.queue (m.trim.inMbufs b) fp).1.toList ++ after),
        (ipReass b.queue (m.trim.inMbufs b) fp).2)) := by
  unfold ipintr
  by_cases long : m.ip.hl * 4 < sizeofIp
  · exact .inl (if_pos long)
  · by_cases enough : m.ip.len.toInt < (m.ip.hl * 4 : Nat)
    · exact .inl (by simp only [if_neg long, if_pos enough])
    · by_cases present : ((m.ip.hl * 4 : Nat) : Int) + m.data.length < m.ip.len.toInt
      · exact .inl (by simp only [if_neg long, if_neg enough, if_pos present])
      · have checked : m.Checked := ⟨by lia, by lia, by lia⟩
        simp only [if_neg long, if_neg enough, if_neg present]
        by_cases plain : m.ip.off &&& ~~~ IP_DF = 0
        · right; left
          simp only [if_pos plain]
          exact ⟨checked, m.trim.deliver, ipq, rfl, fun fp member => member, rfl, rfl, rfl⟩
        · simp only [if_neg plain]
          by_cases failed : b.ext = true ∧ ¬ b.pullup = true
          · exact .inl (if_pos failed)
          · simp only [if_neg failed]
            right
            have sub : ∀ q, q ∈ (ipq.span fun fp => decide ¬ fp.holds m.ip = true).1 ++
                (ipq.span fun fp => decide ¬ fp.holds m.ip = true).2 → q ∈ ipq := by
              rw [List.span_eq_takeWhile_dropWhile, List.takeWhile_append_dropWhile]
              exact fun q member => member
            by_cases fragment : m.trim.frag.mff = true ∨ m.trim.frag.off ≠ 0
            · right
              refine ⟨⟨checked, fragment⟩, ?_⟩
              cases found : (ipq.span fun fp => decide ¬ fp.holds m.ip = true).2 with
              | nil =>
                refine ⟨[], none, ipq, fun q member => member, (by rintro _ ⟨⟩), ?_⟩
                exact if_pos fragment
              | cons fp after =>
                rw [found] at sub
                rw [List.span_eq_takeWhile_dropWhile] at found
                have stops :=
                  List.head?_dropWhile_not (fun fp : Ipq => decide ¬ fp.holds m.ip = true) ipq
                have rest : ipq.dropWhile (fun fp => decide ¬ fp.holds m.ip = true) = fp :: after :=
                  found
                rw [rest] at stops
                refine ⟨_, some fp, after, fun q member => sub q ?_, fun q same => ?_,
                  if_pos fragment⟩
                · rcases List.mem_append.mp member with early | late
                  · exact List.mem_append_left _ early
                  · exact List.mem_append_right _ (List.mem_cons_of_mem _ late)
                · cases same
                  exact ⟨sub fp (List.mem_append_right _ List.mem_cons_self), by simpa using stops⟩
            · left
              refine ⟨checked, m.trim.unfragmented, ?_⟩
              cases found : (ipq.span fun fp => decide ¬ fp.holds m.ip = true).2 with
              | nil => exact ⟨ipq, if_neg fragment, fun q member => member, rfl, rfl, rfl⟩
              | cons fp after =>
                rw [found] at sub
                refine ⟨_, if_neg fragment, fun q member => sub q ?_, rfl, rfl, rfl⟩
                rcases List.mem_append.mp member with early | late
                · exact List.mem_append_left _ early
                · exact List.mem_append_right _ (List.mem_cons_of_mem _ late)

def Handled (ipq : List Ipq) (event : Event) (ipq' : List Ipq) : Prop :=
  event.Clear ipq ∧ (handle ipq event).1 = ipq'

theorem handle_sound {event : Event} (sound : ∀ fp ∈ ipq, fp.Sound) (clear : event.Clear ipq) :
    (∀ fp ∈ (handle ipq event).1, fp.Sound) ∧ ∀ d, (handle ipq event).2 = some d → d.Whole := by
  cases event with
  | packet b m =>
    change (∀ fp ∈ (ipintr b ipq m).1, fp.Sound) ∧ ∀ d, (ipintr b ipq m).2 = some d → d.Whole
    rcases ipintr_cases b ipq m with same | ⟨checked, d, rest, same, sub, len, hl, data⟩ |
      ⟨fragment, before, fp, after, sub, queue, same⟩
    · rw [same]
      exact ⟨sound, (by rintro _ ⟨⟩)⟩
    · rw [same]
      refine ⟨fun fp member => sound fp (sub fp member), fun d' here => ?_⟩
      cases here
      have whole := checked.deliver
      unfold Packet.Whole at whole ⊢
      rw [len, hl, data]
      exact whole
    · obtain ⟨header, clear⟩ := clear fragment
      rw [same, Packet.inMbufs_short (x := m.trim) header]
      obtain ⟨left, answer⟩ := @ipReass_sound b.queue m.trim.frag fp fragment.1.held
        (fun q here => sound q (queue q here).1)
        (fun q here => clear q (queue q here).1 (queue q here).2) fragment.alone
      refine ⟨fun q member => ?_, answer⟩
      rcases List.mem_append.mp member with early | late
      · exact sound q (sub q (List.mem_append_left _ early))
      · rcases List.mem_append.mp late with new | late
        · exact left q (Option.mem_toList.mp new)
        · exact sound q (sub q (List.mem_append_right _ late))
  | slowtimo =>
    refine ⟨fun fp member => ?_, (by rintro _ ⟨⟩)⟩
    obtain ⟨old, origin, rfl⟩ := List.mem_map.mp (List.mem_of_mem_filter member)
    exact ⟨(sound old origin).ordered, (sound old origin).held⟩
  | drain => exact ⟨(by rintro _ ⟨⟩), (by rintro _ ⟨⟩)⟩

/-- In a run whose events all meet the condition, each queue is in order and without overlaps,
each length is that of the data, and each datagram handed on has the length it says. -/
theorem queues_stay_ordered {events : List Event} {ipq : List Ipq}
    (run : Run Handled [] events ipq) :
    (∀ fp ∈ ipq, (fp.frags.Pairwise fun a b => a.off ≤ b.off ∧ a.off + a.len ≤ b.off) ∧
      ∀ f ∈ fp.frags, 0 ≤ f.len ∧ f.len = f.data.length ∧ f.under = 0) ∧
    ∀ event d, event.Clear ipq → (handle ipq event).2 = some d →
      d.ip.len.toInt + (d.ip.hl * 4 : Nat) ≤ IP_MAXPACKET ∧ d.ip.len.toInt = d.data.length := by
  have sound : ∀ fp ∈ ipq, fp.Sound := by
    have preserved : ∀ s event t, True → (∀ fp ∈ s, Ipq.Sound fp) → Handled s event t →
        ∀ fp ∈ t, fp.Sound := by
      intro s event t _ sound step
      obtain ⟨clear, rfl⟩ := step
      exact (handle_sound sound clear).1
    exact run.invariant preserved (fun _ _ => trivial) (by rintro _ ⟨⟩)
  refine ⟨fun fp member => ⟨?_, fun f here => ?_⟩, fun event d clear same => ?_⟩
  · have held := (sound fp member).held
    apply (sound fp member).ordered.imp_of_mem
    intro a b here _ apart
    have data := (held a here).data
    omega
  · obtain ⟨data, whole, _, _, _, _⟩ := (sound fp member).held f here
    exact ⟨by omega, data, whole⟩
  · exact (handle_sound sound clear).2 d same

def header (len off : BitVec 16) : Ip := ⟨5, 0, len, 7, off, 64, 17, 1, 2⟩

def fragment (len off : BitVec 16) (data : List Byte) : Packet := ⟨header len off, data⟩

def overlapping : List Event :=
  [.packet plainMbufs (fragment 28 0x2001 (List.replicate 8 1)),
    .packet clusterMbufs (fragment 36 0x2000 (List.replicate 16 2))]

theorem queues_stay_ordered_two : ∃ ipq, Run Handled [] overlapping ipq ∧
    ∀ fp ∈ ipq, fp.frags.Pairwise fun a b => a.off ≤ b.off ∧ a.off + a.len ≤ b.off := by
  have run : Run Handled [] overlapping (receive []
      [(plainMbufs, fragment 28 0x2001 (List.replicate 8 1)),
        (clusterMbufs, fragment 36 0x2000 (List.replicate 16 2))]).1 := by
    refine .cons ⟨fun _ => ⟨fun _ => by decide, (by rintro _ ⟨⟩)⟩, rfl⟩
      (.cons ⟨fun _ => ⟨fun _ => by decide, fun fp member _ => ?_⟩, rfl⟩ (.nil _))
    rw [List.mem_singleton.mp member]
    have more : ∀ q ∈ [(fragment 36 0x2000 (List.replicate 16 2)).trim.frag,
        (fragment 28 0x2001 (List.replicate 8 1)).trim.frag], q.mff = true := by decide
    exact ⟨by decide, fun q here final => by rw [more q here] at final; contradiction⟩
  exact ⟨_, run, fun fp member => ((queues_stay_ordered run).1 fp member).1⟩

theorem ipintr_large {a b : List Byte} (first : a.length = 32000) (second : b.length = 32000) :
    ∃ d, (ipintr clusterMbufs (ipintr clusterMbufs [] (fragment 32020 0x2000 a)).1
        (fragment 32020 4000 b)).2 = some d ∧ d.ip.len.toInt = -1536 ∧ d.data = a ++ b := by
  have admitted : ∀ {off : BitVec 16} {data : List Byte}, data.length = 32000 →
      ¬ off &&& ~~~ IP_DF = 0 → off &&& IP_MF ≠ 0 ∨ (off <<< 3).toInt ≠ 0 →
      Admitted (fragment 32020 off data) := by
    intro off data length marked piece
    have header : (fragment 32020 off data).ip.len.toInt = 32020 := rfl
    have hlen : (fragment 32020 off data).ip.hl * 4 = 20 := rfl
    have held : (fragment 32020 off data).data.length = 32000 := length
    refine ⟨by rw [hlen]; decide, by rw [header, hlen]; decide, by rw [header, hlen, held]; decide,
      ?_, marked, piece.imp_left fun set => decide_eq_true set⟩
    apply List.take_of_length_le
    rw [header, hlen, held]
    omega
  have length : wrap16 ((32020 : BitVec 16).toInt - (5 : Nat) * 4) = 32000 := by decide
  have left : (fragment 32020 0x2000 a).frag = ⟨header 32020 0x2000, true, 32000, 0, a, 0⟩ := by
    have more : decide ((0x2000 : BitVec 16) &&& IP_MF ≠ 0) = true := by decide
    have start : ((0x2000 : BitVec 16) <<< 3).toInt = 0 := by decide
    exact (Frag.mk.injEq ..).mpr ⟨rfl, more, length, start, rfl, rfl⟩
  have right : (fragment 32020 4000 b).frag = ⟨header 32020 4000, false, 32000, 32000, b, 0⟩ := by
    have last : decide ((4000 : BitVec 16) &&& IP_MF ≠ 0) = false := by decide
    have start : ((4000 : BitVec 16) <<< 3).toInt = 32000 := by decide
    exact (Frag.mk.injEq ..).mpr ⟨rfl, last, length, start, rfl, rfl⟩
  rw [ipintr_first (admitted first (by decide) (by decide)) (by decide)
    (by change 5 * 4 ≤ 40; omega)
    (by simp)]
  have queued : (ipReass true (fragment 32020 0x2000 a).frag none).1.toList ++ [] =
      [(header 32020 0x2000).queue [⟨header 32020 0x2000, true, 32000, 0, a, 0⟩]] := by
    rw [left]
    simp [ipReass, Ipq.finish, contiguous, Ip.queue]
  rw [queued, ipintr_next (admitted second (by decide) (by decide)) (by decide)
    (by change 5 * 4 ≤ 40; omega) rfl, right]
  have place : enqueue ⟨header 32020 4000, false, 32000, 32000, b, 0⟩
      [⟨header 32020 0x2000, true, 32000, 0, a, 0⟩] =
      some [⟨header 32020 0x2000, true, 32000, 0, a, 0⟩, ⟨header 32020 4000, false, 32000, 32000, b,
        0⟩] := by
    rfl
  simp only [ipReass, Ip.queue, place]
  refine ⟨_, rfl, ?_, ?_⟩
  · rfl
  · simp [Ipq.packet]

/-- A fragment with 24 bytes of options, in a cluster: four bytes of them are not in the first
mbuf. -/
def optioned : Mbufs × Packet :=
  (⟨true, true, true, List.replicate 4 1⟩,
    ⟨{ header 204 0x2000 with hl := 11 }, List.replicate 160 0⟩)

set_option maxRecDepth 4000 in
/-- A fragment cut at byte 32776 comes to be queued behind one that it should precede, a
datagram of 64000 bytes is handed on with a length of -1536, and one with many options is queued
with four bytes of them in its data. -/
theorem queues_lose_order :
    (∃ fp, (receive [] [(clusterMbufs, fragment 36 0x2fff (List.replicate 16 1)),
        (clusterMbufs, fragment 44 0x2fff (List.replicate 24 2))]).1 = [fp] ∧
      ¬ fp.frags.Pairwise fun a b => a.off ≤ b.off) ∧
    (∃ ipq a d, (ipintr clusterMbufs ipq a).2 = some d ∧ ipq = (ipintr clusterMbufs []
        (fragment 32020 0x2000 (List.replicate 32000 0))).1 ∧ d.ip.len.toInt ≠ d.data.length) ∧
    ∃ fp f, (receive [] [optioned]).1 = [fp] ∧ f ∈ fp.frags ∧ f.len ≠ f.data.length := by
  refine ⟨?_, ?_, ?_⟩
  · exact ⟨_, rfl, by decide⟩
  · obtain ⟨d, same, length, data⟩ :=
      ipintr_large (List.length_replicate (n := 32000) (a := (0 : Byte)))
      (List.length_replicate (n := 32000) (a := (0 : Byte)))
    refine ⟨_, _, d, same, rfl, ?_⟩
    rw [length]
    omega
  · exact ⟨_, _, rfl, List.mem_singleton_self _, by decide⟩

end Runs

end FreeBsd.Netinet
