import FreeBsd.Netinet.TcpEvents

/-! The send sequence variables: `snd_una`, `snd_nxt` and `snd_max` stay in this order, and no
more is outstanding than there is in the send buffer, with the SYN and the FIN. -/
namespace FreeBsd.Netinet.Tcp

open FreeBsd.Lib

section Bounds

/-- How far `snd_nxt` and `snd_max` are ahead of `snd_una`. -/
def Sender.off (s : Sender) : Int := ahead s.una s.nxt
def Sender.sent (s : Sender) : Int := ahead s.una s.max

def Sender.finBit (s : Sender) : Int := if s.sentfin then 1 else 0

/-- The variables are in order, up to `l` below `snd_una`, and `k` numbers may be taken besides
the data and the FIN. -/
structure Bounds (l k : Int) (s : Sender) : Prop where
  low : l ≤ s.off
  high : s.off ≤ s.sent
  sent : 0 ≤ s.sent
  limit : s.sent ≤ s.cc + k + s.finBit
  fits : s.cc ≤ SB_MAX + 1024

variable {l k : Int} {s : Sender}

theorem Sender.finBit_bit (s : Sender) : s.finBit = 0 ∨ s.finBit = 1 := by
  unfold Sender.finBit
  split
  · exact .inr rfl
  · exact .inl rfl

theorem Bounds.near (bounds : Bounds l k s) (lk : -1 ≤ l ∧ k ≤ 1) :
    -1 ≤ s.off ∧ s.sent ≤ 66562 ∧ s.cc ≤ 66560 := by
  have fits : s.cc ≤ 66560 := bounds.fits
  have low := bounds.low
  have limit := bounds.limit
  rcases s.finBit_bit with bit | bit
  · lia
  · lia

theorem raiseMax_sent (n : Seq) (low : -2 ^ 30 ≤ ahead s.una n) (high : ahead s.una n < 2 ^ 30)
    (low' : -2 ^ 30 ≤ s.sent) (high' : s.sent < 2 ^ 30) :
    (s.raiseMax n).sent = max s.sent (ahead s.una n) := by
  have difference : (n - s.max).toInt = ahead s.una n - s.sent :=
    toInt_sub_of_ahead s.una (by unfold Sender.sent at *; lia) (by unfold Sender.sent at *; lia)
  unfold Sender.raiseMax
  split
  · rename_i new
    change ahead s.una n = _
    lia
  · rename_i old
    lia

theorem takeNumbers_off (len : Nat) (syn fin : Bool) (low : -1 ≤ s.off) (high : s.off ≤ 2 ^ 20)
    (short : len ≤ 2 ^ 20) :
    (s.takeNumbers len syn fin).off = s.off + (syn.toNat + fin.toNat + len : Nat) := by
  have bit : ∀ b : Bool, (if b then 1 else 0 : Seq) = BitVec.ofNat 32 b.toNat := by
    intro b
    cases b with
    | false => rfl
    | true => rfl
  have bits := syn.toNat_le
  have bits' := fin.toNat_le
  have total : s.nxt + (if syn then 1 else 0) + (if fin then 1 else 0) + BitVec.ofNat 32 len =
      s.nxt + BitVec.ofNat 32 (syn.toNat + fin.toNat + len) := by
    rw [bit, bit, BitVec.ofNat_add, BitVec.ofNat_add, add_assoc, add_assoc, add_assoc]
  unfold Sender.off at *
  rw [← ahead_add_ofNat (by lia) (by lia), ← total]
  rfl

theorem refin_off (fin : Bool) (bounds : Bounds l k s) (lk : -1 ≤ l ∧ k ≤ 1) :
    ((s.refin fin).off = s.off ∧ (fin = true → s.sentfin = true → s.off < s.sent)) ∨
      ((s.refin fin).off = s.off - 1 ∧ fin = true ∧ s.sentfin = true ∧ s.off = s.sent) := by
  obtain ⟨low, high, -⟩ := bounds.near lk
  unfold Sender.refin
  split
  · rename_i again
    right
    refine ⟨?_, again.1, again.2.1, ?_⟩
    · have back : s.nxt - 1 = s.nxt + BitVec.ofInt 32 (-1) := by
        rw [sub_eq_add_neg]
        rfl
      have moved : ahead s.una (s.nxt + BitVec.ofInt 32 (-1)) = ahead s.una s.nxt + (-1) :=
        ahead_add (by unfold Sender.off at *; lia)
          (by have := bounds.high; unfold Sender.off at *; lia)
      change ahead s.una (s.nxt - 1) = _
      rw [back, moved]
      rfl
    · rw [Sender.off, again.2.2]
      rfl
  · rename_i fresh
    refine .inl ⟨rfl, fun fin sentfin => lt_of_le_of_ne bounds.high fun same => ?_⟩
    exact fresh ⟨fin, sentfin, eq_of_ahead same⟩

theorem raiseMax_bounds (m : Seq) (low : l ≤ s.off) (high : s.off ≤ max s.sent (ahead s.una m))
    (sent : 0 ≤ s.sent) (limit : max s.sent (ahead s.una m) ≤ s.cc + k + s.finBit)
    (fits : s.cc ≤ SB_MAX + 1024) (near : -2 ^ 30 ≤ ahead s.una m) (small : k ≤ 1) :
    Bounds l k (s.raiseMax m) ∧ s.sent ≤ (s.raiseMax m).sent := by
  have fits' : s.cc ≤ 66560 := fits
  have bit := s.finBit_bit
  have raised : (s.raiseMax m).sent = max s.sent (ahead s.una m) :=
    raiseMax_sent m near (by lia) (by lia) (by lia)
  have frame := s.raiseMax_frame m
  have off : (s.raiseMax m).off = s.off := by
    unfold Sender.raiseMax
    split
    · rfl
    · rfl
  have finBit : (s.raiseMax m).finBit = s.finBit := by
    unfold Sender.raiseMax
    split
    · rfl
    · rfl
  refine ⟨⟨?_, ?_, ?_, ?_, ?_⟩, ?_⟩
  · rwa [off]
  · rwa [off, raised]
  · rw [raised]
    lia
  · rw [raised, frame.cc, finBit]
    exact limit
  · rw [frame.cc]
    exact fits
  · rw [raised]
    exact le_max_left _ _

theorem Bounds.setRexmt (bounds : Bounds l k s) (r : Bool) :
    Bounds l k (s.setRexmt r) ∧ (s.setRexmt r).sent = s.sent := by
  unfold Sender.setRexmt
  split
  · exact ⟨⟨bounds.low, bounds.high, bounds.sent, bounds.limit, bounds.fits⟩, rfl⟩
  · exact ⟨bounds, rfl⟩

theorem advance_bounds {len : Nat} {syn fin r : Bool} {n : Seq} (bounds : Bounds l k s)
    (lk : -1 ≤ l ∧ l ≤ 0 ∧ 0 ≤ k ∧ k ≤ 1)
    (start : (ahead s.una n = s.off ∧ (fin = true → s.sentfin = true → s.off < s.sent)) ∨
      (ahead s.una n = s.off - 1 ∧ fin = true ∧ s.sentfin = true ∧ s.off = s.sent))
    (data : len = 0 ∨ s.off + len ≤ s.cc)
    (first : syn = true → s.off = 0 ∧ s.cc = 0 ∧ k = 1 ∧ fin = false)
    (probe : s.force = true → s.persist = true → ahead s.una n < l → False) :
    Bounds l k ({ s with nxt := n }.advance len syn fin r) ∧
      s.sent ≤ ({ s with nxt := n }.advance len syn fin r).sent := by
  obtain ⟨near, near', near''⟩ := bounds.near ⟨lk.1, lk.2.2.2⟩
  obtain ⟨low, high, sent, limit, fits⟩ := bounds
  have bit := s.finBit_bit
  unfold Sender.advance
  split
  · have off : ({ s with nxt := n }.takeNumbers len syn fin).off =
        ahead s.una n + (syn.toNat + fin.toNat + len : Nat) :=
      takeNumbers_off (s := { s with nxt := n }) len syn fin
        (by change -1 ≤ ahead s.una n; lia) (by change ahead s.una n ≤ 2 ^ 20; lia) (by lia)
    have finBit : ({ s with nxt := n }.takeNumbers len syn fin).finBit =
      if s.sentfin || fin then 1 else 0 := rfl
    have total : ahead s.una n + (syn.toNat + fin.toNat + len : Nat) ≤ max s.sent (s.cc + k + 1) ∧
        (fin = false → ahead s.una n + (syn.toNat + fin.toNat + len : Nat) ≤
          max s.sent (s.cc + k)) ∧
        l ≤ ahead s.una n + (syn.toNat + fin.toNat + len : Nat) := by
      have unsent : s.sentfin = false → s.finBit = 0 := by
        intro none
        rw [Sender.finBit, none]
        rfl
      rcases start with ⟨same, older⟩ | ⟨back, rfl, again, last⟩
      · cases syn with
        | true =>
          obtain ⟨zero, empty, one, rfl⟩ := first rfl
          simp only [Bool.toNat_true, Bool.toNat_false]
          lia
        | false =>
          cases fin with
          | true =>
            simp only [Bool.toNat_true, Bool.toNat_false]
            cases sentfin : s.sentfin with
            | true =>
              have behind := older rfl sentfin
              exact ⟨by lia, (by rintro ⟨⟩), by lia⟩
            | false =>
              have zero := unsent sentfin
              exact ⟨by lia, (by rintro ⟨⟩), by lia⟩
          | false =>
            simp only [Bool.toNat_false]
            lia
      · cases syn with
        | true =>
          have none := (first rfl).2.2.2
          cases none
        | false =>
          simp only [Bool.toNat_true, Bool.toNat_false]
          exact ⟨by lia, (by rintro ⟨⟩), by lia⟩
    have more : s.finBit ≤ ({ s with nxt := n }.takeNumbers len syn fin).finBit ∧
        (fin = true → ({ s with nxt := n }.takeNumbers len syn fin).finBit = 1) := by
      rw [finBit, Sender.finBit]
      cases s.sentfin <;> cases fin <;> simp
    suffices raised : Bounds l k (({ s with nxt := n }.takeNumbers len syn fin).raiseMax
        ({ s with nxt := n }.takeNumbers len syn fin).nxt) ∧ s.sent ≤ _ by
      obtain ⟨set, same⟩ := raised.1.setRexmt r
      exact ⟨set, raised.2.trans_eq same.symm⟩
    apply raiseMax_bounds
    · rw [off]
      exact total.2.2
    · exact le_max_right _ _
    · exact sent
    · change max s.sent ({ s with nxt := n }.takeNumbers len syn fin).off ≤ s.cc + k + _
      rw [off]
      cases fin with
      | true =>
        have one := more.2 rfl
        lia
      | false =>
        have same := total.2.1 rfl
        lia
    · exact fits
    · change -2 ^ 30 ≤ ({ s with nxt := n }.takeNumbers len syn fin).off
      lia
    · exact lk.2.2.2
  · rename_i persist
    have mode : s.force = true ∧ s.persist = true := by
      simpa using persist
    have above : l ≤ ahead s.una n := not_lt.mp (probe mode.1 mode.2)
    have end' : ahead s.una (n + BitVec.ofNat 32 len) = ahead s.una n + len :=
      ahead_add_ofNat (by lia) (by lia)
    apply raiseMax_bounds
    · exact above
    · change ahead s.una n ≤ max s.sent (ahead s.una (n + BitVec.ofNat 32 len))
      lia
    · exact sent
    · change max s.sent (ahead s.una (n + BitVec.ofNat 32 len)) ≤ s.cc + k + s.finBit
      lia
    · exact fits
    · change -2 ^ 30 ≤ ahead s.una (n + BitVec.ofNat 32 len)
      lia
    · exact lk.2.2.2

/-- A forced call in persist state, after a FIN and with nothing outstanding. -/
def Probe (s : Sender) : Prop :=
  (tcpOutflags s.state).fin = true ∧ s.sentfin = true ∧ s.max = s.una ∧ s.force = true ∧
    s.persist = true

instance (s : Sender) : Decidable (Probe s) := inferInstanceAs (Decidable (_ ∧ _))

theorem Ready.bounds {t : Sender} (ready : Ready s t) (bounds : Bounds l k s) (lk : l ≤ 0) :
    Bounds l k t ∧ t.sent = s.sent := by
  cases ready with
  | same _ => exact ⟨bounds, rfl⟩
  | unpersist => exact ⟨⟨bounds.low, bounds.high, bounds.sent, bounds.limit, bounds.fits⟩, rfl⟩
  | shut =>
    have zero : ahead s.una s.una = 0 := ahead_self s.una
    refine ⟨⟨?_, ?_, bounds.sent, bounds.limit, bounds.fits⟩, rfl⟩
    · change l ≤ ahead s.una s.una
      omega
    · change ahead s.una s.una ≤ s.sent
      rw [zero]
      exact bounds.sent

theorem Sender.refin_eq (s : Sender) (fin : Bool) :
    s.refin fin = { s with nxt := (s.refin fin).nxt } := by
  unfold Sender.refin
  split
  · rfl
  · rfl

theorem Ready.of_forced {t : Sender} (ready : Ready s t) (force : t.force = true)
    (persist : t.persist = true) : t = s := by
  cases ready with
  | same _ => rfl
  | unpersist => cases persist
  | shut calm => exact absurd (calm.symm.trans force) (by rintro ⟨⟩)

structure Opening (s : Sender) : Prop where
  off : 0 ≤ s.off
  cc : s.cc = 0
  force : s.force = false
  window : s.window = false

theorem Ready.opening {t : Sender} (ready : Ready s t) (opening : Opening s) : t.off = 0 := by
  cases ready with
  | same closed =>
    have low := opening.off
    have high : s.off ≤ 0 := closed opening.force opening.window
    omega
  | unpersist force => exact absurd (opening.force.symm.trans force) (by rintro ⟨⟩)
  | shut => exact ahead_self s.una

theorem outflags_fin {state : TcpState} (fin : (tcpOutflags state).fin = true) :
    (tcpOutflags state).syn = false := by
  cases state with
  | finWait1 | closing | lastAck => rfl
  | closed | listen | synSent | synReceived | established | closeWait | finWait2 | timeWait =>
    cases fin

theorem Sends.data' {p len : Nat} {fin : Bool} (sends : Sends s p len fin) :
    len = 0 ∨ s.off + len ≤ s.cc := by
  rcases sends.copied with all | none
  · by_cases some : p = 0
    · exact .inl (all.trans some)
    · right
      rw [all]
      exact sends.data some
  · exact .inl none

theorem Passes.bounds {o : Option Seq} {again : Bool} {t : Sender} (pass : Passes s o again t)
    (bounds : Bounds l k s) (lk : -1 ≤ l ∧ l ≤ 0 ∧ 0 ≤ k ∧ k ≤ 1)
    (syn : (tcpOutflags s.state).syn = true → Opening s ∧ k = 1) (probe : l = 0 → ¬ Probe s) :
    Bounds l k t ∧ s.sent ≤ t.sent := by
  cases pass with
  | rest ready =>
    obtain ⟨ready, same⟩ := ready.bounds bounds lk.2.1
    exact ⟨ready, same.ge⟩
  | persist ready _ _ _ =>
    obtain ⟨ready, same⟩ := ready.bounds bounds lk.2.1
    exact ⟨⟨ready.low, ready.high, ready.sent, ready.limit, ready.fits⟩, same.ge⟩
  | @send t p len fin r again ready sends _ =>
    obtain ⟨bounds', same⟩ := ready.bounds bounds lk.2.1
    have start := refin_off fin bounds' ⟨lk.1, lk.2.2.2⟩
    rw [Sender.refin_eq] at start ⊢
    generalize (t.refin fin).nxt = n at start ⊢
    have start' : (ahead t.una n = t.off ∧ (fin = true → t.sentfin = true → t.off < t.sent)) ∨
        (ahead t.una n = t.off - 1 ∧ fin = true ∧ t.sentfin = true ∧ t.off = t.sent) := start
    have step := @advance_bounds _ _ _ len (tcpOutflags t.state).syn fin r n bounds' lk start
      sends.data' ?_ ?_
    · exact ⟨step.1, same.ge.trans step.2⟩
    · intro flag
      rw [ready.frame.state] at flag
      obtain ⟨opening, one⟩ := syn flag
      refine ⟨ready.opening opening, ready.frame.cc.trans opening.cc, one, ?_⟩
      rw [Bool.eq_false_iff]
      intro fin
      have none := outflags_fin (sends.fin fin).1
      rw [ready.frame.state, flag] at none
      cases none
    · intro force persist below
      change ahead t.una n < l at below
      have low := bounds'.low
      have sent := bounds'.sent
      rcases start' with ⟨here, -⟩ | ⟨back, fin, sentfin, last⟩
      · lia
      · have zero : l = 0 := by lia
        have none : t.sent = 0 := by lia
        have same := ready.of_forced force persist
        apply probe zero
        rw [← same]
        exact ⟨(sends.fin fin).1, sentfin, ahead_eq_zero.mp none, force, persist⟩

theorem Sender.raiseMax_persist (s : Sender) (n : Seq) :
    (s.raiseMax n).persist = s.persist ∧ (s.raiseMax n).sentfin = s.sentfin := by
  unfold Sender.raiseMax
  split
  · exact ⟨rfl, rfl⟩
  · exact ⟨rfl, rfl⟩

theorem advance_unpersisted {len : Nat} {syn fin r : Bool} (off : s.persist = false) :
    (s.advance len syn fin r).persist = false := by
  have taken : ((s.takeNumbers len syn fin).raiseMax (s.takeNumbers len syn fin).nxt).persist =
      false :=
    (Sender.raiseMax_persist _ _).1.trans off
  rw [Sender.advance, if_pos (.inr off)]
  simp only [Sender.setRexmt]
  split
  · rfl
  · exact taken

theorem advance_persist {len : Nat} {syn fin r : Bool} (force : s.force = true)
    (persist : (s.advance len syn fin r).persist = true) :
    s.persist = true ∧ (s.advance len syn fin r).sentfin = s.sentfin := by
  unfold Sender.advance at *
  split at persist
  · rename_i mode
    have off : s.persist = false := mode.resolve_left (by rw [force]; rintro ⟨⟩)
    simp only [Sender.setRexmt] at persist
    split at persist
    · cases persist
    · rw [(Sender.raiseMax_persist _ _).1] at persist
      exact absurd (off.symm.trans persist) (by rintro ⟨⟩)
  · rename_i mode
    rw [if_neg mode]
    rw [(Sender.raiseMax_persist _ _).1] at persist
    exact ⟨persist, (Sender.raiseMax_persist _ _).2⟩

theorem Sender.refin_persist (s : Sender) (fin : Bool) :
    (s.refin fin).persist = s.persist ∧ (s.refin fin).sentfin = s.sentfin := by
  unfold Sender.refin
  split
  · exact ⟨rfl, rfl⟩
  · exact ⟨rfl, rfl⟩

theorem Passes.probe {o : Option Seq} {t : Sender} (pass : Passes s o true t) (sent : 0 ≤ s.sent)
    (grows : s.sent ≤ t.sent) (probe : Probe t) : Probe s := by
  have frame := pass.frame
  obtain ⟨fin, sentfin, none, force, persist⟩ := probe
  rw [frame.state] at fin
  rw [frame.force] at force
  have none' : s.sent = 0 := by
    have zero : t.sent = 0 := ahead_eq_zero.mpr none
    omega
  cases pass with
  | @send t p len flag r again ready sends _ =>
    have forced : (t.refin flag).force = true := by
      rw [(t.refin_frame flag).force]
      exact ready.frame.force.trans force
    obtain ⟨running, same⟩ := advance_persist forced persist
    rw [same] at sentfin
    rw [(t.refin_persist flag).1] at running
    rw [(t.refin_persist flag).2] at sentfin
    have here := ready.of_forced (ready.frame.force.trans force) running
    rw [here] at running sentfin
    exact ⟨fin, sentfin, ahead_eq_zero.mp none', force, running⟩

theorem Outputs.bounds {fins : List Seq} {t : Sender} (outputs : Outputs s fins t)
    (bounds : Bounds l k s) (lk : -1 ≤ l ∧ l ≤ 0 ∧ 0 ≤ k ∧ k ≤ 1)
    (syn : (tcpOutflags s.state).syn = true → Opening s ∧ k = 1) (probe : l = 0 → ¬ Probe s) :
    Bounds l k t ∧ s.sent ≤ t.sent := by
  induction outputs with
  | last pass => exact pass.bounds bounds lk syn probe
  | @more s o t fins u pass rest ih =>
    obtain ⟨bounds', grows⟩ := pass.bounds bounds lk syn probe
    have unsynchronized : ¬ (tcpOutflags t.state).syn = true := by
      intro flag
      rw [pass.frame.state] at flag
      obtain ⟨opening, -⟩ := syn flag
      have low := opening.off
      have empty := opening.cc
      cases pass with
      | send _ _ more =>
        have room : s.off < s.cc := more rfl
        omega
    obtain ⟨bounds'', grows'⟩ := ih bounds' (fun flag => absurd flag unsynchronized)
      fun zero after => probe zero (pass.probe bounds.sent grows after)
    exact ⟨bounds'', grows.trans grows'⟩

structure Sender.Numbers (s t : Sender) : Prop where
  una : t.una = s.una
  nxt : t.nxt = s.nxt
  max : t.max = s.max
  cc : t.cc = s.cc
  sentfin : t.sentfin = s.sentfin

theorem Bounds.same {t : Sender} (bounds : Bounds l k s) (numbers : s.Numbers t) :
    Bounds l k t := by
  have off : t.off = s.off := by
    rw [Sender.off, numbers.una, numbers.nxt]
    rfl
  have sent : t.sent = s.sent := by
    rw [Sender.sent, numbers.una, numbers.max]
    rfl
  have finBit : t.finBit = s.finBit := by
    rw [Sender.finBit, numbers.sentfin]
    rfl
  constructor
  · rw [off]
    exact bounds.low
  · rw [off, sent]
    exact bounds.high
  · rw [sent]
    exact bounds.sent
  · rw [sent, numbers.cc, finBit]
    exact bounds.limit
  · rw [numbers.cc]
    exact bounds.fits

theorem Sender.settled_numbers (s : Sender) : s.Numbers s.settled := by
  unfold Sender.settled
  split
  · exact ⟨rfl, rfl, rfl, rfl, rfl⟩
  · exact ⟨rfl, rfl, rfl, rfl, rfl⟩

theorem Sender.ended_numbers (s : Sender) (fin : Bool) : s.Numbers (s.ended fin) := by
  unfold Sender.ended
  split
  · split
    · exact ⟨rfl, rfl, rfl, rfl, rfl⟩
    · exact ⟨rfl, rfl, rfl, rfl, rfl⟩
    · exact ⟨rfl, rfl, rfl, rfl, rfl⟩
  · exact ⟨rfl, rfl, rfl, rfl, rfl⟩

theorem Sender.fin_numbers (s : Sender) : s.Numbers s.fin := by
  unfold Sender.fin
  split
  · exact ⟨rfl, rfl, rfl, rfl, rfl⟩
  · exact ⟨rfl, rfl, rfl, rfl, rfl⟩
  · exact ⟨rfl, rfl, rfl, rfl, rfl⟩
  · exact ⟨rfl, rfl, rfl, rfl, rfl⟩
  · exact ⟨rfl, rfl, rfl, rfl, rfl⟩

theorem Sender.close_numbers (s : Sender) : s.Numbers s.close := by
  unfold Sender.close
  split
  · exact ⟨rfl, rfl, rfl, rfl, rfl⟩
  · exact ⟨rfl, rfl, rfl, rfl, rfl⟩
  · exact ⟨rfl, rfl, rfl, rfl, rfl⟩
  · exact ⟨rfl, rfl, rfl, rfl, rfl⟩

theorem Bounds.acceptable {ack : Seq} (bounds : Bounds l k s) (lk : -1 ≤ l ∧ k ≤ 1)
    (new : SEQ_GT ack s.una) (within : SEQ_LEQ ack s.max) :
    0 < ahead s.una ack ∧ ahead s.una ack ≤ s.sent ∧
      ((ack - s.una).toNat : Int) = ahead s.una ack := by
  obtain ⟨-, high, -⟩ := bounds.near lk
  have sent := bounds.sent
  have positive : 0 < ahead s.una ack := new
  have word := (ack - s.una).isLt
  have signed : ahead s.una ack =
    if 2 * (ack - s.una).toNat < 2 ^ 32 then ((ack - s.una).toNat : Int)
      else (ack - s.una).toNat - (2 ^ 32 : Nat) := BitVec.toInt_eq_toNat_cond _
  have exact' : ((ack - s.una).toNat : Int) = ahead s.una ack := by
    split at signed
    · exact signed.symm
    · lia
  refine ⟨positive, ?_, exact'⟩
  have difference : (ack - s.max).toInt = ahead s.una ack - s.sent :=
    toInt_sub_of_ahead s.una (by unfold Sender.sent at *; lia) (by unfold Sender.sent at *; lia)
  lia

theorem dropAcked_bounds {ack nxt : Seq} {w : Bool} (bounds : Bounds l k s)
    (lk : -1 ≤ l ∧ l ≤ 0 ∧ 0 ≤ k ∧ k ≤ 1) (new : SEQ_GT ack s.una) (within : SEQ_LEQ ack s.max)
    (moved : nxt = (if SEQ_LT s.nxt ack then ack else s.nxt) ∨ nxt = s.nxt ∧ s.nxt = s.max) :
    Bounds l k (s.dropAcked ack nxt w) ∧
      (s.dropAcked ack nxt w).sent = s.sent - ahead s.una ack := by
  obtain ⟨near, near', -⟩ := bounds.near ⟨lk.1, lk.2.2.2⟩
  obtain ⟨positive, covered, exact'⟩ := bounds.acceptable ⟨lk.1, lk.2.2.2⟩ new within
  obtain ⟨low, high, sent, limit, fits⟩ := bounds
  have bit := s.finBit_bit
  have sent' : (s.dropAcked ack nxt w).sent = s.sent - ahead s.una ack := by
    change ahead ack s.max = _
    exact ahead_rebase (by unfold Sender.sent at *; lia) (by unfold Sender.sent at *; lia)
  have old : ahead ack s.nxt = s.off - ahead s.una ack :=
    ahead_rebase (by unfold Sender.off at *; lia) (by unfold Sender.off at *; lia)
  have off' : (s.dropAcked ack nxt w).off = max 0 (s.off - ahead s.una ack) := by
    change ahead ack nxt = _
    rcases moved with rfl | ⟨rfl, last⟩
    · split
      · rename_i behind
        have before : ahead ack s.nxt < 0 := behind
        rw [ahead_self]
        lia
      · rename_i behind
        have after : ¬ ahead ack s.nxt < 0 := behind
        lia
    · have same : s.off = s.sent := by
        rw [Sender.off, last]
        rfl
      lia
  have cc' : ((s.dropAcked ack nxt w).cc : Int) = max 0 (s.cc - ahead s.una ack) := by
    change ((s.cc - (ack - s.una).toNat : Nat) : Int) = _
    lia
  have finBit' : (s.dropAcked ack nxt w).finBit = s.finBit := rfl
  refine ⟨⟨?_, ?_, ?_, ?_, ?_⟩, sent'⟩
  · lia
  · lia
  · lia
  · lia
  · lia

end Bounds

section Ordered

/-- Before the connection is established there is nothing to send, and no window. -/
structure Early (s : Sender) : Prop where
  cc : s.cc = 0
  force : s.force = false
  persist : s.persist = false
  window : s.window = false

structure Ordered (s : Sender) : Prop where
  bounds : Bounds 0 1 s
  early : s.state.num < TcpState.established.num → Early s
  iss : s.state = .synSent → s.una = s.iss

/-- `tcp_output` is not called as a probe that moves `snd_nxt` below `snd_una`. -/
def Regular (s : Sender) : Prop := ¬ Probe s

instance : DecidablePred Regular := fun _ => inferInstanceAs (Decidable (¬ _))

/-- The calls that `Regular` allows, and urgent data once the connection is established. -/
def regular : Guard where
  output := Regular
  establish _ _ := True
  early := True
  abandon := True
  urgent state := TcpState.established.num ≤ state.num

variable {s t : Sender}

/-- A move that leaves the numbers alone, and does not go back to an earlier state. -/
theorem Ordered.same (ordered : Ordered s) (numbers : s.Numbers t)
    (early : t.state.num < TcpState.established.num → s.state.num < TcpState.established.num ∧
      (Early s → Early t))
    (iss : t.state = .synSent → s.state = .synSent ∧ t.iss = s.iss) : Ordered t where
  bounds := ordered.bounds.same numbers
  early before := (early before).2 (ordered.early (early before).1)
  iss state := by
    rw [numbers.una, (iss state).2]
    exact ordered.iss (iss state).1

theorem Passes.early {o : Option Seq} {again : Bool} (pass : Passes s o again t) (early : Early s) :
    Early t := by
  have frame := pass.frame
  refine ⟨frame.cc.trans early.cc, frame.force.trans early.force, ?_,
    frame.window.trans early.window⟩
  have ready : ∀ {t}, Ready s t → t.persist = false := by
    intro t ready
    cases ready with
    | same _ => exact early.persist
    | unpersist => rfl
    | shut => exact early.persist
  cases pass with
  | rest before => exact ready before
  | persist before _ _ data => exact absurd (before.frame.cc.trans early.cc) data
  | @send t p len fin r again before _ _ =>
    apply advance_unpersisted
    rw [(t.refin_persist fin).1]
    exact ready before

theorem Outputs.early {fins : List Seq} (outputs : Outputs s fins t) (early : Early s) :
    Early t := by
  induction outputs with
  | last pass => exact pass.early early
  | more pass _ ih => exact ih (pass.early early)

theorem Ordered.outputs {fins : List Seq} (ordered : Ordered s) (regular : Regular s)
    (outputs : Outputs s fins t) : Ordered t ∧ s.sent ≤ t.sent := by
  obtain ⟨bounds, grows⟩ := outputs.bounds ordered.bounds (by omega) (by
    intro flag
    have before : s.state.num < TcpState.established.num := by
      cases state : s.state with
      | synSent | synReceived => decide
      | _ =>
        rw [state] at flag
        cases flag
    have early := ordered.early before
    exact ⟨⟨ordered.bounds.low, early.cc, early.force, early.window⟩, rfl⟩) fun _ => regular
  refine ⟨⟨bounds, ?_, ?_⟩, grows⟩
  · rw [outputs.frame.state]
    exact fun before => outputs.early (ordered.early before)
  · rw [outputs.frame.state, outputs.frame.una, outputs.frame.iss]
    exact ordered.iss

theorem Bounds.back {l k : Int} (bounds : Bounds l k s) (low : l ≤ 0) (r : Bool) :
    Bounds l k { s with rexmt := r, nxt := s.una } := by
  have zero : ahead s.una s.una = 0 := ahead_self s.una
  refine ⟨?_, ?_, bounds.sent, bounds.limit, bounds.fits⟩
  · change l ≤ ahead s.una s.una
    omega
  · change ahead s.una s.una ≤ s.sent
    rw [zero]
    exact bounds.sent

theorem Bounds.feed {l k : Int} {n : Nat} (bounds : Bounds l k s)
    (room : s.cc + n ≤ SB_MAX + 1024) :
    Bounds l k (s.feed n) := by
  refine ⟨bounds.low, bounds.high, bounds.sent, ?_, room⟩
  have before := bounds.limit
  change s.sent ≤ (s.cc + n : Nat) + k + s.finBit
  omega

theorem Bounds.start {l k : Int} (bounds : Bounds l k s) (lk : l ≤ 0 ∧ 0 ≤ k) (state : TcpState)
    (iss : Seq) :
    Bounds l k { s with state := state, iss := iss, una := iss, nxt := iss, max := iss } := by
  have zero : ahead iss iss = 0 := ahead_self iss
  have bit := s.finBit_bit
  refine ⟨?_, le_refl _, ?_, ?_, bounds.fits⟩
  · change l ≤ ahead iss iss
    lia
  · change 0 ≤ ahead iss iss
    lia
  · change ahead iss iss ≤ s.cc + k + s.finBit
    lia

theorem Bounds.forth {l k : Int} {n : Seq} (bounds : Bounds l k t)
    (low : l ≤ ahead t.una n) (high : ahead t.una n ≤ t.sent) :
    Bounds l k { t with nxt := if SEQ_GT n t.nxt then n else t.nxt } := by
  refine ⟨?_, ?_, bounds.sent, bounds.limit, bounds.fits⟩
  · change l ≤ ahead t.una (if SEQ_GT n t.nxt then n else t.nxt)
    split
    · exact low
    · exact bounds.low
  · change ahead t.una (if SEQ_GT n t.nxt then n else t.nxt) ≤ t.sent
    split
    · exact high
    · exact bounds.high

theorem Sender.ended_num (s : Sender) (fin : Bool) (synchronized : 4 ≤ s.state.num) :
    4 ≤ (s.ended fin).state.num := by
  unfold Sender.ended
  split
  · split
    · simp [TcpState.num]
    · simp [TcpState.num]
    · exact synchronized
  · exact synchronized

theorem Sender.settled_num (s : Sender) (rcvd : s.state.haveRcvdSyn) : 4 ≤ s.settled.state.num := by
  unfold Sender.settled
  split
  · simp [TcpState.num]
  · rename_i other
    cases state : s.state with
    | synReceived => exact absurd state other
    | closed | listen | synSent =>
      rw [state] at rcvd
      exact absurd rcvd (by decide)
    | _ => decide

theorem TcpState.haveRcvdSyn.ne {state : TcpState} (rcvd : state.haveRcvdSyn) :
    state ≠ .synSent := by
  rintro rfl
  exact absurd rcvd (by decide)

theorem Ordered.close (ordered : Ordered s) : Ordered s.close := by
  apply ordered.same s.close_numbers
  · unfold Sender.close
    split
    · exact fun before => absurd before (by simp [TcpState.num])
    · exact fun before => absurd before (by simp [TcpState.num])
    · exact fun before => absurd before (by simp [TcpState.num])
    · exact fun before => ⟨before, fun early => ⟨early.cc, early.force, early.persist,
        early.window⟩⟩
  · unfold Sender.close
    split <;> simp_all

theorem Moves.ordered {fins : List Seq} (move : Moves regular s fins t) (ordered : Ordered s) :
    Ordered t := by
  have bounds := ordered.bounds
  have later := move.rcvd
  cases move with
  | syn iss state =>
    have early := ordered.early (by rw [state]; decide)
    exact ⟨bounds.start (by omega) _ iss, fun _ => ⟨early.cc, early.force, early.persist,
      early.window⟩, (by rintro ⟨⟩)⟩
  | synAck ack state new within =>
    have empty := (ordered.early (by rw [state]; decide)).cc
    rw [← ordered.iss state] at new
    have dropped := (dropAcked_bounds (w := s.window) bounds (by omega) new within (.inl rfl)).1
    have numbers : (s.dropAcked ack (if SEQ_LT s.nxt ack then ack else s.nxt) s.window).Numbers
        { s with state := .established, rexmt := false, una := ack,
                 nxt := if SEQ_LT s.nxt ack then ack else s.nxt } :=
      ⟨rfl, rfl, rfl, by rw [Sender.dropAcked, empty]; simp, rfl⟩
    exact ⟨dropped.same numbers, fun before => absurd before (lt_irrefl _), (by rintro ⟨⟩)⟩
  | synOnly state =>
    have early := ordered.early (by rw [state]; decide)
    exact ⟨bounds.same ⟨rfl, rfl, rfl, rfl, rfl⟩,
      fun _ => ⟨early.cc, early.force, early.persist, early.window⟩, (by rintro ⟨⟩)⟩
  | establish ack state _ _ =>
    have rcvd : s.state.haveRcvdSyn := by
      rw [state]
      decide
    apply ordered.same s.settled_numbers
    · intro before
      exact absurd (s.settled_num rcvd) (not_le.mpr before)
    · intro connecting
      exact absurd connecting (later rcvd).ne
  | acked ack nxt r w rcvd new within _ _ moved =>
    have numbers := s.settled_numbers
    have settled : Bounds 0 1 (s.settled.ackRexmt ack r) := by
      apply (bounds.same numbers).same
      exact ⟨rfl, rfl, rfl, rfl, rfl⟩
    have dropped := (@dropAcked_bounds _ _ _ ack nxt w settled (by omega) (by
      change SEQ_GT ack s.settled.una
      rwa [numbers.una]) (by
      change SEQ_LEQ ack s.settled.max
      rwa [numbers.max]) (by
      change nxt = (if SEQ_LT s.settled.nxt ack then ack else s.settled.nxt) ∨
        nxt = s.settled.nxt ∧ s.settled.nxt = s.settled.max
      rwa [numbers.nxt, numbers.max])).1
    have ended := ((s.settled.ackRexmt ack r).dropAcked ack nxt w).ended_numbers
      (decide ((ack - s.settled.una).toNat > s.settled.cc))
    refine ⟨dropped.same ended, ?_, ?_⟩
    · intro before
      have after := Sender.ended_num ((s.settled.ackRexmt ack r).dropAcked ack nxt w)
        (decide ((ack - s.settled.una).toNat > s.settled.cc)) (s.settled_num rcvd)
      exact absurd after (not_le.mpr before)
    · intro connecting
      exact absurd connecting (later rcvd).ne
  | window w established =>
    exact ⟨bounds.same ⟨rfl, rfl, rfl, rfl, rfl⟩,
      fun before => absurd established (not_le.mpr before), ordered.iss⟩
  | queue _ _ =>
    exact ordered.same ⟨rfl, rfl, rfl, rfl, rfl⟩ (fun before => ⟨before, fun early =>
      ⟨early.cc, early.force, early.persist, early.window⟩⟩) fun state => ⟨state, rfl⟩
  | fin _ =>
    apply ordered.same s.fin_numbers
    · unfold Sender.fin
      split <;> simp_all [TcpState.num]
    · unfold Sender.fin
      split <;> simp_all
  | shut =>
    exact ordered.same ⟨rfl, rfl, rfl, rfl, rfl⟩ (fun before => ⟨before, fun early =>
      ⟨early.cc, early.force, early.persist, early.window⟩⟩) fun state => ⟨state, rfl⟩
  | outputs allowed outputs => exact (ordered.outputs allowed outputs).1
  | @retransmit fins t allowed outputs =>
    have ordered' : Ordered { s with rexmt := false, nxt := s.una } := by
      refine ⟨bounds.back (by omega) false, fun before => ?_, ordered.iss⟩
      have early := ordered.early before
      exact ⟨early.cc, early.force, early.persist, early.window⟩
    obtain ⟨after, grows⟩ := ordered'.outputs allowed outputs
    have una : t.una = s.una := outputs.frame.una
    have forth := after.bounds.forth (n := s.nxt) (by rw [una]; exact bounds.low)
      (by rw [una]; exact bounds.high.trans grows)
    refine ⟨forth, fun before => ?_, after.iss⟩
    have early := after.early before
    exact ⟨early.cc, early.force, early.persist, early.window⟩
  | connect iss state =>
    have early := ordered.early (by rw [state]; decide)
    exact ⟨bounds.start (by omega) _ iss, fun _ => ⟨early.cc, early.force, early.persist,
      early.window⟩, fun _ => rfl⟩
  | close _ => exact ordered.close
  | force force allowed =>
    refine ⟨bounds.same ⟨rfl, rfl, rfl, rfl, rfl⟩, fun before => ?_, ordered.iss⟩
    have early := ordered.early before
    refine ⟨early.cc, ?_, early.persist, early.window⟩
    cases force with
    | false => rfl
    | true =>
      rcases allowed rfl with running | established
      · exact absurd (early.persist.symm.trans running) (by rintro ⟨⟩)
      · exact absurd established (not_le.mpr before)
  | timeout r _ =>
    refine ⟨bounds.back (by omega) r, fun before => ?_, ordered.iss⟩
    have early := ordered.early before
    exact ⟨early.cc, early.force, early.persist, early.window⟩

theorem Path.ordered {fins : List Seq} (path : Path regular s fins t) (ordered : Ordered s) :
    Ordered t := by
  induction path with
  | nil => exact ordered
  | cons move _ ih => exact ih (move.ordered ordered)

instance : DecidablePred regular.output := inferInstanceAs (DecidablePred Regular)

/-- A step in which every call of `tcp_output` is `Regular`. -/
def RegularStep (tp : Tcb) (event : Event) (tp' : Tcb) : Prop :=
  Sosend tp event ∧ StepIn Regular tp event tp'

theorem promised_regular {tp : Tcb} {event : Event} (sosend : Sosend tp event) :
    Promised regular tp event := by
  cases event with
  | segment inEnv ti env => exact ⟨fun _ _ => trivial, fun _ _ => trivial⟩
  | request env req =>
    cases req with
    | sendoob full m => exact (sosend m rfl).1
    | shutdown => exact fun _ => trivial
    | _ => trivial
  | slowtimo | fasttimo | quench => trivial

theorem Ordered.feed {n : Nat} (ordered : Ordered s)
    (room : n = 0 ∨ TcpState.established.num ≤ s.state.num ∧ s.cc + n ≤ SB_MAX + 1024) :
      Ordered (s.feed n) := by
  rcases room with rfl | ⟨connected, room⟩
  · exact ordered
  · refine ⟨ordered.bounds.feed room, fun before => ?_, ordered.iss⟩
    exact absurd connected (not_le.mpr before)

theorem run_ordered {tp tp' : Tcb} {events : List Event} (run : Run RegularStep tp events tp')
    (fresh : tp.sender.Fresh) (ordered : Ordered tp.sender) : Ordered tp'.sender := by
  induction run with
  | nil => exact ordered
  | cons step _ ih =>
    obtain ⟨sosend, fuel, outs, -, done⟩ := step
    have path :=
      (handle_follows (guarded_sound regular fuel) _ _ fresh (promised_regular sosend)).path _ _
      done
    exact ih (path.fresh fresh)
      (path.ordered (ordered.feed (sosend.room.imp_right fun room => ⟨room.1, room.2.2⟩)))

theorem Bounds.idle {l k : Int} (lk : l ≤ 0 ∧ 0 ≤ k) (nxt : s.nxt = s.una) (max : s.max = s.una)
    (cc : s.cc = 0) : Bounds l k s := by
  have off : s.off = 0 := ahead_eq_zero.mpr nxt
  have sent : s.sent = 0 := ahead_eq_zero.mpr max
  have bit := s.finBit_bit
  exact ⟨by lia, by lia, by lia, by lia, by lia⟩

theorem begins_idle {tp : Tcb} (begins : Begins tp) : tp.sender.nxt = tp.sender.una ∧
    tp.sender.max = tp.sender.una ∧ Early tp.sender ∧ tp.state ≠ .synSent := by
  obtain ⟨sndHiwat, rcvHiwat, rfl | rfl⟩ := begins
  · exact ⟨rfl, rfl, ⟨rfl, rfl, rfl, rfl⟩, (by rintro ⟨⟩)⟩
  · exact ⟨rfl, rfl, ⟨rfl, rfl, rfl, rfl⟩, (by rintro ⟨⟩)⟩

theorem begins_ordered {tp : Tcb} (begins : Begins tp) : Ordered tp.sender := by
  obtain ⟨nxt, max, early, state⟩ := begins_idle begins
  exact ⟨.idle (by omega) nxt max early.cc, fun _ => early,
    fun connecting => absurd connecting state⟩

def InOrder (tp : Tcb) : Prop :=
  SEQ_LEQ tp.sndUna tp.sndNxt ∧ SEQ_LEQ tp.sndNxt tp.sndMax ∧
    0 ≤ (tp.sndMax - tp.sndUna).toInt ∧ (tp.sndMax - tp.sndUna).toInt ≤ tp.soSnd.length + 2

instance (tp : Tcb) : Decidable (InOrder tp) := inferInstanceAs (Decidable (_ ∧ _))

theorem sequence_in_order {tp tp' : Tcb} {events : List Event} (begins : Begins tp)
    (run : Run RegularStep tp events tp') : InOrder tp' := by
  obtain ⟨⟨low, high, sent, limit, fits⟩, -, -⟩ :=
    run_ordered run (begins_fresh begins).1 (begins_ordered begins)
  have bit := tp'.sender.finBit_bit
  have fits' : tp'.soSnd.length ≤ 66560 := fits
  have limit' : tp'.sender.sent ≤ tp'.soSnd.length + 1 + tp'.sender.finBit := limit
  have zero : ahead tp'.sndUna tp'.sndUna = 0 := ahead_self _
  have off : ahead tp'.sndUna tp'.sndNxt = tp'.sender.off := rfl
  have max : ahead tp'.sndUna tp'.sndMax = tp'.sender.sent := rfl
  have first : (tp'.sndUna - tp'.sndNxt).toInt = 0 - tp'.sender.off := by
    rw [← zero, ← off]
    exact toInt_sub_of_ahead tp'.sndUna (by omega) (by omega)
  have second : (tp'.sndNxt - tp'.sndMax).toInt = tp'.sender.off - tp'.sender.sent := by
    rw [← off, ← max]
    exact toInt_sub_of_ahead tp'.sndUna (by omega) (by omega)
  refine ⟨by omega, by omega, sent, ?_⟩
  change tp'.sender.sent ≤ _
  omega

/-- A connection that is closed when its window is, loses the data of its last segment but not
the FIN to a failure of `m_copy`, and comes to probe a window of 0 with one byte left. -/
def probed : List Event :=
  [.request ample (.connect true 1000), bare synAckFlags 7000 1001 0 ample,
    .request ample (.send (List.replicate 45 0)), .request ample .shutdown,
    bare ackFlags 7001 1001 60 scarce, bare ackFlags 7001 1002 43 ample,
    bare ackFlags 7001 1045 0 ample] ++
    List.replicate 10 (.slowtimo fun _ => ample)

theorem sequence_out_of_order : ¬ ∀ (tp tp' : Tcb) (events : List Event), Begins tp →
    Run (fun tp event tp' => Sosend tp event ∧ Step tp event tp') tp events tp' → InOrder tp' := by
  intro claim
  have found :
      ((replay (fun tp event => if Sosend tp event then stepIn (fun _ => True) 5 tp event else none)
      (tcpNewtcpcb 8192 8192) probed).any fun tp => decide (¬ InOrder tp)) = true := by
    decide +kernel
  obtain ⟨tp', replayed, broken⟩ := (Option.any_eq_true _ _).mp found
  have run : Run (fun tp event tp' => Sosend tp event ∧ Step tp event tp') _ _ tp' := replay_run (by
    intro tp event tp' step
    obtain ⟨sosend, step⟩ := Option.ite_none_right_eq_some.mp step
    exact ⟨sosend, (stepIn_sound step).step⟩) replayed
  exact of_decide_eq_true broken (claim _ tp' _ ⟨8192, 8192, .inl rfl⟩ run)

def closed : List Event :=
  [.request ample (.connect true 1000), bare synAckFlags 7000 1001 0 ample,
    .request ample (.send (List.replicate 45 0)), .request ample .shutdown,
    bare ackFlags 7001 1001 60 ample, bare ackFlags 7001 1046 0 ample]

theorem sequence_in_order_closed : ∃ tp', Run RegularStep (tcpNewtcpcb 8192 8192) closed tp' ∧
    tp'.state = .finWait1 ∧ tp'.sentfin = true ∧ InOrder tp' := by
  have found :
      ((replay (fun tp event => if Sosend tp event then stepIn Regular 5 tp event else none)
      (tcpNewtcpcb 8192 8192) closed).any fun tp => decide (tp.state = .finWait1 ∧
        tp.sentfin = true)) = true := by
    decide +kernel
  obtain ⟨tp', replayed, state⟩ := (Option.any_eq_true _ _).mp found
  obtain ⟨state, sentfin⟩ := of_decide_eq_true state
  have run : Run RegularStep _ _ _ := replay_run (by
    intro tp event tp' step
    obtain ⟨sosend, step⟩ := Option.ite_none_right_eq_some.mp step
    exact ⟨sosend, stepIn_sound step⟩) replayed
  exact ⟨tp', run, state, sentfin, sequence_in_order ⟨8192, 8192, .inl rfl⟩ run⟩

end Ordered

end FreeBsd.Netinet.Tcp
