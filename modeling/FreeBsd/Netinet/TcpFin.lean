import FreeBsd.Netinet.TcpSequence

/-! When an acknowledgment is taken for that of our FIN: only the length of the send buffer is
asked, so that the answer is right as long as the SYN has been acknowledged before. -/
namespace FreeBsd.Netinet.Tcp

open FreeBsd.Lib

section Passes

variable {s t : Sender}

theorem advance_sentfin (s : Sender) (len : Nat) (syn r : Bool) :
    (s.advance len syn false r).sentfin = s.sentfin := by
  have taken : ((s.takeNumbers len syn false).raiseMax (s.takeNumbers len syn false).nxt).sentfin =
      s.sentfin := by
    rw [(Sender.raiseMax_persist _ _).2]
    exact Bool.or_false _
  unfold Sender.advance
  split
  · simp only [Sender.setRexmt]
    split
    · exact taken
    · exact taken
  · exact (Sender.raiseMax_persist _ _).2

theorem Ready.sentfin (ready : Ready s t) : t.sentfin = s.sentfin := by
  cases ready with
  | same | unpersist | shut => rfl

theorem Passes.fin {o : Option Seq} {again : Bool} (pass : Passes s o again t) :
    o = none ∧ t.sentfin = s.sentfin ∨
      ∃ f, o = some f ∧ (tcpOutflags s.state).fin = true ∧
        (Bounds (-1) 0 s → -1 ≤ ahead s.una f ∧ ahead s.una f ≤ s.cc) := by
  cases pass with
  | rest ready => exact .inl ⟨rfl, ready.sentfin⟩
  | persist ready _ _ _ => exact .inl ⟨rfl, ready.sentfin⟩
  | @send t p len fin r again ready sends _ =>
    cases fin with
    | false =>
      left
      refine ⟨rfl, ?_⟩
      rw [advance_sentfin, (t.refin_persist false).2]
      exact ready.sentfin
    | true =>
      right
      refine ⟨_, rfl, ready.frame.state ▸ (sends.fin rfl).1, fun bounds => ?_⟩
      obtain ⟨bounds, -⟩ := ready.bounds bounds (by lia)
      obtain ⟨near, near', near''⟩ := bounds.near (by lia)
      have start := refin_off true bounds (by lia)
      have data := sends.data'
      have limit := bounds.limit
      have high := bounds.high
      have sent := bounds.sent
      have bit := t.finBit_bit
      have unsent : t.sentfin = false → t.finBit = 0 := by
        intro none
        rw [Sender.finBit, none]
        rfl
      have una : (t.refin true).una = t.una := (t.refin_frame true).una
      have off : ahead t.una (t.refin true).nxt = (t.refin true).off := by
        rw [Sender.off, una]
      rw [← ready.frame.una, ← ready.frame.cc]
      have moved : ahead t.una ((t.refin true).nxt + BitVec.ofNat 32 len) =
          (t.refin true).off + len := by
        rw [← off]
        exact ahead_add_ofNat (by lia) (by lia)
      rw [moved]
      rcases start with ⟨same, older⟩ | ⟨back, -, again, last⟩
      · cases sentfin : t.sentfin with
        | true =>
          have behind := older rfl sentfin
          lia
        | false =>
          have zero := unsent sentfin
          lia
      · lia

end Passes

section Finned

theorem ahead_data {cc : Nat} (una : Seq) (fits : cc ≤ 66560) :
    ahead una (una + BitVec.ofNat 32 cc) = cc := by
  have zero : ahead una una = 0 := ahead_self una
  have moved : ahead una (una + BitVec.ofNat 32 cc) = ahead una una + cc :=
    ahead_add_ofNat (by lia) (by lia)
  lia

/-- What is known of the FINs that were sent, with their numbers, when `fed` bytes were given
to send. -/
structure Finned (fed : Nat) (s : Sender) (fins : List Seq) : Prop where
  early : s.state.num < TcpState.established.num → Early s ∧ Bounds 0 1 s ∧ fed = 0
  bounds : TcpState.established.num ≤ s.state.num → Bounds (-1) 0 s
  iss : s.state = .synSent ∨ s.state = .synReceived → s.una = s.iss
  place : TcpState.established.num ≤ s.state.num → s.state.num < TcpState.finWait2.num →
    s.una + BitVec.ofNat 32 s.cc = s.iss + 1 + BitVec.ofNat 32 fed
  quiet : s.state.num ≤ TcpState.closeWait.num → fins = [] ∧ s.sentfin = false
  shut : TcpState.closeWait.num < s.state.num → s.shut = true
  sent : s.sentfin = true → fins ≠ []
  fins : ∀ f ∈ fins, -66561 ≤ ahead (s.iss + 1 + BitVec.ofNat 32 fed) f ∧
    ahead (s.iss + 1 + BitVec.ofNat 32 fed) f ≤ 0

/-- The events under which the SYN is acknowledged before a FIN is sent. -/
def settling : Guard where
  output _ := True
  establish una ack := SEQ_GT ack una
  early := False
  abandon := False
  urgent state := TcpState.established.num ≤ state.num

instance : DecidablePred settling.output := fun _ => inferInstanceAs (Decidable True)

variable {fed : Nat} {s t : Sender} {fins : List Seq}

/-- The numbers and the history are the same, and the state is not another. -/
theorem Finned.same (finned : Finned fed s fins) (numbers : s.Numbers t) (state : t.state = s.state)
    (iss : t.iss = s.iss) (shut : s.shut = true → t.shut = true)
    (early : s.state.num < TcpState.established.num → Early s → Early t) : Finned fed t fins := by
  constructor
  · rw [state]
    intro before
    obtain ⟨quiet, bounds, zero⟩ := finned.early before
    exact ⟨early before quiet, bounds.same numbers, zero⟩
  · rw [state]
    exact fun after => (finned.bounds after).same numbers
  · rw [state, numbers.una, iss]
    exact finned.iss
  · rw [state, numbers.una, numbers.cc, iss]
    exact finned.place
  · rw [state, numbers.sentfin]
    exact finned.quiet
  · rw [state]
    exact fun after => shut (finned.shut after)
  · rw [numbers.sentfin]
    exact finned.sent
  · rw [iss]
    exact finned.fins

theorem outflags_syn {state : TcpState} (syn : (tcpOutflags state).syn = true) :
    state.num < TcpState.established.num := by
  cases state with
  | synSent | synReceived => decide
  | _ => cases syn

theorem outflags_closing {state : TcpState} (fin : (tcpOutflags state).fin = true) :
    TcpState.closeWait.num < state.num ∧ state.num < TcpState.finWait2.num := by
  cases state with
  | finWait1 | closing | lastAck => decide
  | _ => cases fin

theorem Finned.pass {o : Option Seq} {again : Bool} (finned : Finned fed s fins)
    (pass : Passes s o again t) :
    Finned fed t (fins ++ o.toList) := by
  have frame := pass.frame
  have sent := pass.fin
  constructor
  · rw [frame.state]
    intro before
    obtain ⟨early, bounds, zero⟩ := finned.early before
    refine ⟨pass.early early, ?_, zero⟩
    have kept :=
      pass.bounds bounds (by lia) (fun _ => ⟨⟨bounds.low, early.cc, early.force, early.window⟩,
      rfl⟩)
    refine (kept ?_).1
    rintro - ⟨flag, -⟩
    have closing := (outflags_closing flag).1
    exact absurd (closing.trans before) (by decide)
  · rw [frame.state]
    intro after
    refine (pass.bounds (finned.bounds after) (by lia) (fun flag => ?_) (by lia)).1
    exact absurd after (not_le.mpr (outflags_syn flag))
  · rw [frame.state, frame.una, frame.iss]
    exact finned.iss
  · rw [frame.state, frame.una, frame.cc, frame.iss]
    exact finned.place
  · rw [frame.state]
    intro before
    obtain ⟨none, unsent⟩ := finned.quiet before
    rcases sent with ⟨rfl, same⟩ | ⟨f, -, flag, -⟩
    · rw [none, same]
      exact ⟨rfl, unsent⟩
    · exact absurd (outflags_closing flag).1 (not_lt.mpr before)
  · rw [frame.state, frame.shut]
    exact finned.shut
  · intro sentfin
    rcases sent with ⟨rfl, same⟩ | ⟨f, rfl, -, -⟩
    · rw [Option.toList_none, List.append_nil]
      exact finned.sent (same ▸ sentfin)
    · simp
  · intro f member
    rw [frame.iss]
    rcases List.mem_append.mp member with old | new
    · exact finned.fins f old
    · rcases sent with ⟨rfl, -⟩ | ⟨g, rfl, flag, where'⟩
      · cases new
      · rw [Option.toList_some, List.mem_singleton] at new
        subst new
        obtain ⟨after, before⟩ := outflags_closing flag
        have established : TcpState.established.num ≤ s.state.num := le_trans (by decide) after.le
        have bounds := finned.bounds established
        obtain ⟨low, high⟩ := where' bounds
        obtain ⟨-, -, fits⟩ := bounds.near (by lia)
        rw [← finned.place established before]
        have data := ahead_data s.una fits
        have distance : ahead (s.una + BitVec.ofNat 32 s.cc) f = ahead s.una f - s.cc := by
          rw [← data]
          exact ahead_rebase (by lia) (by lia)
        lia

theorem Finned.outputs {fins' : List Seq} (outputs : Outputs s fins' t)
    (finned : Finned fed s fins) :
    Finned fed t (fins ++ fins') := by
  induction outputs generalizing fins with
  | last pass => exact finned.pass pass
  | more pass _ ih =>
    rw [← List.append_assoc]
    exact ih (finned.pass pass)

theorem Finned.established (finned : Finned fed s fins)
    (opening : s.state = .synSent ∨ s.state = .synReceived) {ack nxt : Seq} {w : Bool}
    (new : SEQ_GT ack s.una) (within : SEQ_LEQ ack s.max)
    (moved : nxt = (if SEQ_LT s.nxt ack then ack else s.nxt) ∨ nxt = s.nxt ∧ s.nxt = s.max)
    (numbers : (s.dropAcked ack nxt w).Numbers t) (state : t.state = .established)
    (iss : t.iss = s.iss) :
    Finned fed t fins := by
  have before : s.state.num < TcpState.established.num := by
    rcases opening with state | state
    · rw [state]
      decide
    · rw [state]
      decide
  obtain ⟨early, bounds, zero⟩ := finned.early before
  obtain ⟨none, unsent⟩ := finned.quiet (before.le.trans (by decide))
  obtain ⟨dropped, sent⟩ := dropAcked_bounds (w := w) bounds (by lia) new within moved
  obtain ⟨positive, covered, -⟩ := bounds.acceptable (by lia) new within
  have empty := early.cc
  have bit : s.finBit = 0 := by
    rw [Sender.finBit, unsent]
    rfl
  have limit := bounds.limit
  have one : ahead s.una ack = 1 := by lia
  have cc : (s.dropAcked ack nxt w).cc = 0 := by
    change s.cc - _ = 0
    lia
  have next : ack = s.una + BitVec.ofNat 32 1 := by
    have same : ahead s.una ack = ahead s.una (s.una + BitVec.ofNat 32 1) := by
      rw [one, ahead_data s.una (by lia)]
      rfl
    exact eq_of_ahead same
  have bounds' : Bounds (-1) 0 (s.dropAcked ack nxt w) := by
    refine ⟨?_, dropped.high, dropped.sent, ?_, dropped.fits⟩
    · have low := dropped.low
      lia
    · have finBit : (s.dropAcked ack nxt w).finBit = s.finBit := rfl
      lia
  constructor
  · rw [state]
    exact fun before => absurd before (by decide)
  · exact fun _ => bounds'.same numbers
  · rw [state]
    rintro (before | before) <;> cases before
  · intro _ _
    rw [numbers.una, numbers.cc, cc, iss, zero, ← finned.iss opening]
    change ack + _ = _
    rw [next]
    rfl
  · exact fun _ => ⟨none, numbers.sentfin.trans unsent⟩
  · rw [state]
    exact fun after => absurd after (by decide)
  · rw [numbers.sentfin]
    exact finned.sent
  · rw [none]
    rintro _ ⟨⟩

theorem Finned.later (finned : Finned fed s fins) (numbers : s.Numbers t) (iss : t.iss = s.iss)
    (before : TcpState.established.num ≤ s.state.num) (order : s.state.num ≤ t.state.num)
    (quiet : t.state.num ≤ TcpState.closeWait.num → s.state.num ≤ TcpState.closeWait.num)
    (shut : TcpState.closeWait.num < t.state.num → t.shut = true) : Finned fed t fins := by
  have after : TcpState.established.num ≤ t.state.num := before.trans order
  constructor
  · exact fun early => absurd early (not_lt.mpr after)
  · exact fun _ => (finned.bounds before).same numbers
  · rintro (state | state)
    · rw [state] at after
      exact absurd after (by decide)
    · rw [state] at after
      exact absurd after (by decide)
  · rw [numbers.una, numbers.cc, iss]
    exact fun _ open' => finned.place before (order.trans_lt open')
  · rw [numbers.sentfin]
    exact fun early => finned.quiet (quiet early)
  · exact shut
  · rw [numbers.sentfin]
    exact finned.sent
  · rw [iss]
    exact finned.fins

theorem place_dropped {una ack : Seq} {cc : Nat} (covered : (ack - una).toNat ≤ cc) :
    ack + BitVec.ofNat 32 (cc - (ack - una).toNat) = una + BitVec.ofNat 32 cc := by
  have split : cc = (ack - una).toNat + (cc - (ack - una).toNat) := (Nat.add_sub_of_le covered).symm
  nth_rewrite 2 [split]
  rw [BitVec.ofNat_add, BitVec.ofNat_toNat, BitVec.setWidth_eq, ← add_assoc]
  simp

theorem Finned.dropAcked (finned : Finned fed s fins)
    (established : TcpState.established.num ≤ s.state.num) {ack nxt : Seq} {w : Bool}
    (new : SEQ_GT ack s.una) (within : SEQ_LEQ ack s.max)
    (moved : nxt = (if SEQ_LT s.nxt ack then ack else s.nxt) ∨ nxt = s.nxt ∧ s.nxt = s.max)
    (covered : (ack - s.una).toNat ≤ s.cc ∨ TcpState.finWait2.num ≤ s.state.num) :
    Finned fed (s.dropAcked ack nxt w) fins := by
  constructor
  · exact fun early => absurd early (not_lt.mpr established)
  · exact fun _ => (dropAcked_bounds (finned.bounds established) (by omega) new within moved).1
  · rintro (state | state)
    · rw [show s.state = .synSent from state] at established
      exact absurd established (by decide)
    · rw [show s.state = .synReceived from state] at established
      exact absurd established (by decide)
  · intro _ before
    have dropped := place_dropped (covered.resolve_right (not_le.mpr before))
    exact dropped.trans (finned.place established before)
  · exact finned.quiet
  · exact finned.shut
  · exact finned.sent
  · exact finned.fins

theorem Finned.finished (finned : Finned fed s fins)
    (closing : TcpState.closeWait.num < s.state.num) {ack nxt : Seq} {w : Bool}
    (new : SEQ_GT ack s.una) (within : SEQ_LEQ ack s.max)
    (moved : nxt = (if SEQ_LT s.nxt ack then ack else s.nxt) ∨ nxt = s.nxt ∧ s.nxt = s.max)
    (numbers : (s.dropAcked ack nxt w).Numbers t) (iss : t.iss = s.iss) (shut : t.shut = s.shut)
    (done : TcpState.finWait2.num ≤ t.state.num) : Finned fed t fins := by
  have established : TcpState.established.num ≤ s.state.num := le_trans (by decide) closing.le
  have dropped :=
    (dropAcked_bounds (w := w) (finned.bounds established) (by omega) new within moved).1
  constructor
  · exact fun early => absurd (done.trans_lt early) (by decide)
  · exact fun _ => dropped.same numbers
  · rintro (state | state)
    · rw [state] at done
      exact absurd done (by decide)
    · rw [state] at done
      exact absurd done (by decide)
  · exact fun _ before => absurd done (not_le.mpr before)
  · exact fun early => absurd (done.trans early) (by decide)
  · exact fun _ => shut.trans (finned.shut closing)
  · rw [numbers.sentfin]
    exact finned.sent
  · rw [iss]
    exact finned.fins

theorem Sender.ended_iss (s : Sender) (fin : Bool) : (s.ended fin).iss = s.iss := by
  unfold Sender.ended
  split
  · split
    · rfl
    · rfl
    · rfl
  · rfl

theorem Sender.ended_shut (s : Sender) (fin : Bool) : (s.ended fin).shut = s.shut := by
  unfold Sender.ended
  split
  · split
    · rfl
    · rfl
    · rfl
  · rfl

theorem Sender.ended_done (s : Sender) (closing : TcpState.closeWait.num < s.state.num)
    (last : s.state ≠ .lastAck) : TcpState.finWait2.num ≤ (s.ended true).state.num := by
  cases state : s.state with
  | finWait1 | closing | finWait2 | timeWait => simp [Sender.ended, state, TcpState.num]
  | lastAck => exact absurd state last
  | closed | listen | synSent | synReceived | established | closeWait =>
    rw [state] at closing
    exact absurd closing (by decide)

theorem Finned.ackRexmt (finned : Finned fed s fins) (ack : Seq) (r : Bool) :
    Finned fed (s.ackRexmt ack r) fins :=
  finned.same ⟨rfl, rfl, rfl, rfl, rfl⟩ rfl rfl id fun _ early =>
    ⟨early.cc, early.force, early.persist, early.window⟩

theorem Finned.acked (finned : Finned fed s fins)
    (established : TcpState.established.num ≤ s.state.num) {ack nxt : Seq} {r w : Bool}
    (new : SEQ_GT ack s.una) (within : SEQ_LEQ ack s.max)
    (last : s.state = .lastAck → (ack - s.una).toNat ≤ s.cc)
    (moved : nxt = (if SEQ_LT s.nxt ack then ack else s.nxt) ∨ nxt = s.nxt ∧ s.nxt = s.max) :
    Finned fed (s.acked ack nxt r w) fins := by
  have timed := finned.ackRexmt ack r
  by_cases covered : (ack - s.una).toNat ≤ s.cc
  · have dropped : Finned fed ((s.ackRexmt ack r).dropAcked ack nxt w) fins :=
      timed.dropAcked established new within moved (.inl covered)
    rwa [Sender.acked, decide_eq_false (not_lt.mpr covered)]
  -- all the data and one number more: our FIN
  · rw [Sender.acked, decide_eq_true (not_le.mp covered)]
    have beyond : TcpState.closeWait.num < s.state.num := by
      by_contra early
      have bounds := finned.bounds established
      have limit := bounds.limit
      have bit : s.finBit = 0 := by
        rw [Sender.finBit, (finned.quiet (not_lt.mp early)).2]
        rfl
      obtain ⟨-, within, exact'⟩ := bounds.acceptable (by lia) new within
      lia
    apply timed.finished beyond new within moved (Sender.ended_numbers _ _)
    · exact Sender.ended_iss _ _
    · exact Sender.ended_shut _ _
    · exact Sender.ended_done ((s.ackRexmt ack r).dropAcked ack nxt w) beyond fun state =>
        covered (last state)

theorem Finned.start (finned : Finned fed s fins) (before : s.state.num < TcpState.established.num)
    {state : TcpState} (iss : Seq) (opening : state = .synSent ∨ state = .synReceived) :
    Finned fed { s with state := state, iss := iss, una := iss, nxt := iss, max := iss } fins := by
  obtain ⟨early, bounds, zero⟩ := finned.early before
  obtain ⟨none, unsent⟩ := finned.quiet (before.le.trans (by decide))
  have after : state.num < TcpState.established.num := by
    rcases opening with rfl | rfl
    · decide
    · decide
  constructor
  · exact fun _ => ⟨⟨early.cc, early.force, early.persist, early.window⟩,
      bounds.start (by omega) state iss, zero⟩
  · exact fun established => absurd after (not_lt.mpr established)
  · exact fun _ => rfl
  · exact fun established => absurd after (not_lt.mpr established)
  · exact fun _ => ⟨none, unsent⟩
  · exact fun closing => absurd (closing.trans after) (by decide)
  · exact finned.sent
  · rw [none]
    rintro _ ⟨⟩

theorem Finned.back (finned : Finned fed s fins) (r : Bool) :
    Finned fed { s with rexmt := r, nxt := s.una } fins := by
  refine ⟨?_, ?_, finned.iss, finned.place, finned.quiet, finned.shut, finned.sent, finned.fins⟩
  · intro before
    obtain ⟨early, bounds, zero⟩ := finned.early before
    exact ⟨⟨early.cc, early.force, early.persist, early.window⟩, bounds.back (by omega) r, zero⟩
  · exact fun established => (finned.bounds established).back (by omega) r

theorem Finned.forth {n : Seq} (finned : Finned fed t fins) (low : 0 ≤ ahead t.una n ∨
      TcpState.established.num ≤ t.state.num ∧ -1 ≤ ahead t.una n) (high : ahead t.una n ≤ t.sent) :
    Finned fed { t with nxt := if SEQ_GT n t.nxt then n else t.nxt } fins := by
  refine ⟨?_, ?_, finned.iss, finned.place, finned.quiet, finned.shut, finned.sent, finned.fins⟩
  · intro before
    obtain ⟨early, bounds, zero⟩ := finned.early before
    have low' := low.resolve_right fun later => absurd later.1 (not_le.mpr before)
    exact ⟨⟨early.cc, early.force, early.persist, early.window⟩, bounds.forth low' high, zero⟩
  · intro established
    exact (finned.bounds established).forth (by omega) high

theorem Finned.fin (finned : Finned fed s fins) (synchronized : s.state ≠ .synReceived) :
    Finned fed s.fin fins := by
  have same : s.Numbers s.fin := s.fin_numbers
  have iss : s.fin.iss = s.iss := by
    unfold Sender.fin
    split <;> rfl
  cases state : s.state with
  | synReceived => exact absurd state synchronized
  | established | finWait1 | finWait2 =>
    apply finned.later same iss
    · simp [state, TcpState.num]
    · simp [Sender.fin, state, TcpState.num]
    · simp [Sender.fin, state, TcpState.num]
    · have shut := finned.shut
      simp_all [Sender.fin, TcpState.num]
  | closed | listen | synSent | closeWait | closing | lastAck | timeWait =>
    have unchanged : s.fin = s := by
      simp [Sender.fin, state]
    rwa [unchanged]

theorem Finned.close (finned : Finned fed s fins) (synchronized : s.state ≠ .synReceived) :
    Finned fed s.close fins := by
  have same : s.Numbers s.close := s.close_numbers
  have iss : s.close.iss = s.iss := by
    unfold Sender.close
    split <;> rfl
  cases state : s.state with
  | synReceived => exact absurd state synchronized
  | established | closeWait =>
    have quiet := finned.quiet (by simp [state, TcpState.num])
    have place := finned.place (by simp [state, TcpState.num]) (by simp [state, TcpState.num])
    have bounds := finned.bounds (by simp [state, TcpState.num])
    constructor
    · simp [Sender.close, state, TcpState.num]
    · exact fun _ => bounds.same same
    · simp [Sender.close, state]
    · rw [same.una, same.cc, iss]
      exact fun _ _ => place
    · simp [Sender.close, state, TcpState.num]
    · simp [Sender.close, state]
    · rw [same.sentfin, quiet.2]
      rintro ⟨⟩
    · rw [quiet.1]
      rintro _ ⟨⟩
  | closed | listen | synSent | finWait1 | finWait2 | closing | lastAck | timeWait =>
    have shut : s.close = { s with shut := true } := by
      simp [Sender.close, state]
    rw [shut]
    exact finned.same ⟨rfl, rfl, rfl, rfl, rfl⟩ rfl rfl (fun _ => rfl) fun _ early =>
      ⟨early.cc, early.force, early.persist, early.window⟩

theorem Finned.grows {fins' : List Seq} (finned : Finned fed s fins) (outputs : Outputs s fins' t) :
    s.sent ≤ t.sent := by
  by_cases before : s.state.num < TcpState.established.num
  · obtain ⟨early, bounds, -⟩ := finned.early before
    refine (outputs.bounds bounds (by omega) ?_ ?_).2
    · exact fun _ => ⟨⟨bounds.low, early.cc, early.force, early.window⟩, rfl⟩
    · rintro - ⟨flag, -⟩
      have closing := (outflags_closing flag).1
      exact absurd (closing.trans before) (by decide)
  · have established := not_lt.mp before
    refine (outputs.bounds (finned.bounds established) (by omega) (fun flag => ?_) (by omega)).2
    exact absurd established (not_le.mpr (outflags_syn flag))

theorem Moves.finned {fins' : List Seq} (move : Moves settling s fins' t)
    (finned : Finned fed s fins) :
    Finned fed t (fins ++ fins') := by
  have quiet : ∀ {t : Sender}, s.Numbers t → t.state = s.state → t.iss = s.iss →
      (s.shut = true → t.shut = true) →
      (s.state.num < TcpState.established.num → Early s → Early t) → Finned fed t (fins ++ []) := by
    intro t numbers state iss shut early
    rw [List.append_nil]
    exact finned.same numbers state iss shut early
  cases move with
  | syn iss state =>
    rw [List.append_nil]
    exact finned.start (by rw [state]; decide) iss (.inr rfl)
  | connect iss state =>
    rw [List.append_nil]
    exact finned.start (by rw [state]; decide) iss (.inl rfl)
  | synAck ack state new within =>
    rw [List.append_nil]
    have empty := (finned.early (by rw [state]; decide)).1.cc
    rw [← finned.iss (.inl state)] at new
    refine finned.established (w := s.window) (.inl state) new within (.inl rfl) ?_ rfl rfl
    exact ⟨rfl, rfl, rfl, by rw [Sender.dropAcked, empty]; simp, rfl⟩
  | synOnly state =>
    rw [List.append_nil]
    obtain ⟨early, bounds, zero⟩ := finned.early (by rw [state]; decide)
    have unsent := finned.quiet (by rw [state]; decide)
    have unopened : ¬ TcpState.established.num ≤ TcpState.synReceived.num := by decide
    have unclosed : ¬ TcpState.closeWait.num < TcpState.synReceived.num := by decide
    refine ⟨fun _ => ⟨⟨early.cc, early.force, early.persist, early.window⟩, ?_, zero⟩,
      fun after => absurd after unopened, fun _ => ?_, fun after => absurd after unopened, fun _ =>
      unsent, fun after => absurd after unclosed, finned.sent, finned.fins⟩
    · exact bounds.same ⟨rfl, rfl, rfl, rfl, rfl⟩
    · exact finned.iss (.inl state)
  | establish ack state old new => exact absurd old (not_le.mpr new)
  | acked ack nxt r w rcvd new within establish last moved =>
    rw [List.append_nil]
    by_cases state : s.state = .synReceived
    · have settled : s.settled = { s with state := .established } := if_pos state
      have ended : (((s.settled.ackRexmt ack r).dropAcked ack nxt w).ended
          (decide ((ack - s.settled.una).toNat > s.settled.cc))).state = .established := by
        rw [settled]
        simp only [Sender.ended, Sender.dropAcked, Sender.ackRexmt]
        split <;> rfl
      refine finned.established (w := w) (.inr state) new within moved ?_ ended ?_
      · have same := Sender.ended_numbers ((s.settled.ackRexmt ack r).dropAcked ack nxt w)
          (decide ((ack - s.settled.una).toNat > s.settled.cc))
        rw [settled] at same ⊢
        exact ⟨same.una, same.nxt, same.max, same.cc, same.sentfin⟩
      · rw [settled]
        exact Sender.ended_iss _ _
    · rw [Sender.settled_of_ne state]
      have established := s.settled_num rcvd
      rw [Sender.settled_of_ne state] at established
      exact finned.acked established new within last moved
  | window w established =>
    exact quiet ⟨rfl, rfl, rfl, rfl, rfl⟩ rfl rfl id fun before _ =>
      absurd established (not_le.mpr before)
  | queue _ _ => exact quiet ⟨rfl, rfl, rfl, rfl, rfl⟩ rfl rfl id fun _ early =>
      ⟨early.cc, early.force, early.persist, early.window⟩
  | shut => exact quiet ⟨rfl, rfl, rfl, rfl, rfl⟩ rfl rfl (fun _ => rfl) fun _ early =>
      ⟨early.cc, early.force, early.persist, early.window⟩
  | fin early =>
    rw [List.append_nil]
    exact finned.fin fun state => early state
  | close abandon =>
    rw [List.append_nil]
    exact finned.close fun state => abandon state
  | force force allowed =>
    refine quiet ⟨rfl, rfl, rfl, rfl, rfl⟩ rfl rfl id fun before early => ?_
    refine ⟨early.cc, ?_, early.persist, early.window⟩
    cases force with
    | false => rfl
    | true =>
      rcases allowed rfl with running | established
      · exact absurd (early.persist.symm.trans running) (by rintro ⟨⟩)
      · exact absurd established (not_le.mpr before)
  | timeout r _ =>
    rw [List.append_nil]
    exact finned.back r
  | outputs _ outputs => exact finned.outputs outputs
  | @retransmit fins' t _ outputs =>
    have back := finned.back false
    have after := back.outputs outputs
    have frame := outputs.frame
    have una : t.una = s.una := frame.una
    have state : t.state = s.state := frame.state
    apply after.forth
    · rw [una, state]
      by_cases before : s.state.num < TcpState.established.num
      · exact .inl (finned.early before).2.1.low
      · exact .inr ⟨not_lt.mp before, (finned.bounds (not_lt.mp before)).low⟩
    · have grows : s.sent ≤ t.sent := back.grows outputs
      rw [una]
      refine le_trans ?_ grows
      by_cases before : s.state.num < TcpState.established.num
      · exact (finned.early before).2.1.high
      · exact (finned.bounds (not_lt.mp before)).high

theorem Path.finned {fins' : List Seq} (path : Path settling s fins' t)
    (finned : Finned fed s fins) :
    Finned fed t (fins ++ fins') :=
  path.invariant (fun _ _ _ _ before move => move.finned before) finned

theorem Finned.feed {n : Nat} (finned : Finned fed s fins)
    (room : n = 0 ∨ TcpState.established.num ≤ s.state.num ∧ s.shut = false ∧
      s.cc + n ≤ SB_MAX + 1024) :
    Finned (fed + n) (s.feed n) fins := by
  rcases room with rfl | ⟨established, unshut, room⟩
  · exact finned
  · have open' : s.state.num ≤ TcpState.closeWait.num := by
      by_contra closing
      exact absurd (finned.shut (not_le.mp closing)) (by rw [unshut]; rintro ⟨⟩)
    obtain ⟨none, unsent⟩ := finned.quiet open'
    refine ⟨?_, ?_, finned.iss, ?_, finned.quiet, finned.shut, finned.sent, ?_⟩
    · exact fun before => absurd established (not_le.mpr before)
    · exact fun _ => (finned.bounds established).feed room
    · intro _ before
      have place := finned.place established before
      change s.una + BitVec.ofNat 32 (s.cc + n) = _
      rw [BitVec.ofNat_add, BitVec.ofNat_add, ← add_assoc, place, add_assoc]
      rfl
    · rw [none]
      rintro _ ⟨⟩

end Finned

section Covered

/-- A connection with what it has sent so far, and how many bytes it was given to send. -/
structure Trail where
  tp : Tcb
  outs : List Out
  fed : Nat

/-- The number that our FIN is due: that after the SYN and all the data. -/
def Trail.finNumber (t : Trail) : Seq := t.tp.iss + 1 + BitVec.ofNat 32 t.fed

/-- Our FIN was sent, and `ack` is beyond its number, and beyond each number it was sent with. -/
def Trail.Covered (t : Trail) (ack : Seq) : Prop :=
  finNumbers t.outs ≠ [] ∧ SEQ_GT ack t.finNumber ∧ ∀ f ∈ finNumbers t.outs, SEQ_GT ack f

instance (t : Trail) (ack : Seq) : Decidable (t.Covered ack) := inferInstanceAs (Decidable (_ ∧ _))

/-- Where `tcp_input` takes an ACK for that of our FIN. -/
def finAcked (rx : Rx) : Bool :=
  match ackProcess rx with
  | .ok rx' => rx.tp.state = .finWait1 ∧ rx'.tp.state = .finWait2 ∨
      rx.tp.state = .closing ∧ rx'.tp.state = .timeWait
  | .error .closed => rx.tp.state = .lastAck
  | .error _ => false

/-- The SYN is acknowledged before the connection can be closed: no segment ends SYN_RECEIVED
with an ACK of nothing new, or opens the connection with a FIN, and the user does not end
sending in this state. -/
def Settling (tp : Tcb) : Event → Prop
  | .segment inEnv ti _ =>
    (tp.state = .synReceived →
      (beforeAck inEnv (arrived inEnv (received inEnv tp ti) ti)).isOk = true →
      SEQ_GT ti.ack tp.sndUna) ∧
      (¬ tp.state.haveRcvdSyn → ¬ OnlySynFin ti.flags ti.len)
  | .request _ .shutdown => tp.state ≠ .synReceived
  | _ => True

instance (tp : Tcb) (event : Event) : Decidable (Settling tp event) :=
  match event with
  | .segment _ _ _ => inferInstanceAs (Decidable (_ ∧ _))
  | .request _ .shutdown => inferInstanceAs (Decidable (_ ≠ _))
  | .request _ (.connect _ _) | .request _ .disconnect | .request _ .detach | .request _ (.rcvd _)
  | .request _ (.send _) | .request _ (.sendoob _ _) | .request _ .abort | .request _ (.nodelay _)
  | .request _ (.sockopt _ _ _) | .request _ (.reserve _ _) | .request _ .sorflush
  | .slowtimo _ | .fasttimo _ | .quench => inferInstanceAs (Decidable True)

def Trail.Step (t : Trail) (event : Event) (t' : Trail) : Prop :=
  ∃ fuel outs, handle (bounded fuel) t.tp event = .ok (some t'.tp, outs) ∧
    t'.outs = t.outs ++ outs ∧
    t'.fed = t.fed + event.fed.length

def SettlingStep (t : Trail) (event : Event) (t' : Trail) : Prop :=
  Sosend t.tp event ∧ Settling t.tp event ∧ t.Step event t'

theorem settling_sound (fuel : Nat) : Sound settling (bounded fuel) := by
  constructor
  · intro env tp tp' outs done
    exact ⟨trivial, output_outputs done⟩
  · intro env tp
    exact passes_safe _ _ _ _ _

theorem promised_settling {tp : Tcb} {event : Event} (sosend : Sosend tp event)
    (settles : Settling tp event) :
    Promised settling tp event := by
  cases event with
  | segment inEnv ti env => exact settles
  | request env req =>
    cases req with
    | sendoob full m => exact (sosend m rfl).1
    | shutdown => exact fun state => settles state
    | _ => trivial
  | slowtimo | fasttimo | quench => trivial

theorem finNumbers_append (outs outs' : List Out) :
    finNumbers (outs ++ outs') = finNumbers outs ++ finNumbers outs' :=
  List.filterMap_append

theorem run_finned {t t' : Trail} {events : List Event} (run : Run SettlingStep t events t')
    (fresh : t.tp.sender.Fresh) (finned : Finned t.fed t.tp.sender (finNumbers t.outs)) :
    Finned t'.fed t'.tp.sender (finNumbers t'.outs) := by
  induction run with
  | nil => exact finned
  | cons step _ ih =>
    obtain ⟨sosend, settles, fuel, outs, done, sent, fed⟩ := step
    have follows :=
      handle_follows (settling_sound fuel) _ _ fresh (promised_settling sosend settles)
    have path := follows.path _ _ done
    apply ih (path.fresh fresh)
    rw [sent, fed, finNumbers_append]
    exact path.finned (finned.feed sosend.room)

theorem begins_finned {tp : Tcb} (begins : Begins tp) : Finned 0 tp.sender [] := by
  obtain ⟨nxt, max, early, -⟩ := begins_idle begins
  have before : tp.sender.state.num ≤ TcpState.listen.num ∧ tp.sender.sentfin = false := by
    obtain ⟨sndHiwat, rcvHiwat, rfl | rfl⟩ := begins
    · exact ⟨Nat.zero_le _, rfl⟩
    · exact ⟨le_refl _, rfl⟩
  have below : tp.sender.state.num < TcpState.established.num := before.1.trans_lt (by decide)
  constructor
  · exact fun _ => ⟨early, .idle (by omega) nxt max early.cc, rfl⟩
  · exact fun established => absurd below (not_lt.mpr established)
  · rintro (state | state)
    · exact absurd before.1 (by rw [state]; decide)
    · exact absurd before.1 (by rw [state]; decide)
  · exact fun established => absurd below (not_lt.mpr established)
  · exact fun _ => ⟨rfl, before.2⟩
  · exact fun closing => absurd (closing.trans below) (by decide)
  · rw [before.2]
    rintro ⟨⟩
  · rintro _ ⟨⟩

theorem dupAck_state (rx : Rx) :
    Ends (fun rx' => rx'.tp.state = rx.tp.state) (· ≠ .closed) (dupAck rx) := by
  simp only [dupAck]
  split
  · split
    · rfl
    · split
      · rintro ⟨⟩
      · split
        · rintro ⟨⟩
        · rfl
  · rfl

theorem dropafterack_kept {P : Rx → Prop} (rx : Rx) : Ends P (· ≠ .closed) (dropafterack rx) := by
  unfold dropafterack
  split
  · rintro ⟨⟩
  · rintro ⟨⟩

theorem ackState_unacked (rx : Rx) :
    Ends (fun rx' => rx'.tp.state = rx.tp.state) (· ≠ .closed) (ackState rx false) := by
  simp only [ackState]
  cases state : rx.tp.state with
  | timeWait => exact dropafterack_kept _
  | _ => exact state

/-- Where the state and the connection stay, our FIN is not taken to be acked. -/
theorem finAcked_kept {rx : Rx}
    (kept : Ends (fun rx' => rx'.tp.state = rx.tp.state) (· ≠ .closed) (ackProcess rx)) :
      ¬ finAcked rx = true := by
  unfold finAcked
  intro acked
  split at acked
  · rename_i rx' done
    rw [done] at kept
    rcases of_decide_eq_true acked with ⟨before, after⟩ | ⟨before, after⟩
    · exact absurd (after.symm.trans (kept.trans before)) (by rintro ⟨⟩)
    · exact absurd (after.symm.trans (kept.trans before)) (by rintro ⟨⟩)
  · rename_i done
    rw [done] at kept
    exact kept rfl
  · cases acked

theorem finAcked_beyond {rx : Rx} (acked : finAcked rx = true) :
    SEQ_GT rx.ti.ack rx.tp.sndUna ∧ SEQ_LEQ rx.ti.ack rx.tp.sndMax ∧
      (rx.ti.ack - rx.tp.sndUna).toNat > rx.tp.soSnd.length := by
  by_contra other
  apply finAcked_kept _ acked
  unfold ackProcess
  split
  · exact dupAck_state rx
  · rename_i new
    unfold newAck
    dsimp only
    split
    · exact dropafterack_kept _
    · rename_i within
      have timers := ackTimers_sender (deflate rx.tp) rx.ti.ack
      have una : (openCwnd (ackTimers (deflate rx.tp) rx.ti.ack)).sndUna = rx.tp.sndUna :=
        congrArg Sender.una timers
      have cc : (openCwnd (ackTimers (deflate rx.tp) rx.ti.ack)).soSnd.length =
          rx.tp.soSnd.length :=
        congrArg Sender.cc timers
      have state : (dropAcked (openCwnd (ackTimers (deflate rx.tp) rx.ti.ack)) rx.ti.ack).1.state =
          rx.tp.state :=
        congrArg Sender.state timers
      have fin : (dropAcked (openCwnd (ackTimers (deflate rx.tp) rx.ti.ack)) rx.ti.ack).2 =
        false := by
        rw [dropAcked, una, cc]
        exact decide_eq_false fun beyond => other ⟨not_le.mp new, not_lt.mp within, beyond⟩
      rw [fin, ← state]
      exact ackState_unacked _

theorem finAcked_closing {rx : Rx} (acked : finAcked rx = true) :
    TcpState.closeWait.num < rx.tp.state.num ∧ rx.tp.state.num < TcpState.finWait2.num := by
  unfold finAcked at acked
  split at acked
  · rcases of_decide_eq_true acked with ⟨state, -⟩ | ⟨state, -⟩
    · rw [state]
      decide
    · rw [state]
      decide
  · rw [of_decide_eq_true acked]
    decide
  · cases acked

/-- The stages before the ACK do not touch a connection that is being closed. -/
theorem beforeAck_sender {env : InEnv} {rx rx' : Rx} (reached : beforeAck env rx = .ok rx')
    (closing : rx'.tp.state ≠ .established) : rx'.tp.sender = rx.tp.sender ∧
      rx'.ti.ack = rx.ti.ack := by
  have ends := @checked_ends anything env rx
  unfold beforeAck at reached
  cases checked : (trimLeft env rx >>= afterClose >>= trimRight >>= checkFlags) with
  | error e =>
    rw [checked] at reached
    cases reached
  | ok rx₁ =>
    rw [checked] at reached ends
    have reached : ackSyn rx₁ = .ok rx' := reached
    unfold ackSyn at reached
    split at reached
    · split at reached
      · cases reached
      · cases reached
        obtain ⟨segs, sender⟩ := reass_sender { rx₁.tp with state := .established } none
        exact absurd (congrArg Sender.state sender) closing
    · cases reached
      exact ⟨ends.sender, ends.ack⟩

/-- In a connection that is closed after its SYN is acknowledged, no other ACK than one of our
FIN is taken for that. -/
theorem fin_acked_covered {tp : Tcb} {t : Trail} {events : List Event} {inEnv : InEnv} {ti : Ti}
    {rx : Rx} (begins : Begins tp) (run : Run SettlingStep ⟨tp, [], 0⟩ events t)
    (reached : beforeAck inEnv (arrived inEnv (received inEnv t.tp ti) ti) = .ok rx)
    (acked : finAcked rx = true) :
    t.Covered ti.ack := by
  have finned := run_finned run (begins_fresh begins).1 (begins_finned begins)
  obtain ⟨new, within, beyond⟩ := finAcked_beyond acked
  obtain ⟨after, before⟩ := finAcked_closing acked
  have established : TcpState.established.num ≤ rx.tp.state.num := le_trans (by decide) after.le
  obtain ⟨sender, ack⟩ := beforeAck_sender reached fun state => absurd after (by rw [state]; decide)
  have ack : rx.ti.ack = ti.ack := ack
  have sender : rx.tp.sender = t.tp.sender := sender.trans (received_sender inEnv t.tp ti)
  rw [← sender] at finned
  rw [ack] at new within beyond
  have bounds := finned.bounds established
  have place := finned.place established before
  obtain ⟨-, -, fits⟩ := bounds.near (by omega)
  obtain ⟨-, within', exact'⟩ := bounds.acceptable (by omega) new within
  have limit := bounds.limit
  have bit := rx.tp.sender.finBit_bit
  have beyond' : rx.tp.sender.cc < (ti.ack - rx.tp.sender.una).toNat := beyond
  have iss : rx.tp.sender.iss = t.tp.iss := congrArg Sender.iss sender
  have number : t.finNumber = rx.tp.sender.una + BitVec.ofNat 32 rx.tp.sender.cc := by
    rw [place, iss]
    rfl
  have data := ahead_data rx.tp.sender.una fits
  have sentfin : rx.tp.sender.sentfin = true := by
    by_contra unsent
    have zero : rx.tp.sender.finBit = 0 := if_neg unsent
    omega
  have covers : ahead t.finNumber ti.ack = ahead rx.tp.sender.una ti.ack - rx.tp.sender.cc := by
    rw [number, ← data]
    exact ahead_rebase (by omega) (by omega)
  refine ⟨finned.sent sentfin, ?_, fun f member => ?_⟩
  · change 0 < ahead t.finNumber ti.ack
    omega
  · obtain ⟨low, high⟩ := finned.fins f member
    rw [iss] at low high
    have low : -66561 ≤ ahead t.finNumber f := low
    have high : ahead t.finNumber f ≤ 0 := high
    have difference : (ti.ack - f).toInt = ahead t.finNumber ti.ack - ahead t.finNumber f :=
      toInt_sub_of_ahead t.finNumber (by omega) (by omega)
    omega

def trailStep (fuel : Nat) (t : Trail) (event : Event) : Option Trail :=
  match handle (bounded fuel) t.tp event with
  | .ok (some tp', outs) => some ⟨tp', t.outs ++ outs, t.fed + event.fed.length⟩
  | _ => none

theorem trailStep_sound {fuel : Nat} {t t' : Trail} {event : Event}
    (found : trailStep fuel t event = some t') :
    t.Step event t' := by
  unfold trailStep at found
  split at found
  · rename_i tp' outs done
    cases found
    exact ⟨fuel, outs, done, rfl, rfl⟩
  · cases found

def finalAck (ack : Seq) : Ti := ⟨7001, ack, 8192, 0, ackFlags, 0, [], none⟩

/-- A peer that acknowledges nothing in SYN_RECEIVED, and our SYN only after our FIN. -/
def unsettled : List Event :=
  [bare synFlags 7000 0 0 ample, bare ackFlags 7001 1000 8192 ample, .request ample .shutdown]

theorem fin_acked_uncovered :
    ¬ ∀ (tp : Tcb) (t : Trail) (events : List Event) (inEnv : InEnv) (ti : Ti) (rx : Rx),
      Begins tp → Run (fun t event t' => Sosend t.tp event ∧ t.Step event t') ⟨tp, [], 0⟩ events t →
    beforeAck inEnv (arrived inEnv (received inEnv t.tp ti) ti) = .ok rx → finAcked rx = true →
    t.Covered ti.ack := by
  intro claim
  have found : ((replay (fun t event => if Sosend t.tp event then trailStep 5 t event else none)
      ⟨{ tcpNewtcpcb 8192 8192 with state := .listen }, [], 0⟩ unsettled).any fun t =>
        match beforeAck ampleIn (arrived ampleIn (received ampleIn t.tp (finalAck 1001))
          (finalAck 1001)) with
        | .ok rx => finAcked rx && decide (¬ t.Covered 1001)
        | .error _ => false) = true := by
    decide +kernel
  obtain ⟨t, replayed, broken⟩ := (Option.any_eq_true _ _).mp found
  split at broken
  · rename_i rx reached
    obtain ⟨acked, uncovered⟩ := Bool.and_eq_true_iff.mp broken
    have begins : Begins { tcpNewtcpcb 8192 8192 with state := .listen } := ⟨8192, 8192, .inr rfl⟩
    apply of_decide_eq_true uncovered
    apply claim _ t unsettled ampleIn (finalAck 1001) rx begins _ reached acked
    apply replay_run _ replayed
    intro t event t' step
    obtain ⟨sosend, step⟩ := Option.ite_none_right_eq_some.mp step
    exact ⟨sosend, trailStep_sound step⟩
  · cases broken

def settled : List Event :=
  [.request ample (.connect true 1000), bare synAckFlags 7000 1001 8192 ample,
    .request ample (.send [1, 2, 3]), .request ample .shutdown]

theorem fin_acked_covered_settled :
    ∃ t rx, Run SettlingStep ⟨tcpNewtcpcb 8192 8192, [], 0⟩ settled t ∧
    beforeAck ampleIn (arrived ampleIn (received ampleIn t.tp (finalAck 1005)) (finalAck 1005)) =
      .ok rx ∧
    finAcked rx = true ∧ t.Covered 1005 := by
  have found :
      ((replay (fun t event =>
        if Sosend t.tp event ∧ Settling t.tp event then trailStep 5 t event else none)
        ⟨tcpNewtcpcb 8192 8192, [], 0⟩ settled).any fun t =>
        match beforeAck ampleIn (arrived ampleIn (received ampleIn t.tp (finalAck 1005))
          (finalAck 1005)) with
        | .ok rx => finAcked rx
        | .error _ => false) = true := by
    decide +kernel
  obtain ⟨t, replayed, acked⟩ := (Option.any_eq_true _ _).mp found
  split at acked
  · rename_i rx reached
    have begins : Begins (tcpNewtcpcb 8192 8192) := ⟨8192, 8192, .inl rfl⟩
    have run : Run SettlingStep ⟨tcpNewtcpcb 8192 8192, [], 0⟩ settled t := by
      apply replay_run _ replayed
      intro t event t' step
      obtain ⟨⟨sosend, settles⟩, step⟩ := Option.ite_none_right_eq_some.mp step
      exact ⟨sosend, settles, trailStep_sound step⟩
    have covered : t.Covered (finalAck 1005).ack := fin_acked_covered begins run reached acked
    exact ⟨t, rx, run, reached, acked, covered⟩
  · cases acked

end Covered
end FreeBsd.Netinet.Tcp
