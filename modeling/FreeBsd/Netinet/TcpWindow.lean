import FreeBsd.Lib.Exits
import FreeBsd.Lib.Tally
import FreeBsd.Netinet.TcpPredict

/-! The receive window that `tcp_output` announces, over the segments that arrive and those sent. -/
namespace FreeBsd.Netinet.Tcp

open FreeBsd.Lib

section Taken

/-- From `start` on, `rcv_nxt` has moved over some of at most `b` numbers; those on the queue and
`r` more may still come, and `rcv_adv` is as it was. -/
structure Within (start : Tcb) (b : Nat) (tp : Tcb) (r : Nat) : Prop where
  adv : tp.rcvAdv = start.rcvAdv
  nxt : ∃ k, tp.rcvNxt = start.rcvNxt + BitVec.ofNat 32 k ∧ k + tally Segment.len tp.segs + r ≤ b

variable {start tp tp' : Tcb} {b r r' n : Nat}

theorem Within.same (within : Within start b tp r) (adv : tp'.rcvAdv = tp.rcvAdv)
    (nxt : tp'.rcvNxt = tp.rcvNxt) (segs : tp'.segs = tp.segs) (less : r' ≤ r) :
    Within start b tp' r' := by
  obtain ⟨adv', k, nxt', room⟩ := within
  exact ⟨adv.trans adv', k, nxt.trans nxt', by rw [segs]; omega⟩

theorem Within.less (within : Within start b tp r) (less : r' ≤ r) : Within start b tp r' :=
  within.same rfl rfl rfl less

theorem Within.take (within : Within start b tp (n + r)) (adv : tp'.rcvAdv = tp.rcvAdv)
    (nxt : tp'.rcvNxt = tp.rcvNxt + BitVec.ofNat 32 n) (segs : tp'.segs = tp.segs) :
    Within start b tp' r := by
  obtain ⟨adv', k, nxt', room⟩ := within
  refine ⟨adv.trans adv', k + n, ?_, by rw [segs]; omega⟩
  rw [nxt, nxt', BitVec.ofNat_add, BitVec.add_assoc]

theorem drain_takes (rcvNxt : Seq) (fin : Bool) (segs : List Segment) :
    ∃ k, (drain rcvNxt fin segs).1 = rcvNxt + BitVec.ofNat 32 k ∧
      k + tally Segment.len (drain rcvNxt fin segs).2.2.2 = tally Segment.len segs := by
  induction segs generalizing rcvNxt fin with
  | nil => exact ⟨0, by simp [drain], by simp [drain]⟩
  | cons q rest ih =>
    rw [drain]
    split
    · obtain ⟨k, nxt, total⟩ := ih (rcvNxt + BitVec.ofNat 32 q.len) q.fin
      refine ⟨q.len + k, ?_, ?_⟩
      · rw [nxt, BitVec.ofNat_add, BitVec.add_assoc]
      · dsimp only
        rw [tally_cons]
        omega
    · exact ⟨0, by simp, by simp⟩

theorem present_within (within : Within start b tp r) : Within start b (present tp).1 r := by
  obtain ⟨adv, k, nxt, room⟩ := within
  unfold present
  split
  · split
    · exact ⟨adv, k, nxt, room⟩
    · split
      · exact ⟨adv, k, nxt, room⟩
      · obtain ⟨k', nxt', total⟩ := drain_takes tp.rcvNxt false tp.segs
        refine ⟨adv, k + k', ?_, ?_⟩
        · show (drain tp.rcvNxt false tp.segs).1 = _
          rw [nxt', nxt, BitVec.ofNat_add, BitVec.add_assoc]
        · show k + k' + tally Segment.len (drain tp.rcvNxt false tp.segs).2.2.2 + r ≤ b
          omega
  · exact ⟨adv, k, nxt, room⟩

theorem trimBack_len (ti : Segment) (segs : List Segment) :
    tally Segment.len (trimBack ti segs) ≤ tally Segment.len segs := by
  induction segs with
  | nil => exact le_refl _
  | cons q rest ih =>
    simp only [trimBack]
    split
    · exact le_refl _
    · split
      · simp only [tally_cons, Segment.cut]
        lia
      · rw [tally_cons]
        lia

theorem trimFront_len {prev : Option Segment} {ti x : Segment}
    (trimmed : trimFront prev ti = some x) :
    x.len ≤ ti.len := by
  unfold trimFront at trimmed
  split at trimmed
  · cases trimmed
    exact le_refl _
  · dsimp only at trimmed
    split at trimmed
    · split at trimmed
      · cases trimmed
      · cases trimmed
        exact Nat.sub_le _ _
    · cases trimmed
      exact le_refl _

theorem enqueue_len {ti : Segment} {segs segs' : List Segment}
    (done : enqueue ti segs = some segs') :
    tally Segment.len segs' ≤ tally Segment.len segs + ti.len := by
  simp only [enqueue, Option.map_eq_some_iff] at done
  obtain ⟨x, trimmed, rfl⟩ := done
  have short := trimFront_len trimmed
  have back := trimBack_len x (segs.span fun q => ¬ SEQ_GT q.seq ti.seq).2
  have whole : tally Segment.len segs =
      tally Segment.len (segs.span fun q => ¬ SEQ_GT q.seq ti.seq).1 +
        tally Segment.len (segs.span fun q => ¬ SEQ_GT q.seq ti.seq).2 := by
    rw [← tally_append, List.span_eq_takeWhile_dropWhile, List.takeWhile_append_dropWhile]
  rw [tally_append, tally_cons]
  omega

theorem tcpReass_within {ti : Segment} (within : Within start b tp (ti.len + r)) :
    Within start b (tcpReass tp (some ti)).1 r := by
  unfold tcpReass
  split
  · rename_i none
    cases none
  · rename_i ti' some
    cases some
    split
    · exact within.less (by lia)
    · rename_i segs done
      apply present_within
      obtain ⟨adv, k, nxt, room⟩ := within
      have := enqueue_len done
      exact ⟨adv, k, nxt, by dsimp only; lia⟩

theorem TCP_REASS_within {ti : Segment} (within : Within start b tp (ti.len + r)) :
    Within start b (TCP_REASS tp ti).1 r := by
  unfold TCP_REASS
  split
  · exact within.take rfl rfl rfl
  · exact (tcpReass_within within).same rfl rfl rfl (le_refl _)

end Taken

section Stages

variable {start : Tcb} {b : Nat} {rx : Rx}

/-- Where a segment stands: what it may still bring is in it, or is its FIN. -/
def Standing (start : Tcb) (b : Nat) (rx : Rx) : Prop := Within start b rx.tp (rx.ti.len + 1)

def Gone (start : Tcb) (b : Nat) (e : Exit) : Prop := ∀ tp, e.conn = some tp → Within start b tp 0

theorem Standing.gone (standing : Standing start b rx) {e : Exit}
    (same : ∀ tp, e.conn = some tp →
      tp.rcvAdv = rx.tp.rcvAdv ∧ tp.rcvNxt = rx.tp.rcvNxt ∧ tp.segs = rx.tp.segs) :
        Gone start b e := by
  intro tp out
  obtain ⟨adv, nxt, segs⟩ := same tp out
  exact Within.same standing adv nxt segs (Nat.zero_le _)

theorem Standing.done (standing : Standing start b rx) : Gone start b (.done rx.tp) :=
  standing.gone fun tp out => by
    cases out
    exact ⟨rfl, rfl, rfl⟩

theorem Standing.closed : Gone start b .closed := fun tp out => by cases out

theorem dropafterack_standing (standing : Standing start b rx) :
    Ends (Standing start b) (Gone start b) (dropafterack rx) := by
  unfold dropafterack
  apply Ends.ite
  · exact fun _ => standing.done
  · exact fun _ => standing.gone fun tp out => by
      cases out
      exact ⟨rfl, rfl, rfl⟩

theorem trimLeft_standing (env : InEnv) (standing : Standing start b rx) :
    Ends (Standing start b) (Gone start b) (trimLeft env rx) := by
  unfold trimLeft
  apply Ends.ite
  · intro _
    have dropped : Standing start b (dropSyn rx) := by
      unfold dropSyn
      split
      · exact Within.same standing rfl rfl rfl (le_refl _)
      · exact standing
    have cut : ∀ (tiflags : Flags) (tp : Tcb) (n : Nat), tp.rcvAdv = (dropSyn rx).tp.rcvAdv →
        tp.rcvNxt = (dropSyn rx).tp.rcvNxt → tp.segs = (dropSyn rx).tp.segs →
        Standing start b { dropSyn rx with tiflags := tiflags, tp := tp,
                                           ti := (dropSyn rx).ti.behead n } := by
      intro tiflags tp n adv nxt segs
      apply Within.same dropped adv nxt segs
      show (dropSyn rx).ti.len - n + 1 ≤ (dropSyn rx).ti.len + 1
      omega
    apply Ends.ite
    · intro _
      apply Ends.ite
      · exact fun _ => cut _ _ _ rfl rfl rfl
      · exact fun _ => dropafterack_standing dropped
    · exact fun _ => cut _ _ _ rfl rfl rfl
  · exact fun _ => standing

theorem afterClose_standing (standing : Standing start b rx) :
    Ends (Standing start b) (Gone start b) (afterClose rx) := by
  unfold afterClose
  apply Ends.ite
  · exact fun _ => Standing.closed
  · exact fun _ => standing

theorem trimRight_standing (standing : Standing start b rx) :
    Ends (Standing start b) (Gone start b) (trimRight rx) := by
  unfold trimRight
  have cut : ∀ (tiflags : Flags) (data : List Byte) (tp : Tcb) (n : Nat), tp.rcvAdv = rx.tp.rcvAdv →
      tp.rcvNxt = rx.tp.rcvNxt → tp.segs = rx.tp.segs →
      Standing start b { rx with tiflags := tiflags, tp := tp,
                                 ti := { rx.ti with data := data, len := rx.ti.len - n } } := by
    intro tiflags data tp n adv nxt segs
    apply Within.same standing adv nxt segs
    show rx.ti.len - n + 1 ≤ rx.ti.len + 1
    omega
  apply Ends.ite
  · intro _
    apply Ends.ite
    · intro _
      apply Ends.ite
      · exact fun _ => Standing.closed
      · intro _
        apply Ends.ite
        · exact fun _ => cut _ _ _ _ rfl rfl rfl
        · exact fun _ => dropafterack_standing standing
    · exact fun _ => cut _ _ _ _ rfl rfl rfl
  · exact fun _ => standing

theorem checkFlags_standing (standing : Standing start b rx) :
    Ends (Standing start b) (Gone start b) (checkFlags rx) := by
  unfold checkFlags
  apply Ends.ite
  · exact fun _ => Standing.closed
  · intro _
    apply Ends.ite
    · exact fun _ => standing.gone fun tp out => by
        cases out
        exact ⟨rfl, rfl, rfl⟩
    · intro _
      apply Ends.ite
      · exact fun _ => standing.done
      · exact fun _ => standing

theorem ackSyn_standing (standing : Standing start b rx) :
    Ends (Standing start b) (Gone start b) (ackSyn rx) := by
  unfold ackSyn
  apply Ends.ite
  · intro _
    apply Ends.ite
    · exact fun _ => standing.done
    · intro _
      have opened : Within start b { rx.tp with state := .established } (rx.ti.len + 1) :=
        Within.same standing rfl rfl rfl (le_refl _)
      exact (present_within opened).same rfl rfl rfl (le_refl _)
  · exact fun _ => standing

theorem dupAck_standing (standing : Standing start b rx) :
    Ends (Standing start b) (Gone start b) (dupAck rx) := by
  have kept : ∀ tp : Tcb, tp.rcvAdv = rx.tp.rcvAdv → tp.rcvNxt = rx.tp.rcvNxt →
      tp.segs = rx.tp.segs → Standing start b { rx with tp := tp } :=
    fun tp adv nxt segs => Within.same standing adv nxt segs (le_refl _)
  unfold dupAck
  apply Ends.ite
  · intro _
    apply Ends.ite
    · exact fun _ => kept _ rfl rfl rfl
    · intro _
      apply Ends.ite
      · exact fun _ => standing.gone fun tp out => by
          cases out
          exact ⟨rfl, rfl, rfl⟩
      · intro _
        apply Ends.ite
        · exact fun _ => standing.gone fun tp out => by
            cases out
            exact ⟨rfl, rfl, rfl⟩
        · exact fun _ => kept _ rfl rfl rfl
  · exact fun _ => kept _ rfl rfl rfl

theorem ackState_standing (standing : Standing start b rx) (ours : Bool) :
    Ends (Standing start b) (Gone start b) (ackState rx ours) := by
  have kept : ∀ tp : Tcb, tp.rcvAdv = rx.tp.rcvAdv → tp.rcvNxt = rx.tp.rcvNxt →
      tp.segs = rx.tp.segs → Standing start b { rx with tp := tp } :=
    fun tp adv nxt segs => Within.same standing adv nxt segs (le_refl _)
  unfold ackState
  dsimp only
  split
  · apply Ends.ite
    · intro _
      split
      · exact kept _ rfl rfl rfl
      · exact kept _ rfl rfl rfl
    · exact fun _ => standing
  · apply Ends.ite
    · exact fun _ => kept _ rfl rfl rfl
    · exact fun _ => standing
  · apply Ends.ite
    · exact fun _ => Standing.closed
    · exact fun _ => standing
  · exact dropafterack_standing (kept _ rfl rfl rfl)
  · exact standing

theorem ackRtt_receiver (tp : Tcb) (ack : Seq) : (ackRtt tp ack).rcvAdv = tp.rcvAdv ∧
    (ackRtt tp ack).rcvNxt = tp.rcvNxt ∧ (ackRtt tp ack).segs = tp.segs := by
  unfold ackRtt tcpXmitTimer
  split
  · dsimp only
    split <;> exact ⟨rfl, rfl, rfl⟩
  · exact ⟨rfl, rfl, rfl⟩

theorem ackRexmt_receiver {tp tp' : Tcb} (ack : Seq) (adv : tp'.rcvAdv = tp.rcvAdv)
    (nxt : tp'.rcvNxt = tp.rcvNxt) (segs : tp'.segs = tp.segs) :
    (ackRexmt tp' ack).rcvAdv = tp.rcvAdv ∧ (ackRexmt tp' ack).rcvNxt = tp.rcvNxt ∧
      (ackRexmt tp' ack).segs = tp.segs := by
  unfold ackRexmt
  split
  · exact ⟨adv, nxt, segs⟩
  · split
    · exact ⟨adv, nxt, segs⟩
    · exact ⟨adv, nxt, segs⟩

theorem newAck_standing (standing : Standing start b rx) :
    Ends (Standing start b) (Gone start b) (newAck rx) := by
  unfold newAck
  apply Ends.ite
  · intro _
    apply dropafterack_standing
    exact Within.same standing rfl rfl rfl (le_refl _)
  · intro _
    apply ackState_standing
    obtain ⟨adv, nxt, segs⟩ := ackRtt_receiver (deflate rx.tp) rx.ti.ack
    obtain ⟨adv, nxt, segs⟩ := ackRexmt_receiver rx.ti.ack adv nxt segs
    exact Within.same standing adv nxt segs (le_refl _)

theorem ackProcess_standing (standing : Standing start b rx) :
    Ends (Standing start b) (Gone start b) (ackProcess rx) := by
  unfold ackProcess
  apply Ends.ite
  · exact fun _ => dupAck_standing standing
  · exact fun _ => newAck_standing standing

theorem urgent_standing (standing : Standing start b rx) :
    Ends (Standing start b) (Gone start b) (urgent rx) := by
  have pulled : ∀ rx : Rx, Standing start b rx →
      Ends (Standing start b) (Gone start b) (tcpPulloutofband rx) := by
    intro rx standing
    unfold tcpPulloutofband
    split
    · exact fun tp out => by cases out
    · exact Within.same standing rfl rfl rfl (le_refl _)
  unfold urgent
  apply Ends.ite
  · intro _
    apply Ends.ite
    · exact fun _ => standing
    · intro _
      dsimp only
      have marked : ∀ up : Seq, Standing start b (if SEQ_GT up rx.tp.rcvUp then
          { rx with tp := { rx.tp with rcvUp := up, oob := none } } else rx) := by
        intro up
        split
        · exact Within.same standing rfl rfl rfl (le_refl _)
        · exact standing
      apply Ends.ite
      · exact fun _ => pulled _ (marked _)
      · exact fun _ => marked _
  · intro _
    apply Ends.ite
    · exact fun _ => Within.same standing rfl rfl rfl (le_refl _)
    · exact fun _ => standing

theorem dodata_within (standing : Standing start b rx) : Within start b (dodata rx).tp 1 := by
  unfold dodata
  split
  · exact @TCP_REASS_within start rx.tp b 1 rx.ti.segment standing
  · exact Within.less standing (Nat.le_add_left _ _)

theorem finReceived_within (within : Within start b rx.tp 1) :
    Within start b (finReceived rx).tp 0 := by
  have moved : ∀ tp tp' : Tcb, Within start b tp 0 → tp'.rcvAdv = tp.rcvAdv →
      tp'.rcvNxt = tp.rcvNxt →
      tp'.segs = tp.segs → Within start b tp' 0 :=
    fun tp tp' within adv nxt segs => within.same adv nxt segs (le_refl _)
  unfold finReceived
  split
  · dsimp only
    have acked : Within start b (if rx.tp.state.haveRcvdFin then rx.tp
        else { rx.tp with cantrcvmore := true, acknow := true, rcvNxt := rx.tp.rcvNxt + 1 }) 0 := by
      split
      · exact within.less (Nat.zero_le _)
      · exact within.take (n := 1) rfl rfl rfl
    split <;> first | exact acked | exact moved _ _ acked rfl rfl rfl
  · exact within.less (Nat.zero_le _)

theorem step6_standing (standing : Standing start b rx) :
    Ends (fun rx => Within start b rx.tp 0) (Gone start b) (step6 rx) := by
  have updated : Standing start b (windowUpdate rx) := by
    simp only [windowUpdate]
    split
    · exact Within.same standing rfl rfl rfl (le_refl _)
    · exact standing
  have next := urgent_standing updated
  unfold step6
  split
  · rename_i e gone
    rw [gone] at next
    exact next
  · rename_i rx' ok
    rw [ok] at next
    exact finReceived_within (dodata_within next)

theorem tcpMss_receiver (rt : Option Route) (tp : Tcb) (offer : Nat) :
    (tcpMss rt tp offer).1.rcvAdv = tp.rcvAdv ∧ (tcpMss rt tp offer).1.rcvNxt = tp.rcvNxt ∧
      (tcpMss rt tp offer).1.segs = tp.segs ∧ (tcpMss rt tp offer).1.state = tp.state := by
  cases rt with
  | none => exact ⟨rfl, rfl, rfl, rfl⟩
  | some rt =>
    have routed : (routeRtt rt tp).rcvAdv = tp.rcvAdv ∧ (routeRtt rt tp).rcvNxt = tp.rcvNxt ∧
        (routeRtt rt tp).segs = tp.segs ∧ (routeRtt rt tp).state = tp.state := by
      unfold routeRtt
      split
      · exact ⟨rfl, rfl, rfl, rfl⟩
      · exact ⟨rfl, rfl, rfl, rfl⟩
    have chosen : ∀ (resize : Bool) (mss mss' : Nat),
        (if resize then reserve rt mss mss' (routeRtt rt tp) else routeRtt rt tp).rcvAdv =
        tp.rcvAdv ∧
          (if resize then reserve rt mss mss' (routeRtt rt tp) else routeRtt rt tp).rcvNxt =
            tp.rcvNxt ∧
          (if resize then reserve rt mss mss' (routeRtt rt tp) else routeRtt rt tp).segs = tp.segs ∧
          (if resize then reserve rt mss mss' (routeRtt rt tp) else routeRtt rt tp).state =
            tp.state := by
      intro resize mss mss'
      cases resize with
      | true => exact routed
      | false => exact routed
    exact chosen _ _ _

theorem received_receiver (env : InEnv) (tp : Tcb) (ti : Ti) :
    (received env tp ti).rcvAdv = tp.rcvAdv ∧ (received env tp ti).rcvNxt = tp.rcvNxt ∧
      (received env tp ti).segs = tp.segs ∧ (received env tp ti).state = tp.state := by
  simp only [received]
  split
  · exact ⟨rfl, rfl, rfl, rfl⟩
  · unfold tcpDooptions
    split
    · exact ⟨rfl, rfl, rfl, rfl⟩
    · split
      · exact tcpMss_receiver _ _ _
      · exact ⟨rfl, rfl, rfl, rfl⟩

theorem predictAck_receiver {tp tp' : Tcb} {ti : Ti} (out : (predictAck tp ti).conn = some tp') :
    tp'.rcvAdv = tp.rcvAdv ∧ tp'.rcvNxt = tp.rcvNxt ∧ tp'.segs = tp.segs := by
  have timed : ∀ (soSnd : List Byte) (una : Seq),
      (ackRexmt { ackRtt tp ti.ack with soSnd := soSnd, sndUna := una } ti.ack).rcvAdv = tp.rcvAdv ∧
        (ackRexmt { ackRtt tp ti.ack with soSnd := soSnd, sndUna := una } ti.ack).rcvNxt =
          tp.rcvNxt ∧
        (ackRexmt { ackRtt tp ti.ack with soSnd := soSnd, sndUna := una } ti.ack).segs =
          tp.segs := by
    intro soSnd una
    have rtt := ackRtt_receiver tp ti.ack
    exact @ackRexmt_receiver tp { ackRtt tp ti.ack with soSnd := soSnd, sndUna := una } ti.ack
      rtt.1 rtt.2.1 rtt.2.2
  simp only [predictAck] at out
  split at out
  · cases out
  · split at out
    · cases out
      exact timed _ _
    · cases out
      exact timed _ _

/-- A segment moves `rcv_nxt` over no more than it brings and the queue holds, and leaves `rcv_adv`.
-/
theorem input_within {env : InEnv} {tp tp' : Tcb} {ti : Ti} (syn : tp.state.haveRcvdSyn)
    (out : (tcpInput env tp ti).conn = some tp') :
    Within tp (tally Segment.len tp.segs + ti.len + 1) tp' 0 := by
  obtain ⟨adv, nxt, segs, state⟩ := received_receiver env tp ti
  have begun :
      Within tp (tally Segment.len tp.segs + ti.len + 1) (received env tp ti) (ti.len + 1) :=
    ⟨adv, 0, by simpa using nxt, by rw [segs]; omega⟩
  simp only [tcpInput] at out
  split at out
  · rename_i closed
    rw [closed] at syn
    exact absurd syn (by decide)
  split at out
  · obtain ⟨adv', nxt', segs'⟩ := predictAck_receiver out
    exact begun.same adv' nxt' segs' (Nat.zero_le _)
  split at out
  · cases out
    exact Within.take (n := ti.len) (begun.less (by omega)) rfl rfl rfl
  · have arrives : Standing tp (tally Segment.len tp.segs + ti.len + 1)
        (arrived env (received env tp ti) ti) := begun.same rfl rfl rfl (le_refl _)
    have opened : ¬ (received env tp ti).state = .listen ∧
        ¬ (received env tp ti).state = .synSent := by
      rw [state]
      constructor
      · intro listens
        rw [listens] at syn
        exact absurd syn (by decide)
      · intro sent
        rw [sent] at syn
        exact absurd syn (by decide)
    have ends := ((((((trimLeft_standing env arrives).bind fun _ => afterClose_standing).bind
      fun _ => trimRight_standing).bind fun _ => checkFlags_standing).bind
      fun _ => ackSyn_standing).bind fun _ => ackProcess_standing).bind fun _ => step6_standing
    have path : stages env (arrived env (received env tp ti) ti) =
        beforeAck env (arrived env (received env tp ti) ti) >>= ackProcess >>= step6 := by
      rw [stages, if_neg (show ¬ (arrived env (received env tp ti) ti).tp.state =
        .listen from opened.1), if_neg (show ¬ (arrived env (received env tp ti) ti).tp.state =
          .synSent from opened.2)]
    rw [general, path] at out
    unfold beforeAck at out
    cases left :
      (trimLeft env (arrived env (received env tp ti) ti) >>= afterClose >>= trimRight >>=
        checkFlags >>= ackSyn >>= ackProcess >>= step6) with
    | error e =>
      rw [left] at ends out
      exact ends tp' out
    | ok rx =>
      rw [left] at ends out
      rw [leave_conn] at out
      cases out
      exact ends

end Stages

section Window

/-- The numbers of the receiving side that `tcp_output` reads. -/
def Tcb.numbers (tp : Tcb) : Seq × Seq := (tp.rcvNxt, tp.rcvAdv)

theorem plan_numbers (mbroom : Int) (tp : Tcb) : (plan mbroom tp).tp.numbers = tp.numbers := by
  have planned : (sendWindow tp).1.numbers = tp.numbers := by
    simp only [sendWindow]
    split
    · split
      · rfl
      · rfl
    · rfl
  simp only [plan, shrink]
  split
  · exact planned
  · exact planned

theorem options_numbers (p : Plan) (route : Option Route) :
    (p.options route).1.numbers = p.tp.numbers := by
  unfold Plan.options
  split
  · obtain ⟨adv, nxt, -, -⟩ := tcpMss_receiver route p.tp 0
    exact Prod.ext nxt adv
  · rfl

theorem refin_numbers (flags : Flags) (tp : Tcb) : (refin flags tp).numbers = tp.numbers := by
  unfold refin
  split
  · rfl
  · rfl

theorem advance_numbers (tp : Tcb) (len : Nat) (flags : Flags) :
    (advance (pullUrgent tp) len flags).numbers = tp.numbers := by
  have pulled : (pullUrgent tp).numbers = tp.numbers := by
    unfold pullUrgent
    split
    · rfl
    · rfl
  have taken : ∀ tp : Tcb, (takeNumbers tp len flags).numbers = tp.numbers := by
    intro tp
    simp only [takeNumbers]
    split
    · split
      · rfl
      · rfl
    · split
      · rfl
      · rfl
  have raised : ∀ (start : Seq) (tp : Tcb), (raiseMax start tp).numbers = tp.numbers := by
    intro start tp
    simp only [raiseMax]
    split
    · split
      · rfl
      · rfl
    · rfl
  have timed : ∀ tp : Tcb, (setRexmt tp).numbers = tp.numbers := by
    intro tp
    simp only [setRexmt]
    split
    · split
      · rfl
      · rfl
    · rfl
  unfold advance
  split
  · rw [timed, raised, taken, pulled]
  · split
    · exact pulled
    · exact pulled

def window (env : Env) (tp : Tcb) : Int :=
  announce ((plan env.mbroom tp).options env.route).1 (plan env.mbroom tp).win

structure Announces (env : Env) (k : Nat) (tp : Tcb) (r : Pass) : Prop where
  nxt : r.tp.rcvNxt = tp.rcvNxt
  kept : r.out = none ∨ (env.attempt k).error ≠ none → r.tp.rcvAdv = tp.rcvAdv
  ack : ∀ o, r.out = some o → o.ack = tp.rcvNxt ∧ o.win = (BitVec.ofInt 16 (window env tp)).toNat
  adv : ∀ o, r.out = some o → (env.attempt k).error = none → r.tp.rcvAdv =
    if window env tp > 0 ∧ SEQ_GT (tp.rcvNxt + BitVec.ofInt 32 (window env tp)) tp.rcvAdv then
      tp.rcvNxt + BitVec.ofInt 32 (window env tp) else tp.rcvAdv

theorem sent_receiver (error : Option Errno) (more : Bool) (win : Int) (out : Out) (tp : Tcb) :
    (sent error more win out tp).tp.rcvNxt = tp.rcvNxt ∧
      (sent error more win out tp).out = some out ∧ (sent error more win out tp).tp.rcvAdv =
        if error = none ∧ win > 0 ∧ SEQ_GT (tp.rcvNxt + BitVec.ofInt 32 win) tp.rcvAdv then
          tp.rcvNxt + BitVec.ofInt 32 win else tp.rcvAdv := by
  unfold sent
  cases error with
  | none =>
    dsimp only
    split
    · rename_i raises
      exact ⟨rfl, rfl, (if_pos ⟨rfl, raises⟩).symm⟩
    · rename_i kept
      exact ⟨rfl, rfl, (if_neg fun raises => kept raises.2).symm⟩
  | some e =>
    simp only [reduceCtorEq, false_and, if_false]
    cases e with
    | enobufs => exact ⟨rfl, rfl, rfl⟩
    | ehostunreach | enetdown | other =>
      dsimp only
      split
      · exact ⟨rfl, rfl, rfl⟩
      · exact ⟨rfl, rfl, rfl⟩

theorem announce_refin (flags : Flags) (tp : Tcb) (win : Int) :
    announce (refin flags tp) win = announce tp win := by
  unfold refin
  split
  · rfl
  · rfl

theorem emit_announces {env : Env} {k : Nat} {tp : Tcb} (len : Nat) (flags : Flags) :
    Announces env k tp (emit (env.attempt k).error (plan env.mbroom tp) len flags
      ((plan env.mbroom tp).options env.route).2 ((plan env.mbroom tp).options env.route).1) := by
  set p := plan env.mbroom tp with hp
  set before := refin flags (p.options env.route).1
  have same : before.numbers = tp.numbers := by
    rw [refin_numbers, options_numbers, hp, plan_numbers]
  have after : (advance (pullUrgent before) len flags).numbers = tp.numbers := by
    rw [advance_numbers, same]
  have win : announce before p.win = window env tp := announce_refin _ _ _
  have path :
      emit (env.attempt k).error p len flags (p.options env.route).2 (p.options env.route).1 =
      sent (env.attempt k).error p.sendalot (window env tp)
        (header before len flags (window env tp) (p.options env.route).2)
        (advance (pullUrgent before) len flags) := by
    rw [← win]
    rfl
  obtain ⟨nxt, out, adv⟩ := sent_receiver (env.attempt k).error p.sendalot (window env tp)
    (header before len flags (window env tp) (p.options env.route).2)
    (advance (pullUrgent before) len flags)
  have nxt' : (advance (pullUrgent before) len flags).rcvNxt = tp.rcvNxt := congrArg Prod.fst after
  have adv' : (advance (pullUrgent before) len flags).rcvAdv = tp.rcvAdv := congrArg Prod.snd after
  rw [nxt', adv'] at adv
  rw [path]
  constructor
  case nxt => exact nxt.trans nxt'
  case kept =>
    rintro (none | failed)
    · rw [out] at none
      cases none
    · rw [adv, if_neg fun raises => failed raises.1]
  case ack =>
    intro o sent
    rw [out] at sent
    cases sent
    exact ⟨congrArg Prod.fst same, rfl⟩
  case adv =>
    intro o _ accepted
    rw [adv]
    simp only [accepted, true_and]

theorem pass_announces {env : Env} {k : Nat} {idle : Bool} {tp : Tcb} {r : Pass}
    (done : pass env k idle tp = .ok r) : Announces env k tp r := by
  have quiet : ∀ tp' : Tcb, tp'.numbers = tp.numbers → Announces env k tp ⟨tp', none, false⟩ := by
    intro tp' same
    have nxt : tp'.rcvNxt = tp.rcvNxt := congrArg Prod.fst same
    have adv : tp'.rcvAdv = tp.rcvAdv := congrArg Prod.snd same
    exact ⟨nxt, fun _ => adv, (by rintro _ ⟨⟩), (by rintro _ ⟨⟩)⟩
  simp only [pass] at done
  split at done
  · simp only [transmit] at done
    split at done
    · cases done
      apply quiet
      show ((plan env.mbroom tp).options env.route).1.numbers = _
      rw [options_numbers, plan_numbers]
    · split at done
      · cases done
      · split at done
        · cases done
        · cases done
          exact emit_announces _ _
  · split at done
    · rename_i tp' rest
      cases done
      apply quiet
      rw [← plan_numbers env.mbroom tp]
      unfold Plan.rest at rest
      split at rest
      · unfold tcpSetpersist at rest
        split at rest
        · cases rest
        · cases rest
          rfl
      · cases rest
        rfl
    · cases done

/-- The window fits its field as long as the one announced before does, and does not shrink. -/
theorem announce_bounds {tp : Tcb} (win : Int) (before : (tp.rcvAdv - tp.rcvNxt).toInt ≤ 65535) :
    0 ≤ announce tp win ∧ announce tp win ≤ 65535 ∧
      (tp.rcvAdv - tp.rcvNxt).toInt ≤ announce tp win := by
  have quarter : (0 : Int) ≤ tp.rcvHiwat / 4 := by lia
  have most : (TCP_MAXWIN : Int) = 65535 := rfl
  simp only [announce, most]
  refine ⟨?_, ?_, ?_⟩
  all_goals split_ifs <;> lia

end Window

section Receiver

/-- The receiving side of a connection: how many bytes `rcv_nxt` is past `rcv_adv`, and the right
edge of the last segment that `ip_output` took. -/
structure Receiver where
  tp : Tcb
  lag : Int
  edge : Option Seq

namespace Receiver

/-- A segment that arrives, a pass of `tcp_output`, and whatever else leaves `rcv_nxt` and
`rcv_adv`: the user, the timers, and the other fields of the connection. -/
inductive Event where
  | input (env : InEnv) (ti : Ti)
  | output (env : Env) (k : Nat) (idle : Bool)
  | other (tp : Tcb)

def become (s : Receiver) (tp : Tcb) (edge : Option Seq) : Receiver where
  tp := tp
  lag := s.lag + (tp.rcvNxt - s.tp.rcvNxt).toNat - (tp.rcvAdv - s.tp.rcvAdv).toNat
  edge := edge

end Receiver

def Out.edge (o : Out) : Seq := o.ack + BitVec.ofNat 32 o.win

def emitted (env : Env) (k : Nat) (r : Pass) : Option Out :=
  if (env.attempt k).error = none then r.out else none

namespace Receiver

inductive Step (s : Receiver) : Event → Receiver → Prop where
  | input {env : InEnv} {ti : Ti} {tp : Tcb} (syn : s.tp.state.haveRcvdSyn)
    (conn : (tcpInput env s.tp ti).conn = some tp) : Step s (.input env ti) (s.become tp s.edge)
  | output {env : Env} {k : Nat} {idle : Bool} {r : Pass} (done : pass env k idle s.tp = .ok r) :
    Step s (.output env k idle) (s.become r.tp (((emitted env k r).map Out.edge).or s.edge))
  | other {tp : Tcb} (nxt : tp.rcvNxt = s.tp.rcvNxt) (adv : tp.rcvAdv = s.tp.rcvAdv) :
    Step s (.other tp) (s.become tp s.edge)

/-- As `tcp_rcvseqinit` leaves it, or with data that came with the SYN. -/
structure Opens (s : Receiver) : Prop where
  nxt : s.tp.rcvNxt = s.tp.rcvAdv + BitVec.ofInt 32 s.lag
  low : 0 ≤ s.lag
  edge : s.edge = none

/-- A step after which `rcv_nxt` is less than half the circle past `rcv_adv`. -/
def Near (s : Receiver) (event : Event) (t : Receiver) : Prop := Step s event t ∧ t.lag < 2 ^ 31

/-- `lag` says how far apart the numbers are; the peer knows `rcv_adv` as long as it is ahead. -/
structure Fits (s : Receiver) : Prop where
  nxt : s.tp.rcvNxt = s.tp.rcvAdv + BitVec.ofInt 32 s.lag
  low : -65535 ≤ s.lag
  high : s.lag < 2 ^ 31
  edge : s.lag ≤ 0 → s.edge = none ∨ s.edge = some s.tp.rcvAdv

variable {s t : Receiver}

theorem Opens.fits (opens : Opens s) (near : s.lag < 2 ^ 31) : Fits s :=
  ⟨opens.nxt, by have := opens.low; omega, near, fun _ => Or.inl opens.edge⟩

theorem ahead_of (base : Seq) {x : Int} (low : -2 ^ 31 ≤ x) (high : x < 2 ^ 31) :
    (base + BitVec.ofInt 32 x - base).toInt = x := by
  have zero := ahead_self base
  have moved := @ahead_add 32 base base x (by lia) (by lia)
  rw [zero, zero_add] at moved
  exact moved

theorem Fits.ahead (fits : Fits s) : (s.tp.rcvNxt - s.tp.rcvAdv).toInt = s.lag := by
  have := fits.low
  rw [fits.nxt]
  exact ahead_of _ (by omega) fits.high

theorem Fits.known (fits : Fits s) : (s.tp.rcvAdv - s.tp.rcvNxt).toInt = - s.lag := by
  have low := fits.low
  have high := fits.high
  have back : s.tp.rcvAdv = s.tp.rcvNxt + BitVec.ofInt 32 (- s.lag) := by
    rw [fits.nxt, BitVec.ofInt_neg, add_neg_cancel_right]
  rw [back]
  exact ahead_of _ (by omega) (by omega)

theorem Fits.window_bounds (fits : Fits s) (env : Env) :
    0 ≤ window env s.tp ∧ window env s.tp ≤ 65535 ∧ - s.lag ≤ window env s.tp := by
  have same : ((plan env.mbroom s.tp).options env.route).1.numbers = s.tp.numbers := by
    rw [options_numbers, plan_numbers]
  have nxt := congrArg Prod.fst same
  have adv := congrArg Prod.snd same
  have known := fits.known
  have low := fits.low
  have bounds := @announce_bounds ((plan env.mbroom s.tp).options env.route).1
    (plan env.mbroom s.tp).win
  simp only [Tcb.numbers] at nxt adv
  rw [nxt, adv, known] at bounds
  exact bounds (by omega)

theorem become_same (s : Receiver) {tp : Tcb} (edge : Option Seq) (nxt : tp.rcvNxt = s.tp.rcvNxt)
    (adv : tp.rcvAdv = s.tp.rcvAdv) : (s.become tp edge).lag = s.lag := by
  simp [become, nxt, adv]

theorem Fits.moved (fits : Fits s) {tp : Tcb} (adv : tp.rcvAdv = s.tp.rcvAdv)
    (near : (s.become tp s.edge).lag < 2 ^ 31) : Fits (s.become tp s.edge) := by
  have grows : (s.become tp s.edge).lag = s.lag + (tp.rcvNxt - s.tp.rcvNxt).toNat := by
    simp [become, adv]
  constructor
  case nxt =>
    rw [grows]
    show tp.rcvNxt = tp.rcvAdv + _
    rw [BitVec.ofInt_add, BitVec.ofInt_natCast, BitVec.ofNat_toNat, BitVec.setWidth_eq, adv,
      ← add_assoc, ← fits.nxt, add_sub_cancel]
  case low =>
    have := fits.low
    lia
  case high => exact near
  case edge =>
    intro behind
    show s.edge = none ∨ s.edge = some tp.rcvAdv
    rw [adv]
    exact fits.edge (by lia)

/-- A segment that is sent tells the peer of an edge no further back, and `rcv_adv` becomes that
edge or stays before `rcv_nxt`. -/
theorem Fits.sent (fits : Fits s) {env : Env} {tp : Tcb} {w : Int}
    (defw : w = window env s.tp) (nxt : tp.rcvNxt = s.tp.rcvNxt)
    (adv : tp.rcvAdv = if w > 0 ∧ SEQ_GT (s.tp.rcvNxt + BitVec.ofInt 32 w) s.tp.rcvAdv then
      s.tp.rcvNxt + BitVec.ofInt 32 w else s.tp.rcvAdv) :
    Fits (s.become tp (some (s.tp.rcvNxt + BitVec.ofInt 32 w))) ∧
      0 ≤ (tp.rcvAdv - s.tp.rcvAdv).toInt := by
  obtain ⟨least, most, further⟩ := fits.window_bounds env
  rw [← defw] at least most further
  have low := fits.low
  have high := fits.high
  have edge : s.tp.rcvNxt + BitVec.ofInt 32 w = s.tp.rcvAdv + BitVec.ofInt 32 (s.lag + w) := by
    rw [fits.nxt, BitVec.ofInt_add, add_assoc]
  by_cases raises : w > 0 ∧ SEQ_GT (s.tp.rcvNxt + BitVec.ofInt 32 w) s.tp.rcvAdv
  · rw [if_pos raises] at adv
    have close : s.lag + w < 2 ^ 31 := by
      by_contra far
      have around : s.tp.rcvAdv + BitVec.ofInt 32 (s.lag + w) =
          s.tp.rcvAdv + BitVec.ofInt 32 (s.lag + w - 2 ^ 32) := by
        rw [sub_eq_add_neg (s.lag + w), BitVec.ofInt_add _ (- 2 ^ 32),
          show BitVec.ofInt 32 (- 2 ^ 32) = 0 by decide, add_zero]
      have behind := raises.2
      rw [edge, around, SEQ_GT, ahead_of _ (by lia) (by lia)] at behind
      lia
    have ahead : (tp.rcvAdv - s.tp.rcvAdv).toInt = s.lag + w := by
      rw [adv, edge]
      exact ahead_of _ (by lia) close
    have far : ((tp.rcvAdv - s.tp.rcvAdv).toNat : Int) = s.lag + w := by
      rw [← ahead, BitVec.toInt_eq_toNat_cond, if_pos]
      rw [BitVec.toInt_eq_toNat_cond] at ahead
      split at ahead
      · assumption
      · have := (tp.rcvAdv - s.tp.rcvAdv).isLt
        lia
    have lag : (s.become tp (some (s.tp.rcvNxt + BitVec.ofInt 32 w))).lag = - w := by
      have still : (tp.rcvNxt - s.tp.rcvNxt).toNat = 0 := by
        rw [nxt, sub_self]
        rfl
      simp only [become, still, far]
      lia
    refine ⟨⟨?_, by lia, by lia, fun _ => Or.inr (congrArg some adv.symm)⟩, by lia⟩
    rw [lag, BitVec.ofInt_neg]
    show tp.rcvNxt = tp.rcvAdv + _
    rw [nxt, adv, add_neg_cancel_right]
  · rw [if_neg raises] at adv
    have lag := become_same s (some (s.tp.rcvNxt + BitVec.ofInt 32 w)) nxt adv
    refine ⟨⟨?_, by lia, by lia, fun behind => Or.inr (congrArg some ?_)⟩, by simp [adv]⟩
    · rw [lag]
      show tp.rcvNxt = tp.rcvAdv + _
      rw [nxt, adv]
      exact fits.nxt
    · have ahead := ahead_of s.tp.rcvAdv (x := s.lag + w) (by lia) (by lia)
      have level : s.lag + w = 0 := by
        rw [edge, SEQ_GT, ahead] at raises
        lia
      show _ = tp.rcvAdv
      rw [edge, level, adv]
      exact add_zero _

theorem emitted_cases (env : Env) (k : Nat) (r : Pass) :
    (emitted env k r = none ∧ (r.out = none ∨ (env.attempt k).error ≠ none)) ∨
      ∃ o, emitted env k r = some o ∧ r.out = some o ∧ (env.attempt k).error = none := by
  unfold emitted
  by_cases error : (env.attempt k).error = none
  · rw [if_pos error]
    cases out : r.out with
    | none => exact Or.inl ⟨rfl, Or.inl rfl⟩
    | some o => exact Or.inr ⟨o, rfl, rfl, error⟩
  · rw [if_neg error]
    exact Or.inl ⟨rfl, Or.inr error⟩

theorem Fits.field (fits : Fits s) {env : Env} {k : Nat} {r : Pass}
    (announces : Announces env k s.tp r) {o : Out} (out : r.out = some o) :
    (o.win : Int) = window env s.tp := by
  obtain ⟨least, most, -⟩ := fits.window_bounds env
  rw [(announces.ack o out).2, BitVec.toNat_ofInt]
  lia

theorem Fits.edge_eq (fits : Fits s) {env : Env} {k : Nat} {r : Pass}
    (announces : Announces env k s.tp r) {o : Out} (out : r.out = some o) :
    o.edge = s.tp.rcvNxt + BitVec.ofInt 32 (window env s.tp) := by
  rw [Out.edge, (announces.ack o out).1, ← fits.field announces out, BitVec.ofInt_natCast]

theorem Fits.step (fits : Fits s) {event : Event} (step : Near s event t) : Fits t := by
  obtain ⟨step, near⟩ := step
  cases step with
  | input syn conn => exact fits.moved (input_within syn conn).adv near
  | other nxt adv => exact fits.moved adv near
  | @output env k idle r done =>
    have announces := pass_announces done
    rcases emitted_cases env k r with ⟨nothing, why⟩ | ⟨o, some, out, error⟩
    · rw [nothing] at near ⊢
      exact fits.moved (announces.kept why) near
    · rw [some] at near ⊢
      have next := fits.sent rfl announces.nxt (announces.adv o out error)
      rw [← fits.edge_eq announces out] at next
      exact next.1

/-- What a step may do to the window: `rcv_adv` does not go back; the window of a segment fits its
field; the right edge of a segment that is sent is not before the last one unless `rcv_nxt` has
passed `rcv_adv`; and a segment that arrives moves `rcv_nxt` over no more than there is. -/
structure Unshrunk (s : Receiver) (event : Event) (t : Receiver) : Prop where
  adv : 0 ≤ (t.tp.rcvAdv - s.tp.rcvAdv).toInt
  field : ∀ env k idle r o, event = .output env k idle → pass env k idle s.tp = .ok r →
    r.out = some o →
    0 ≤ window env s.tp ∧ window env s.tp ≤ 65535 ∧ (o.win : Int) = window env s.tp
  edge : ∀ env k idle r o, event = .output env k idle → pass env k idle s.tp = .ok r →
    emitted env k r = some o → ¬ SEQ_GT s.tp.rcvNxt s.tp.rcvAdv → ∀ e, s.edge = some e →
    0 ≤ (o.edge - e).toInt
  taken : ∀ env ti, event = .input env ti → ∃ n ≤ tally Segment.len s.tp.segs + ti.len + 1,
    t.tp.rcvNxt = s.tp.rcvNxt + BitVec.ofNat 32 n

theorem Fits.adv (fits : Fits s) {event : Event} (step : Step s event t) :
    0 ≤ (t.tp.rcvAdv - s.tp.rcvAdv).toInt := by
  have still : ∀ tp : Tcb, tp.rcvAdv = s.tp.rcvAdv → 0 ≤ (tp.rcvAdv - s.tp.rcvAdv).toInt := by
    intro tp adv
    simp [adv]
  cases step with
  | input syn conn => exact still _ (input_within syn conn).adv
  | other nxt adv => exact still _ adv
  | @output env k idle r done =>
    have announces := pass_announces done
    rcases emitted_cases env k r with ⟨-, why⟩ | ⟨o, -, out, error⟩
    · exact still _ (announces.kept why)
    · exact (fits.sent rfl announces.nxt (announces.adv o out error)).2

theorem Fits.edge_forward (fits : Fits s) {env : Env} {k : Nat} {r : Pass} {o : Out} {e : Seq}
    (announces : Announces env k s.tp r) (out : r.out = some o)
    (behind : ¬ SEQ_GT s.tp.rcvNxt s.tp.rcvAdv) (last : s.edge = some e) :
    0 ≤ (o.edge - e).toInt := by
  obtain ⟨-, most, further⟩ := fits.window_bounds env
  have low := fits.low
  rw [SEQ_GT, fits.ahead] at behind
  rcases fits.edge (by lia) with none | known
  · rw [none] at last
    cases last
  · rw [known] at last
    cases last
    rw [fits.edge_eq announces out, fits.nxt, add_assoc, ← BitVec.ofInt_add,
      ahead_of _ (by lia) (by lia)]
    lia

theorem Fits.unshrunk (fits : Fits s) {event : Event} (step : Step s event t) :
    Unshrunk s event t := by
  constructor
  case adv => exact fits.adv step
  case field =>
    rintro env k idle r o - done out
    obtain ⟨least, most, -⟩ := fits.window_bounds env
    exact ⟨least, most, fits.field (pass_announces done) out⟩
  case edge =>
    rintro env k idle r o - done sent behind e last
    rcases emitted_cases env k r with ⟨nothing, -⟩ | ⟨o', some, out, -⟩
    · rw [nothing] at sent
      cases sent
    · rw [some] at sent
      cases sent
      exact fits.edge_forward (pass_announces done) out behind last
  case taken =>
    rintro env ti rfl
    cases step with
    | input syn conn =>
      obtain ⟨-, n, nxt, room⟩ := input_within syn conn
      exact ⟨n, by omega, nxt⟩

/-- Over every run in which `rcv_nxt` stays less than half the circle past `rcv_adv`. -/
theorem window_never_shrinks {s₀ : Receiver} {events : List Event} {event : Event}
    (opens : Opens s₀) (near : s₀.lag < 2 ^ 31) (run : Run Near s₀ events s)
    (step : Step s event t) :
    Unshrunk s event t := by
  have steps : ∀ s event t, True → Fits s → Near s event t → Fits t :=
    fun s event t _ fits step => fits.step step
  have fits : Fits s := @Run.invariant _ _ _ Fits (fun _ => True) steps _ _ _ run
    (fun _ _ => trivial) (opens.fits near)
  exact fits.unshrunk step

theorem passes_run (env : Env) (fuel k : Nat) (idle : Bool) {tp' : Tcb} {outs : List Out}
    {s : Receiver} (done : passes env fuel k idle s.tp = .ok (tp', outs)) :
    ∃ events t, Run Step s events t ∧ t.tp = tp' := by
  induction fuel generalizing k s outs with
  | zero => cases done
  | succ fuel ih =>
    simp only [passes] at done
    split at done
    · cases done
    · rename_i r first
      set s' := s.become r.tp (((emitted env k r).map Out.edge).or s.edge)
      have step : Step s (.output env k idle) s' := .output first
      split at done
      · split at done
        · cases done
        · rename_i tp outs rest
          cases done
          obtain ⟨events, t, run, same⟩ :=
            ih (k + 1) (show passes env fuel (k + 1) idle s'.tp = _ from rest)
          exact ⟨_, t, .cons step run, same⟩
      · cases done
        exact ⟨_, _, .cons step (.nil _), rfl⟩

theorem tcpOutput_run {env : Env} {fuel : Nat} {s : Receiver} {tp' : Tcb} {outs : List Out}
    (done : tcpOutput env fuel s.tp = .ok (tp', outs)) :
    ∃ events t, Run Step s events t ∧ t.tp = tp' := by
  have restarted : (restart s.tp).rcvNxt = s.tp.rcvNxt ∧ (restart s.tp).rcvAdv = s.tp.rcvAdv := by
    unfold restart
    split
    · exact ⟨rfl, rfl⟩
    · exact ⟨rfl, rfl⟩
  have first : Step s (.other (restart s.tp)) _ := .other restarted.1 restarted.2
  obtain ⟨events, t, run, same⟩ :=
    passes_run (s := s.become (restart s.tp) s.edge) env fuel 0 _ done
  exact ⟨_, t, .cons first run, same⟩

section Flood

/-- A connection with room for 16384 bytes that has announced no window. -/
def quiet (acknow : Bool) (nxt : Seq) (soRcv : List Byte) : Tcb :=
  { tcpNewtcpcb 16384 16384 with state := .established, template := true, keep := TCPTV_KEEP_IDLE,
                                 delack := true, sndWnd := 8192, acknow := acknow, rcvNxt := nxt,
                                 soRcv := soRcv }

def flooded (n : Nat) : Receiver := ⟨quiet false (BitVec.ofNat 32 n) [], n, none⟩

def floodEnv : InEnv := ⟨16384, false, none, false, true, true, 0⟩

def floodTi (seq : Seq) : Ti :=
  ⟨seq, 0, 8192, 0, ⟨false, false, false, false, true, false⟩, 16384, List.replicate 16384 0, none⟩

def floodOut : Env := ⟨65536, 16, none, fun _ => ⟨true, true, none⟩⟩

theorem flood_input (nxt adv : Seq) :
    (tcpInput floodEnv { quiet false nxt [] with rcvAdv := adv } (floodTi nxt)).conn =
      some { quiet false (nxt + BitVec.ofNat 32 16384) (List.replicate 16384 0) with rcvAdv := adv } := by
  set tp : Tcb := { quiet false nxt [] with rcvAdv := adv }
  have same : received floodEnv tp (floodTi nxt) = tp := rfl
  have notAck : ¬ PureAck tp (floodTi nxt) := by
    rintro ⟨-, none, -⟩
    exact absurd none (by decide : ¬ 16384 = 0)
  have data : PureData floodEnv.mbroom tp (floodTi nxt) := by
    refine ⟨⟨rfl, ⟨rfl, rfl, rfl, rfl, rfl⟩, rfl, ?_, rfl, rfl⟩, ?_, rfl, rfl, ?_⟩
    · exact (by decide : 8192 ≠ 0)
    · exact (by decide : 16384 ≠ 0)
    · exact (by decide : ((16384 : Nat) : Int) ≤ min (((16384 : Nat) : Int) - ((0 : Nat) : Int)) 16384)
  have opened : ¬ tp.state = .closed := (by rintro ⟨⟩)
  simp only [tcpInput, if_neg opened, same, if_neg notAck, if_pos data]
  rfl

def floodAck (nxt : Seq) :
    Out := ⟨0, nxt, 0, ⟨false, false, false, false, true, false⟩, 16384, 0, none⟩

theorem pass_acks {tp : Tcb} {nxt adv : Seq} (passed : (pass floodOut 0 true tp).map
    (fun r => (r.tp.rcvNxt, r.tp.rcvAdv, emitted floodOut 0 r)) =
      .ok (nxt, adv, some (floodAck nxt))) :
    ∃ r, pass floodOut 0 true tp = .ok r ∧ r.tp.rcvNxt = nxt ∧ r.tp.rcvAdv = adv ∧
      emitted floodOut 0 r = some (floodAck nxt) := by
  cases done : pass floodOut 0 true tp with
  | error e =>
    rw [done] at passed
    cases passed
  | ok r =>
    rw [done] at passed
    obtain ⟨next, rest⟩ := Prod.ext_iff.mp (Except.ok.inj passed)
    obtain ⟨last, out⟩ := Prod.ext_iff.mp rest
    exact ⟨r, rfl, next, last, out⟩

theorem near_become {tp : Tcb} {edge : Option Seq} {event : Event} {lag : Int}
    (step : Step s event (s.become tp edge))
    (moved : s.lag + (tp.rcvNxt - s.tp.rcvNxt).toNat - (tp.rcvAdv - s.tp.rcvAdv).toNat = lag)
    (low : lag < 2 ^ 31) :
    Near s event ⟨tp, lag, edge⟩ := by
  subst moved
  exact ⟨step, low⟩

/-- The window is announced, filled by the peer, emptied by the user and announced again. -/
theorem window_never_shrinks_twice : ∃ events s r t o, Run Near (flooded 0) events s ∧
    s.edge = some 16384 ∧
    pass floodOut 0 true s.tp = .ok r ∧ emitted floodOut 0 r = some o ∧ o.edge = 32768 ∧
    Unshrunk s (.output floodOut 0 true) t := by
  obtain ⟨r, first, nxt, adv, out⟩ := @pass_acks (quiet true 0 []) 0 16384 (by decide +kernel)
  obtain ⟨r', second, -, -, out'⟩ :=
    @pass_acks { quiet true (0 + BitVec.ofNat 32 16384) [] with rcvAdv := 16384 }
      16384 32768 (by decide +kernel)
  have asks : Near (flooded 0) (.other (quiet true 0 [])) ⟨quiet true 0 [], 0, none⟩ :=
    near_become (.other rfl rfl) (by decide) (by decide)
  have announces : Near ⟨quiet true 0 [], 0, none⟩ (.output floodOut 0 true) ⟨r.tp, -16384,
      some 16384⟩ := by
    have step := @Step.output ⟨quiet true 0 [], 0, none⟩ _ _ _ _ first
    rw [out] at step
    exact near_become step (by rw [nxt, adv]; decide) (by decide)
  have waits : Near ⟨r.tp, -16384, some 16384⟩ (.other { quiet false 0 [] with rcvAdv := 16384 })
      ⟨{ quiet false 0 [] with rcvAdv := 16384 }, -16384, some 16384⟩ :=
    near_become (.other nxt.symm adv.symm) (by rw [nxt, adv]; rfl) (by decide)
  have fills :
    Near ⟨{ quiet false 0 [] with rcvAdv := 16384 }, -16384, some 16384⟩
      (.input floodEnv (floodTi 0))
      ⟨{ quiet false (0 + BitVec.ofNat 32 16384) (List.replicate 16384 0) with rcvAdv := 16384 }, 0,
        some 16384⟩ :=
    near_become (.input (by decide : TcpState.established.haveRcvdSyn) (flood_input 0 16384)) rfl
      (by decide)
  have reads :
      Near ⟨{ quiet false (0 + BitVec.ofNat 32 16384) (List.replicate 16384 0) with
        rcvAdv := 16384 }, 0, some 16384⟩
      (.other { quiet true (0 + BitVec.ofNat 32 16384) [] with rcvAdv := 16384 })
      ⟨{ quiet true (0 + BitVec.ofNat 32 16384) [] with rcvAdv := 16384 }, 0, some 16384⟩ :=
    near_become (.other rfl rfl) rfl (by decide)
  have run := Run.cons asks (.cons announces (.cons waits (.cons fills (.cons reads (.nil _)))))
  exact ⟨_, _, r', _, _, run, rfl, second, out', rfl,
    window_never_shrinks ⟨rfl, le_refl _, rfl⟩ (by decide) run (.output second)⟩

/-- A peer that does not wait for windows, and a user who reads what comes. -/
theorem flood (n : Nat) : ∃ events, Run Step (flooded 0) events (flooded (16384 * n)) := by
  induction n with
  | zero => exact ⟨[], .nil _⟩
  | succ n ih =>
    obtain ⟨events, run⟩ := ih
    set x := BitVec.ofNat 32 (16384 * n) with defx
    set full := quiet false (x + BitVec.ofNat 32 16384) (List.replicate 16384 0)
    set empty := quiet false (x + BitVec.ofNat 32 16384) []
    have came : Step (flooded (16384 * n)) (.input floodEnv (floodTi x))
        ((flooded (16384 * n)).become full none) :=
      .input (by decide : TcpState.established.haveRcvdSyn) (flood_input x 0)
    have read : Step ((flooded (16384 * n)).become full none) (.other empty)
        (((flooded (16384 * n)).become full none).become empty none) := .other rfl rfl
    have next : ((flooded (16384 * n)).become full none).become empty none =
        flooded (16384 * (n + 1)) := by
      have moved : x + BitVec.ofNat 32 16384 = BitVec.ofNat 32 (16384 * (n + 1)) := by
        rw [defx, ← BitVec.ofNat_add, Nat.mul_succ]
      have lag : ((16384 * n : Nat) : Int) + (x + BitVec.ofNat 32 16384 - x).toNat -
          ((0 : Seq) - 0).toNat + (x + BitVec.ofNat 32 16384 - (x + BitVec.ofNat 32 16384)).toNat -
          ((0 : Seq) - 0).toNat = ((16384 * (n + 1) : Nat) : Int) := by
        rw [add_sub_cancel_left, sub_self, sub_self]
        show ((16384 * n : Nat) : Int) + (16384 : Nat) - (0 : Nat) + (0 : Nat) - (0 : Nat) = _
        omega
      have target : flooded (16384 * (n + 1)) = ⟨empty, ((16384 * (n + 1) : Nat) : Int), none⟩ := by
        rw [flooded, ← moved]
      rw [target]
      exact congrArg (Receiver.mk empty · none) lag
    rw [next] at read
    exact ⟨_, run.append (.cons came (.cons read (.nil _)))⟩

/-- After 2147500032 bytes without a segment in return, the difference of `rcv_adv` and `rcv_nxt` is
a large positive number, and its lower half goes into the header. -/
theorem window_overflows : ∃ s₀ events s r o, Opens s₀ ∧ s₀.lag = 0 ∧ Run Step s₀ events s ∧
    pass floodOut 0 true s.tp = .ok r ∧ r.out = some o ∧ 65535 < window floodOut s.tp ∧
    (o.win : Int) ≠ window floodOut s.tp := by
  obtain ⟨events, run⟩ := flood 131073
  have last :
      Step (flooded (16384 * 131073)) (.other (quiet true (BitVec.ofNat 32 (16384 * 131073)) []))
        ((flooded (16384 * 131073)).become (quiet true (BitVec.ofNat 32 (16384 * 131073)) []) none) :=
    .other rfl rfl
  have sends :
      (pass floodOut 0 true (quiet true (BitVec.ofNat 32 (16384 * 131073)) [])).map Pass.out =
      .ok (some ⟨0, BitVec.ofNat 32 (16384 * 131073), 0, ⟨false, false, false, false, true, false⟩,
        49152, 0, none⟩) := by
    decide +kernel
  have large : window floodOut (quiet true (BitVec.ofNat 32 (16384 * 131073)) []) = 2147467264 := by
    decide +kernel
  cases done : pass floodOut 0 true (quiet true (BitVec.ofNat 32 (16384 * 131073)) []) with
  | error e =>
    rw [done] at sends
    cases sends
  | ok r =>
    rw [done] at sends
    refine ⟨flooded 0, _, _, r, _, ⟨rfl, le_refl _, rfl⟩, rfl, run.append (.cons last (.nil _)),
      done, Except.ok.inj sends, ?_, ?_⟩
    · show 65535 < window floodOut (quiet true (BitVec.ofNat 32 (16384 * 131073)) [])
      rw [large]
      decide
    · show ((49152 : Nat) : Int) ≠
        window floodOut (quiet true (BitVec.ofNat 32 (16384 * 131073)) [])
      rw [large]
      decide

end Flood

end Receiver

end Receiver

end FreeBsd.Netinet.Tcp
