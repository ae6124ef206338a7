import FreeBsd.Netinet.TcpSender

/-! What the functions of the protocol do to the sending side of a connection: each of them is
a path of the sender's moves. -/
namespace FreeBsd.Netinet.Tcp

open FreeBsd.Lib

section Output

theorem takeNumbers_sender (tp : Tcb) (len : Nat) (flags : Flags) :
    (takeNumbers tp len flags).sender = tp.sender.takeNumbers len flags.syn flags.fin := by
  rcases flags with ⟨_ | _, _ | _, _, _, _, _⟩ <;> simp [takeNumbers, Sender.takeNumbers,
    Tcb.sender]

theorem raiseMax_sender (startseq : Seq) (tp : Tcb) :
    (raiseMax startseq tp).sender = tp.sender.raiseMax tp.sender.nxt := by
  by_cases new : SEQ_GT tp.sndNxt tp.sndMax
  · have raised : tp.sender.raiseMax tp.sender.nxt = { tp.sender with max := tp.sndNxt } :=
      if_pos new
    rw [raised, raiseMax, if_pos new]
    by_cases timed : tp.rtt = 0
    · rw [if_pos timed]
      rfl
    · rw [if_neg timed]
      rfl
  · have same : tp.sender.raiseMax tp.sender.nxt = tp.sender := if_neg new
    rw [same, raiseMax, if_neg new]

theorem setRexmt_sender (tp : Tcb) :
    (setRexmt tp).sender = tp.sender.setRexmt (decide (tp.rxtcur ≠ 0)) := by
  simp only [setRexmt, Sender.setRexmt]
  split_ifs <;> simp_all [Tcb.sender]

theorem rxtcur_advanced (startseq : Seq) (tp : Tcb) (len : Nat) (flags : Flags) :
    (raiseMax startseq (takeNumbers tp len flags)).rxtcur = tp.rxtcur := by
  simp only [raiseMax, takeNumbers]
  split_ifs <;> rfl

theorem advance_sender (tp : Tcb) (len : Nat) (flags : Flags) :
    (advance tp len flags).sender =
      tp.sender.advance len flags.syn flags.fin (decide (tp.rxtcur ≠ 0)) := by
  have mode : (tp.sender.force = false ∨ tp.sender.persist = false) ↔
      (tp.force = false ∨ tp.persist = 0) := by
    simp [Tcb.sender]
  simp only [advance, Sender.advance, mode]
  split
  · rw [setRexmt_sender, raiseMax_sender, takeNumbers_sender, rxtcur_advanced]
  · exact apply_ite Tcb.sender _ _ _

theorem tcpMss_sender (rt : Option Route) (tp : Tcb) (offer : Nat) :
    (tcpMss rt tp offer).1.sender = tp.sender := by
  cases rt with
  | none => rfl
  | some rt =>
    have routed : (routeRtt rt tp).sender = tp.sender := by
      unfold routeRtt
      split <;> simp only [Tcb.sender]
    have started : ∀ mss tp, (startCwnd rt mss tp).sender = tp.sender := fun _ _ => rfl
    have reserved : ∀ mss mss' tp, (reserve rt mss mss' tp).sender = tp.sender := fun _ _ _ => rfl
    simp only [tcpMss, started]
    rw [apply_ite Tcb.sender, reserved, ite_self, routed]

theorem sendWindow_forced {tp : Tcb} (forced : tp.force = true) : (sendWindow tp).2 ≠ 0 := by
  simp only [sendWindow, if_pos forced]
  split
  · exact Nat.one_ne_zero
  · assumption

theorem sendWindow_fst (tp : Tcb) : (sendWindow tp).1.sndNxt = tp.sndNxt ∧
    (sendWindow tp).1.sndUna = tp.sndUna ∧ (sendWindow tp).1.soSnd = tp.soSnd := by
  simp only [sendWindow]
  split
  · split
    · exact ⟨rfl, rfl, rfl⟩
    · exact ⟨rfl, rfl, rfl⟩
  · exact ⟨rfl, rfl, rfl⟩

theorem sendWindow_ready {tp : Tcb} (forced : tp.force = true) :
    Ready tp.sender (sendWindow tp).1.sender := by
  simp only [sendWindow, if_pos forced]
  split
  · exact .same fun calm => absurd (calm.symm.trans forced) (by rintro ⟨⟩)
  · exact .unpersist forced

theorem plan_ready (mbroom : Int) (tp : Tcb) : Ready tp.sender (plan mbroom tp).tp.sender := by
  simp only [plan]
  by_cases forced : tp.force = true
  · rw [shrink, if_neg fun h => sendWindow_forced forced h.2]
    exact sendWindow_ready forced
  · have same : sendWindow tp = (tp, min tp.sndWnd tp.sndCwnd) := by
      rw [sendWindow, if_neg forced]
    rw [same, shrink]
    split
    · exact .shut (Bool.eq_false_iff.mpr forced)
    · rename_i unshrunk
      apply Ready.same
      intro _ shut
      have closed : tp.sndWnd = 0 := by
        simpa [Tcb.sender] using shut
      change (tp.sndNxt - tp.sndUna).toInt ≤ 0
      dsimp only at unshrunk
      rw [closed] at unshrunk
      lia

theorem shrink_of_pos {len : Int} {win : Nat} {tp : Tcb} (positive : len > 0) :
    shrink len win tp = tp :=
  if_neg fun h => by omega

theorem plan_data (mbroom : Int) (tp : Tcb) (some : (plan mbroom tp).len ≠ 0) :
    ((plan mbroom tp).tp.sndNxt - (plan mbroom tp).tp.sndUna).toInt + (plan mbroom tp).len ≤
      (plan mbroom tp).tp.soSnd.length := by
  simp only [plan] at *
  have positive : (((min (sendWindow tp).1.soSnd.length (sendWindow tp).2 : Nat) : Int) -
      (tp.sndNxt - tp.sndUna).toInt) > 0 := by lia
  obtain ⟨nxt, una, snd⟩ := sendWindow_fst tp
  rw [shrink_of_pos positive, nxt, una]
  lia

theorem plan_sends (mbroom : Int) (tp : Tcb) {len : Nat}
    (copied : len = (plan mbroom tp).len ∨ len = 0) :
    Sends (plan mbroom tp).tp.sender (plan mbroom tp).len len (plan mbroom tp).flags.fin := by
  refine ⟨plan_data mbroom tp, copied, ?_⟩
  intro fin
  have both := Bool.and_eq_true_iff.mp fin
  exact ⟨both.1, of_decide_eq_true both.2⟩

theorem refin_sender (flags : Flags) (tp : Tcb) :
    (refin flags tp).sender = tp.sender.refin flags.fin :=
  apply_ite Tcb.sender _ _ _

theorem pullUrgent_sender (tp : Tcb) : (pullUrgent tp).sender = tp.sender := by
  unfold pullUrgent
  split
  · rfl
  · rfl

theorem sent_eq (error : Option Errno) (sendalot : Bool) (win : Int) (out : Out) (tp : Tcb) :
    (sent error sendalot win out tp).tp.sender = tp.sender ∧
      (sent error sendalot win out tp).out = some out := by
  unfold sent
  cases error with
  | none =>
    dsimp only
    split
    · exact ⟨rfl, rfl⟩
    · exact ⟨rfl, rfl⟩
  | some e =>
    cases e with
    | enobufs => exact ⟨rfl, rfl⟩
    | ehostunreach | enetdown | other =>
      dsimp only
      split
      · exact ⟨rfl, rfl⟩
      · exact ⟨rfl, rfl⟩

def Out.finNumber (out : Out) : Option Seq :=
  if out.flags.fin then some (out.seq + BitVec.ofNat 32 out.len) else none

theorem header_finNumber (tp : Tcb) (len : Nat) (flags : Flags) (win : Int) (mss : Option Nat) :
    (header tp len flags win mss).finNumber =
      if flags.fin then some (tp.sender.nxt + BitVec.ofNat 32 len) else none :=
  rfl

theorem options_sender (p : Plan) (route : Option Route) :
    (p.options route).1.sender = p.tp.sender := by
  unfold Plan.options
  split
  · exact tcpMss_sender _ _ _
  · rfl

theorem copied_or (maxLinkhdr : Nat) (copy : Bool) (len : Nat) (mss : Option Nat) :
    copied maxLinkhdr copy len mss = len ∨ copied maxLinkhdr copy len mss = 0 := by
  exact ite_eq_or_eq _ _ _

theorem emit_sender (error : Option Errno) (p : Plan) (len : Nat) (flags : Flags) (mss : Option Nat)
    (tp : Tcb) : (emit error p len flags mss tp).tp.sender =
      (tp.sender.refin flags.fin).advance len flags.syn flags.fin (decide (tp.rxtcur ≠ 0)) := by
  have timeout : (pullUrgent (refin flags tp)).rxtcur = tp.rxtcur := by
    simp only [pullUrgent, refin]
    split <;> split <;> rfl
  rw [emit, (sent_eq _ _ _ _ _).1, advance_sender, pullUrgent_sender, refin_sender, timeout]

theorem emit_finNumber (error : Option Errno) (p : Plan) (len : Nat) (flags : Flags)
    (mss : Option Nat) (tp : Tcb) : (emit error p len flags mss tp).out.bind Out.finNumber =
      if flags.fin then some ((tp.sender.refin flags.fin).nxt + BitVec.ofNat 32 len) else none := by
  rw [emit, (sent_eq _ _ _ _ _).2, Option.bind_some, header_finNumber, refin_sender]

theorem sent_again (error : Option Errno) (sendalot : Bool) (win : Int) (out : Out) (tp : Tcb) :
    (sent error sendalot win out tp).again = true → sendalot = true := by
  unfold sent
  cases error with
  | none => exact id
  | some e =>
    cases e with
    | enobufs => rintro ⟨⟩
    | ehostunreach | enetdown | other =>
      dsimp only
      split
      · rintro ⟨⟩
      · rintro ⟨⟩

theorem plan_sendalot (mbroom : Int) (tp : Tcb) (more : (plan mbroom tp).sendalot = true) :
    (tp.sender.nxt - tp.sender.una).toInt < tp.sender.cc := by
  have long := of_decide_eq_true more
  obtain ⟨-, -, snd⟩ := sendWindow_fst tp
  rw [snd] at long
  change (tp.sndNxt - tp.sndUna).toInt < tp.soSnd.length
  omega

theorem transmit_passes {env : Env} {a : Attempt} {mbroom : Int} {tp : Tcb} {r : Pass}
    (done : transmit env a (plan mbroom tp) = .ok r) :
    Passes tp.sender (r.out.bind Out.finNumber) r.again r.tp.sender := by
  have ready := plan_ready mbroom tp
  have options := options_sender (plan mbroom tp) env.route
  have sends :=
    plan_sends mbroom tp (copied_or env.maxLinkhdr a.copy _ ((plan mbroom tp).options env.route).2)
  have syn : (plan mbroom tp).flags.syn = (tcpOutflags (plan mbroom tp).tp.state).syn := rfl
  have more := plan_sendalot mbroom tp
  generalize plan mbroom tp = p at *
  unfold transmit at done
  split at done
  · cases done
    rw [← options] at ready
    exact .rest ready
  · split at done
    · cases done
    · dsimp only at done
      split at done
      · cases done
      · cases done
        have move :=
          fun again => @Passes.send _ _ _ _ _ (decide ((p.options env.route).1.rxtcur ≠ 0)) again
          ready sends
        rw [← show p.flags.syn = (tcpOutflags p.tp.sender.state).syn from syn] at move
        rw [emit_sender, emit_finNumber, options]
        exact move _ fun again => more (sent_again _ _ _ _ _ again)

theorem setpersist_sender {tp tp' : Tcb} (done : tcpSetpersist tp = .ok tp') :
    tp.rexmt = 0 ∧ tp'.sender = { tp.sender with persist := true } := by
  unfold tcpSetpersist at done
  split at done
  · cases done
  · rename_i off
    cases done
    refine ⟨not_not.mp off, ?_⟩
    have some :
        rangeset ((tp.srtt / 4 + tp.rttvar) / 2 * tcpBackoff.getD tp.rxtshift 64) TCPTV_PERSMIN
        TCPTV_PERSMAX ≠ 0 := by
      simp only [rangeset, TCPTV_PERSMIN, TCPTV_PERSMAX]
      split_ifs <;> lia
    simp only [Tcb.sender, some, ne_eq, not_false_eq_true, decide_true]

theorem rest_passes {mbroom : Int} {tp tp' : Tcb} (done : (plan mbroom tp).rest = .ok tp') :
    Passes tp.sender none false tp'.sender := by
  have ready := plan_ready mbroom tp
  unfold Plan.rest at done
  split at done
  · rename_i idle
    have data : (plan mbroom tp).tp.sender.cc ≠ 0 :=
      fun none => idle.1 (List.length_eq_zero_iff.mp none)
    rw [(setpersist_sender done).2]
    exact .persist ready (by simp [Tcb.sender, idle]) (by simp [Tcb.sender, idle]) data
  · cases done
    exact .rest ready

theorem pass_passes {env : Env} {k : Nat} {idle : Bool} {tp : Tcb} {r : Pass}
    (done : pass env k idle tp = .ok r) :
    Passes tp.sender (r.out.bind Out.finNumber) r.again r.tp.sender := by
  simp only [pass] at done
  split at done
  · exact transmit_passes done
  · split at done
    · rename_i rest
      cases done
      exact rest_passes rest
    · cases done

def finNumbers (outs : List Out) : List Seq := outs.filterMap Out.finNumber

theorem passes_outputs {env : Env} {fuel k : Nat} {idle : Bool} {tp : Tcb} {r : Tcb × List Out}
    (done : passes env fuel k idle tp = .ok r) : Outputs tp.sender (finNumbers r.2) r.1.sender := by
  have filtered : ∀ out : Option Out, finNumbers out.toList = (out.bind Out.finNumber).toList := by
    intro out
    cases out with
    | none => rfl
    | some out =>
      cases number : out.finNumber with
      | none => simp [finNumbers, number]
      | some f => simp [finNumbers, number]
  induction fuel generalizing k tp r with
  | zero => cases done
  | succ fuel ih =>
    simp only [passes] at done
    split at done
    · cases done
    · rename_i first
      have move := pass_passes first
      split at done
      · rename_i again
        rw [again] at move
        split at done
        · cases done
        · rename_i rest
          cases done
          have tail := Outputs.more move (ih rest)
          rwa [← filtered, finNumbers, finNumbers, ← List.filterMap_append] at tail
      · rename_i final
        rw [Bool.eq_false_iff.mpr final] at move
        cases done
        rw [filtered]
        exact .last move

theorem output_outputs {env : Env} {fuel : Nat} {tp tp' : Tcb} {outs : List Out}
    (done : tcpOutput env fuel tp = .ok (tp', outs)) :
    Outputs tp.sender (finNumbers outs) tp'.sender := by
  have restarted : (restart tp).sender = tp.sender := by
    unfold restart
    split
    · rfl
    · rfl
  rw [← restarted]
  exact passes_outputs done

end Output
section Input

variable {G : Guard}

def Leaves (G : Guard) (s : Sender) : Exit → Prop
  | .done tp => Path G s [] tp.sender
  | .output tp => Path G s [] tp.sender
  | .retransmit tp onxt =>
    ∃ t, Path G s [] t ∧ tp.sender = { t with rexmt := false, nxt := t.una } ∧ onxt = t.nxt
  | .panic fault => fault ≠ .rexmt
  | _ => True

structure Quiet (rx rx' : Rx) : Prop where
  sender : rx'.tp.sender = rx.tp.sender
  ack : rx'.ti.ack = rx.ti.ack

theorem Path.refl {s t : Sender} (same : t = s) : Path G s [] t := by
  rw [same]
  exact .nil s

theorem Leaves.after {s t : Sender} {e : Exit} (leaves : Leaves G t e) (path : Path G s [] t) :
    Leaves G s e := by
  cases e with
  | done tp => exact path.append leaves
  | output tp => exact path.append leaves
  | retransmit tp onxt =>
    obtain ⟨u, rest, before⟩ := leaves
    exact ⟨u, path.append rest, before⟩
  | closed | dropped tp => trivial
  | panic fault => exact leaves

theorem dropafterack_ends {P : Rx → Prop} {s : Sender} {rx : Rx} (path : Path G s [] rx.tp.sender) :
    Ends P (Leaves G s) (dropafterack rx) := by
  unfold dropafterack
  split
  · exact path
  · exact path

theorem dropSyn_quiet (rx : Rx) : Quiet rx (dropSyn rx) := by
  unfold dropSyn
  split
  · exact ⟨rfl, rfl⟩
  · exact ⟨rfl, rfl⟩

theorem trimLeft_ends (env : InEnv) (rx : Rx) :
    Ends (Quiet rx) (Leaves G rx.tp.sender) (trimLeft env rx) := by
  obtain ⟨sender, ack⟩ := dropSyn_quiet rx
  simp only [trimLeft]
  split
  · split
    · split
      · exact ⟨sender, ack⟩
      · exact dropafterack_ends (.refl sender)
    · exact ⟨sender, ack⟩
  · exact ⟨rfl, rfl⟩

theorem afterClose_ends (rx : Rx) : Ends (Quiet rx) (Leaves G rx.tp.sender) (afterClose rx) := by
  unfold afterClose
  split
  · trivial
  · exact ⟨rfl, rfl⟩

theorem trimRight_ends (rx : Rx) : Ends (Quiet rx) (Leaves G rx.tp.sender) (trimRight rx) := by
  simp only [trimRight]
  split
  · split
    · split
      · trivial
      · split
        · exact ⟨rfl, rfl⟩
        · exact dropafterack_ends (.nil _)
    · exact ⟨rfl, rfl⟩
  · exact ⟨rfl, rfl⟩

theorem checkFlags_ends (rx : Rx) : Ends (Quiet rx) (Leaves G rx.tp.sender) (checkFlags rx) := by
  unfold checkFlags
  split
  · trivial
  · split
    · trivial
    · split
      · exact .nil _
      · exact ⟨rfl, rfl⟩

theorem Quiet.bind {rx : Rx} {r : Except Exit Rx} {f : Rx → Except Exit Rx}
    (first : Ends (Quiet rx) (Leaves G rx.tp.sender) r)
    (next : ∀ rx, Ends (Quiet rx) (Leaves G rx.tp.sender) (f rx)) :
    Ends (Quiet rx) (Leaves G rx.tp.sender) (r >>= f) := by
  apply first.bind
  intro rx' quiet
  rw [← quiet.sender]
  apply (next rx').mono
  · intro rx'' second
    exact ⟨second.sender.trans quiet.sender, second.ack.trans quiet.ack⟩
  · intro e leaves
    exact leaves

theorem enqueue_nil (ti : Segment) : enqueue ti [] = some [ti] := rfl

theorem present_sender (tp : Tcb) :
    ∃ segs, (present tp).1.sender = { tp.sender with segs := segs } := by
  unfold present
  split
  · split
    · exact ⟨tp.segs, rfl⟩
    · split
      · exact ⟨tp.segs, rfl⟩
      · exact ⟨_, rfl⟩
  · exact ⟨tp.segs, rfl⟩

theorem reass_sender (tp : Tcb) (ti : Option Segment) :
    ∃ segs, (tcpReass tp ti).1.sender = { tp.sender with segs := segs } := by
  unfold tcpReass
  cases ti with
  | none => exact present_sender tp
  | some ti =>
    dsimp only
    split
    · exact ⟨tp.segs, rfl⟩
    · rename_i segs placed
      exact present_sender { tp with segs := segs }

theorem TCP_REASS_sender (tp : Tcb) (ti : Segment) :
    ∃ segs, (TCP_REASS tp ti).1.sender = { tp.sender with segs := segs } := by
  unfold TCP_REASS
  split
  · exact ⟨tp.segs, rfl⟩
  · exact reass_sender tp (some ti)

theorem TCP_REASS_fin {tp : Tcb} {ti : Segment} (nothing : tp.segs = [])
    (state : tp.state = .synReceived) (taken : (TCP_REASS tp ti).2 = true) : ti.len = 0 := by
  unfold TCP_REASS at taken
  split at taken
  · rename_i inline
    rw [state] at inline
    exact absurd inline.2.2 (by rintro ⟨⟩)
  · simp only [tcpReass, nothing, enqueue_nil] at taken
    by_contra data
    rw [present, if_pos (by rw [state]; decide)] at taken
    simp only [state, data, ne_eq, not_false_eq_true, and_self, if_true] at taken
    cases taken

theorem windowUpdate_moves (rx : Rx)
    (half : rx.tp.state.num < TcpState.established.num → rx.tiflags.ack = false) :
    Path G rx.tp.sender [] (windowUpdate rx).tp.sender ∧ (windowUpdate rx).tp.state = rx.tp.state ∧
      (windowUpdate rx).tp.segs = rx.tp.segs ∧ (windowUpdate rx).ti = rx.ti ∧
      (windowUpdate rx).tiflags = rx.tiflags := by
  simp only [windowUpdate]
  split
  · rename_i update
    refine ⟨.one (.window _ ?_), rfl, rfl, rfl, rfl⟩
    by_contra before
    exact absurd (update.1.symm.trans (half (not_le.mp before))) (by rintro ⟨⟩)
  · exact ⟨.nil _, rfl, rfl, rfl, rfl⟩

theorem urgent_ends (rx : Rx) : Ends (fun rx' => rx'.tp.sender = rx.tp.sender ∧
    rx'.ti.len = rx.ti.len ∧ rx'.tiflags.fin = rx.tiflags.fin) (Leaves G rx.tp.sender)
      (urgent rx) := by
  simp only [urgent]
  split
  · split
    · exact ⟨rfl, rfl, rfl⟩
    · split
      · unfold tcpPulloutofband
        split
        · exact (by rintro ⟨⟩)
        · split
          · exact ⟨rfl, rfl, rfl⟩
          · exact ⟨rfl, rfl, rfl⟩
      · split
        · exact ⟨rfl, rfl, rfl⟩
        · exact ⟨rfl, rfl, rfl⟩
  · split
    · exact ⟨rfl, rfl, rfl⟩
    · exact ⟨rfl, rfl, rfl⟩

theorem finReceived_sender (rx : Rx) :
    (finReceived rx).tp.sender = if rx.tiflags.fin then rx.tp.sender.fin else rx.tp.sender := by
  by_cases fin : rx.tiflags.fin = true
  · rw [if_pos fin, finReceived, if_pos fin]
    simp only [Sender.fin, Tcb.sender]
    split <;> split <;> simp_all [tcpCanceltimers, soisdisconnected]
  · rw [if_neg fin, finReceived, if_neg fin]

theorem dodata_moves (rx : Rx) (rcvd : rx.tp.state.haveRcvdSyn) :
    Path G rx.tp.sender [] (dodata rx).tp.sender ∧ (dodata rx).tp.state = rx.tp.state := by
  unfold dodata
  split
  · obtain ⟨segs, sender⟩ := TCP_REASS_sender rx.tp rx.ti.segment
    refine ⟨?_, congrArg Sender.state sender⟩
    rw [show (TCP_REASS rx.tp rx.ti.segment).1.sender = _ from sender]
    exact .one (.queue segs rcvd)
  · exact ⟨.nil _, rfl⟩

theorem dodata_fin {rx : Rx} (nothing : rx.tp.segs = []) (state : rx.tp.state = .synReceived)
    (taken : (dodata rx).tiflags.fin = true) : rx.ti.len = 0 ∧ rx.tiflags.fin = true := by
  unfold dodata at taken
  split at taken
  · rename_i some
    have empty : rx.ti.len = 0 := TCP_REASS_fin nothing state taken
    exact ⟨empty, some.1.resolve_left (not_not.mpr empty)⟩
  · cases taken

theorem step6_ends (rx : Rx) (rcvd : rx.tp.state.haveRcvdSyn)
    (half : rx.tp.state = .synReceived → rx.tiflags.ack = false ∧ rx.tp.segs = [] ∧
      (rx.ti.len = 0 → rx.tiflags.fin = true → G.early)) :
    Ends (fun rx' => Path G rx.tp.sender [] rx'.tp.sender) (Leaves G rx.tp.sender) (step6 rx) := by
  have before : rx.tp.state.num < TcpState.established.num → rx.tp.state = .synReceived := by
    intro early
    cases state : rx.tp.state with
    | synReceived => rfl
    | closed | listen | synSent =>
      rw [state] at rcvd
      exact absurd rcvd (by decide)
    | _ =>
      rw [state] at early
      exact absurd early (by decide)
  obtain ⟨window, state', segs', segment, flags⟩ := @windowUpdate_moves G rx fun early =>
    (half (before early)).1
  have ends := @urgent_ends G (windowUpdate rx)
  unfold step6
  cases result : urgent (windowUpdate rx) with
  | error e =>
    rw [result] at ends
    exact Leaves.after ends window
  | ok rx' =>
    rw [result, segment, flags] at ends
    obtain ⟨sender, len, fin⟩ := ends
    have state : rx'.tp.state = rx.tp.state := (congrArg Sender.state sender).trans state'
    obtain ⟨path, state''⟩ := @dodata_moves G rx' (state ▸ rcvd)
    rw [sender] at path
    dsimp only [Ends]
    rw [finReceived_sender]
    split
    · rename_i taken
      apply (window.append path).append
      apply Path.one
      apply Moves.fin
      intro before
      have before' : rx.tp.state = .synReceived := state ▸ state'' ▸ before
      obtain ⟨-, nothing, allowed⟩ := half before'
      have segs : rx'.tp.segs = [] := (congrArg Sender.segs sender).trans (segs'.trans nothing)
      obtain ⟨empty, flag⟩ := dodata_fin segs (state.trans before') taken
      exact allowed (len.symm.trans empty) (fin.symm.trans flag)
    · exact window.append path

theorem Sender.settled_state (s : Sender) : s.settled.state ≠ .synReceived := by
  unfold Sender.settled
  split
  · rintro ⟨⟩
  · assumption

theorem Sender.settled_of_ne {s : Sender} (settled : s.state ≠ .synReceived) : s.settled = s := by
  rw [Sender.settled, if_neg settled]

/-- The ACK of `rx` is acceptable to `t`, and it is no longer in SYN_RECEIVED. -/
structure Settles (G : Guard) (t : Sender) (rx : Rx) : Prop where
  sender : rx.tp.sender = t.settled
  acceptable : t.state = .synReceived → SEQ_LEQ rx.ti.ack t.max
  establish : t.state = .synReceived → G.establish t.una rx.ti.ack

theorem ackSyn_ends (rx : Rx) (establish : rx.tp.state = .synReceived → (ackSyn rx).isOk = true →
      G.establish rx.tp.sndUna rx.ti.ack) :
    Ends (fun rx' => ∃ t, Path G rx.tp.sender [] t ∧ Settles G t rx') (Leaves G rx.tp.sender)
      (ackSyn rx) := by
  unfold ackSyn at *
  split
  · rename_i state
    split
    · exact .nil _
    · rename_i unacceptable
      rw [if_pos state, if_neg unacceptable] at establish
      obtain ⟨segs, sender⟩ := reass_sender { rx.tp with state := .established } none
      have queue : Moves G rx.tp.sender [] { rx.tp.sender with segs := segs } := by
        apply Moves.queue
        rw [show rx.tp.sender.state = .synReceived from state]
        decide
      have acceptable : SEQ_LEQ rx.ti.ack rx.tp.sndMax :=
        not_lt.mp fun above => unacceptable (.inr above)
      refine ⟨_, .one queue, ?_, fun _ => acceptable, fun _ => establish state rfl⟩
      have settled : { rx.tp.sender with segs := segs }.settled =
          { rx.tp.sender with state := .established, segs := segs } := if_pos state
      rw [settled]
      exact sender
  · rename_i state
    exact ⟨_, .nil _, (Sender.settled_of_ne state).symm, fun before => absurd before state,
      fun before => absurd before state⟩

theorem Settles.path {t : Sender} {rx : Rx} (settles : Settles G t rx)
    (old : SEQ_LEQ rx.ti.ack t.una) :
    Path G t [] rx.tp.sender := by
  rw [settles.sender]
  by_cases state : t.state = .synReceived
  · exact .one (.establish rx.ti.ack state old (settles.establish state))
  · exact .refl (Sender.settled_of_ne state)

theorem dupAck_ends {t : Sender} {rx : Rx} (path : Path G t [] rx.tp.sender) :
    Ends (fun rx' => Path G t [] rx'.tp.sender ∧ rx'.tp.state = rx.tp.state ∧ rx'.ti = rx.ti)
      (Leaves G t) (dupAck rx) := by
  simp only [dupAck]
  split
  · split
    · exact ⟨path, rfl, rfl⟩
    · rename_i same
      split
      · refine ⟨_, path, ?_, rfl⟩
        have ack : rx.ti.ack = rx.tp.sndUna := by
          by_contra other
          exact same (.inr other)
        simp only [Tcb.sender, ack]
        rfl
      · split
        · exact path
        · exact ⟨path, rfl, rfl⟩
  · exact ⟨path, rfl, rfl⟩

theorem xmitTimer_sender (tp : Tcb) : (tcpXmitTimer tp).sender = tp.sender := by
  simp only [tcpXmitTimer]
  split
  · rfl
  · rfl

theorem ackRtt_sender (tp : Tcb) (ack : Seq) : (ackRtt tp ack).sender = tp.sender := by
  unfold ackRtt
  split
  · exact xmitTimer_sender tp
  · rfl

theorem ackRexmt_sender (tp : Tcb) (ack : Seq) :
    (ackRexmt tp ack).sender = tp.sender.ackRexmt ack (decide (tp.rxtcur ≠ 0)) := by
  unfold ackRexmt Sender.ackRexmt
  by_cases all : ack = tp.sndMax
  · rw [if_pos all, if_pos (show ack = tp.sender.max from all)]
    rfl
  · rw [if_neg all, if_neg (show ¬ ack = tp.sender.max from all)]
    by_cases persist : tp.persist = 0
    · simp [Tcb.sender, persist]
    · simp [Tcb.sender, persist]

theorem ackTimers_sender (tp : Tcb) (ack : Seq) :
    (ackTimers tp ack).sender = tp.sender.ackRexmt ack (decide ((ackRtt tp ack).rxtcur ≠ 0)) := by
  rw [ackTimers, ackRexmt_sender, ackRtt_sender]

theorem dropAcked_sender (tp : Tcb) (ack : Seq) : (dropAcked tp ack).1.sender =
    tp.sender.dropAcked ack (if SEQ_LT tp.sndNxt ack then ack else tp.sndNxt)
      (decide ((dropAcked tp ack).1.sndWnd ≠ 0)) := by
  have length : (tp.soSnd.drop (min (ack - tp.sndUna).toNat tp.soSnd.length)).length =
      tp.soSnd.length - (ack - tp.sndUna).toNat := by
    rw [List.length_drop]
    lia
  exact congrArg (fun cc => { tp.sender with una := ack,
                                             nxt := if SEQ_LT tp.sndNxt ack then ack else tp.sndNxt,
                                             cc := cc,
                                             window := decide ((dropAcked tp ack).1.sndWnd ≠ 0) })
                                             length

theorem ackState_ends (rx : Rx) (fin : Bool) (settled : rx.tp.state ≠ .synReceived) :
    Ends (fun rx' => Path G (rx.tp.sender.ended fin) [] rx'.tp.sender ∧
      rx'.tp.state ≠ .synReceived ∧ rx'.ti = rx.ti)
        (Leaves G (rx.tp.sender.ended fin)) (ackState rx fin) := by
  have other : rx.tp.state ≠ .finWait1 → rx.tp.state ≠ .closing →
      rx.tp.sender.ended fin = rx.tp.sender := by
    intro first second
    simp only [Sender.ended]
    split
    · split
      · contradiction
      · contradiction
      · rfl
    · rfl
  simp only [ackState]
  cases state : rx.tp.state with
  | finWait1 =>
    cases fin with
    | false => exact ⟨.nil _, settled, rfl⟩
    | true =>
      have ended : rx.tp.sender.ended true = { rx.tp.sender with state := .finWait2 } := by
        simp only [Sender.ended, Tcb.sender, state, if_true]
      rw [ended]
      refine ⟨?_, (by rintro ⟨⟩), rfl⟩
      dsimp only
      split
      · exact .one (.shut _)
      · exact .nil _
  | closing =>
    cases fin with
    | false => exact ⟨.nil _, settled, rfl⟩
    | true =>
      have ended : rx.tp.sender.ended true =
          { rx.tp.sender with state := .timeWait, rexmt := false, persist := false } := by
        simp only [Sender.ended, Tcb.sender, state, if_true]
      rw [ended]
      exact ⟨.one (.shut _), (by rintro ⟨⟩), rfl⟩
  | timeWait =>
    rw [other (by rw [state]; rintro ⟨⟩) (by rw [state]; rintro ⟨⟩)]
    apply dropafterack_ends
    apply Path.refl
    simp only [Tcb.sender, state]
  | lastAck =>
    rw [other (by rw [state]; rintro ⟨⟩) (by rw [state]; rintro ⟨⟩)]
    cases fin with
    | false => exact ⟨.nil _, settled, rfl⟩
    | true => trivial
  | closed | listen | synSent | synReceived | established | closeWait | finWait2 =>
    rw [other (by rw [state]; rintro ⟨⟩) (by rw [state]; rintro ⟨⟩)]
    exact ⟨.nil _, settled, rfl⟩

theorem Sender.settled_fields (s : Sender) : s.settled.una = s.una ∧ s.settled.max = s.max ∧
    s.settled.nxt = s.nxt ∧ s.settled.cc = s.cc := by
  unfold Sender.settled
  split
  · exact ⟨rfl, rfl, rfl, rfl⟩
  · exact ⟨rfl, rfl, rfl, rfl⟩

theorem newAck_ends {t : Sender} {rx : Rx} (settles : Settles G t rx) (rcvd : t.state.haveRcvdSyn)
    (new : SEQ_GT rx.ti.ack t.una) :
    Ends (fun rx' => Path G t [] rx'.tp.sender ∧ rx'.tp.state ≠ .synReceived ∧ rx'.ti = rx.ti)
      (Leaves G t) (newAck rx) := by
  obtain ⟨una, max, nxt, cc⟩ := t.settled_fields
  have state : rx.tp.state ≠ .synReceived := by
    rw [show rx.tp.state = t.settled.state from congrArg Sender.state settles.sender]
    exact t.settled_state
  have sender : (deflate rx.tp).sender = t.settled := settles.sender
  have max' : (deflate rx.tp).sndMax = t.max := (congrArg Sender.max sender).trans max
  unfold newAck
  dsimp only
  generalize deflate rx.tp = tp at *
  rw [max']
  split
  · rename_i above
    have before : t.state ≠ .synReceived :=
      fun before => absurd above (not_lt.mpr (settles.acceptable before))
    apply dropafterack_ends
    apply Path.refl
    rw [← Sender.settled_of_ne before]
    exact sender
  · rename_i within
    have timers := ackTimers_sender tp rx.ti.ack
    generalize decide ((ackRtt tp rx.ti.ack).rxtcur ≠ 0) = r at timers
    have opened : (openCwnd (ackTimers tp rx.ti.ack)).sender = t.settled.ackRexmt rx.ti.ack r := by
      rw [← sender, ← timers]
      rfl
    have nxt' : (openCwnd (ackTimers tp rx.ti.ack)).sndNxt = t.nxt :=
      (congrArg Sender.nxt opened).trans nxt
    have dropped := dropAcked_sender (openCwnd (ackTimers tp rx.ti.ack)) rx.ti.ack
    generalize decide ((dropAcked (openCwnd (ackTimers tp rx.ti.ack)) rx.ti.ack).1.sndWnd ≠ 0) =
      w at dropped
    have fin : (dropAcked (openCwnd (ackTimers tp rx.ti.ack)) rx.ti.ack).2 =
        decide ((rx.ti.ack - t.settled.una).toNat > t.settled.cc) := by
      have una' : (openCwnd (ackTimers tp rx.ti.ack)).sndUna = t.settled.una :=
        congrArg Sender.una opened
      have cc' : (openCwnd (ackTimers tp rx.ti.ack)).soSnd.length = t.settled.cc :=
        congrArg Sender.cc opened
      rw [dropAcked, una', cc']
    rw [opened, nxt'] at dropped
    rw [fin]
    have state' : (dropAcked (openCwnd (ackTimers tp rx.ti.ack)) rx.ti.ack).1.state =
        t.settled.state :=
      congrArg Sender.state dropped
    generalize dropAcked (openCwnd (ackTimers tp rx.ti.ack)) rx.ti.ack = d at *
    have settled : d.1.state ≠ .synReceived := by
      rw [state']
      exact t.settled_state
    -- the last ACK ends the connection
    by_cases last : t.state = .lastAck ∧ (rx.ti.ack - t.settled.una).toNat > t.settled.cc
    · have state : d.1.state = .lastAck := by
        rw [state', Sender.settled_of_ne (by rw [last.1]; rintro ⟨⟩)]
        exact last.1
      simp only [ackState, state, decide_eq_true last.2, if_true]
      trivial
    have move := Moves.acked rx.ti.ack (if SEQ_LT t.nxt rx.ti.ack then rx.ti.ack else t.nxt) r w
      rcvd new
      (not_lt.mp within) settles.establish (by
        intro state
        rw [← una, ← cc]
        exact not_lt.mp fun above => last ⟨state, above⟩) (.inl rfl)
    rw [Sender.acked, ← dropped] at move
    apply (ackState_ends ⟨d.1, rx.ti, rx.tiflags, _⟩ _ settled).mono
    · rintro rx' ⟨path, rest⟩
      exact ⟨(Path.one move).append path, rest⟩
    · intro e leaves
      exact leaves.after (.one move)

theorem ackProcess_ends {t : Sender} {rx : Rx} (settles : Settles G t rx)
    (rcvd : t.state.haveRcvdSyn) :
    Ends (fun rx' => Path G t [] rx'.tp.sender ∧ rx'.tp.state ≠ .synReceived ∧ rx'.ti = rx.ti)
      (Leaves G t) (ackProcess rx) := by
  obtain ⟨settled, -⟩ := t.settled_fields
  have una : rx.tp.sndUna = t.una := (congrArg Sender.una settles.sender).trans settled
  have state : rx.tp.state ≠ .synReceived := by
    rw [show rx.tp.state = t.settled.state from congrArg Sender.state settles.sender]
    exact t.settled_state
  unfold ackProcess
  split
  · rename_i old
    rw [una] at old
    apply (dupAck_ends (settles.path old)).mono
    · rintro rx' ⟨path, same, ti⟩
      exact ⟨path, same ▸ state, ti⟩
    · exact fun _ leaves => leaves
  · rename_i new
    rw [una] at new
    exact newAck_ends settles rcvd (not_le.mp new)

section Synchronized

theorem Sender.ended_rcvd {s : Sender} {fin : Bool} (rcvd : s.state.haveRcvdSyn) :
    (s.ended fin).state.haveRcvdSyn := by
  unfold Sender.ended
  split
  · split
    · simp [TcpState.haveRcvdSyn, TcpState.num]
    · simp [TcpState.haveRcvdSyn, TcpState.num]
    · exact rcvd
  · exact rcvd

theorem Sender.settled_rcvd {s : Sender} (rcvd : s.state.haveRcvdSyn) :
    s.settled.state.haveRcvdSyn := by
  unfold Sender.settled
  split
  · simp [TcpState.haveRcvdSyn, TcpState.num]
  · exact rcvd

theorem Sender.close_rcvd {s : Sender} (rcvd : s.state.haveRcvdSyn) :
    s.close.state.haveRcvdSyn := by
  unfold Sender.close
  split
  · simp [TcpState.haveRcvdSyn, TcpState.num]
  · simp [TcpState.haveRcvdSyn, TcpState.num]
  · simp [TcpState.haveRcvdSyn, TcpState.num]
  · exact rcvd

theorem Moves.rcvd {s t : Sender} {fins : List Seq} (move : Moves G s fins t)
    (rcvd : s.state.haveRcvdSyn) : t.state.haveRcvdSyn := by
  cases move with
  | syn | synAck | synOnly => simp [TcpState.haveRcvdSyn, TcpState.num]
  | establish => exact Sender.settled_rcvd rcvd
  | acked => exact Sender.ended_rcvd (Sender.settled_rcvd rcvd)
  | window | queue | shut | force | timeout => exact rcvd
  | fin =>
    unfold Sender.fin
    split
    · simp [TcpState.haveRcvdSyn, TcpState.num]
    · simp [TcpState.haveRcvdSyn, TcpState.num]
    · simp [TcpState.haveRcvdSyn, TcpState.num]
    · simp [TcpState.haveRcvdSyn, TcpState.num]
    · exact rcvd
  | close => exact Sender.close_rcvd rcvd
  | outputs _ outputs => rwa [outputs.frame.state]
  | retransmit _ outputs => exact outputs.frame.state ▸ rcvd
  | connect _ closed =>
    rw [closed] at rcvd
    exact absurd rcvd (by decide)

theorem Path.rcvd {s t : Sender} {fins : List Seq} (path : Path G s fins t)
    (rcvd : s.state.haveRcvdSyn) :
    t.state.haveRcvdSyn := by
  induction path with
  | nil => exact rcvd
  | cons move _ ih => exact ih (move.rcvd rcvd)

end Synchronized

theorem checked_ends (env : InEnv) (rx : Rx) : Ends (Quiet rx) (Leaves G rx.tp.sender)
    (trimLeft env rx >>= afterClose >>= trimRight >>= checkFlags) := by
  apply Quiet.bind _ checkFlags_ends
  apply Quiet.bind _ trimRight_ends
  exact Quiet.bind (trimLeft_ends env rx) afterClose_ends

theorem synchronized_ends (env : InEnv) (rx : Rx) (rcvd : rx.tp.state.haveRcvdSyn)
    (establish : rx.tp.state = .synReceived → (beforeAck env rx).isOk = true →
      G.establish rx.tp.sndUna rx.ti.ack) :
    Ends (fun rx' => Path G rx.tp.sender [] rx'.tp.sender) (Leaves G rx.tp.sender)
      (beforeAck env rx >>= ackProcess >>= step6) := by
  have checked := (@checked_ends G env rx).known
  apply Ends.bind (P := fun rx' => Path G rx.tp.sender [] rx'.tp.sender ∧
    rx'.tp.state ≠ .synReceived)
  · apply Ends.bind (P := fun rx' => ∃ t, Path G rx.tp.sender [] t ∧ Settles G t rx')
    · apply checked.bind
      rintro rx' ⟨same, reached⟩
      have state : rx'.tp.state = rx.tp.state := congrArg Sender.state same.sender
      have una : rx'.tp.sndUna = rx.tp.sndUna := congrArg Sender.una same.sender
      rw [← same.sender]
      apply ackSyn_ends
      intro before accepted
      rw [una, same.ack]
      apply establish (state ▸ before)
      rwa [beforeAck, reached]
    · rintro rx' ⟨t, path, settles⟩
      apply (ackProcess_ends settles (path.rcvd rcvd)).mono
      · rintro rx'' ⟨rest, state, -⟩
        exact ⟨path.append rest, state⟩
      · intro e leaves
        exact leaves.after path
  · rintro rx' ⟨path, state⟩
    apply (step6_ends rx' (path.rcvd rcvd) fun before => absurd before state).mono
    · intro rx'' rest
      exact path.append rest
    · intro e leaves
      exact leaves.after path

theorem dooptions_sender (route : Option Route) (tp : Tcb) (ti : Ti) :
    (tcpDooptions route tp ti).sender = tp.sender := by
  unfold tcpDooptions
  split
  · rfl
  · split
    · exact tcpMss_sender _ _ _
    · rfl

def OnlySynFin (flags : Flags) (len : Nat) : Prop :=
  flags.syn = true ∧ flags.fin = true ∧ flags.ack = false ∧ flags.rst = false ∧ len = 0

instance (flags : Flags) (len : Nat) : Decidable (OnlySynFin flags len) :=
  inferInstanceAs (Decidable (_ ∧ _))

structure Opened (G : Guard) (rx rx' : Rx) : Prop where
  path : Path G rx.tp.sender [] rx'.tp.sender
  rcvd : rx'.tp.state.haveRcvdSyn
  segs : rx'.tp.segs = []
  half : rx'.tp.state = .synReceived → rx.tiflags.ack = false
  flag : rx'.tiflags.ack = rx.tiflags.ack
  syn : rx.tiflags.syn = true ∧ rx.tiflags.rst = false
  fin : rx'.ti.len = 0 → rx'.tiflags.fin = true → rx.ti.len = 0 ∧ rx.tiflags.fin = true

theorem listen_ends (env : InEnv) (rx : Rx) (state : rx.tp.state = .listen)
    (nothing : rx.tp.segs = []) :
    Ends (Opened G rx) (Leaves G rx.tp.sender) (listen env rx) := by
  have options := dooptions_sender env.route { rx.tp with template := true } rx.ti
  have state' := (congrArg Sender.state options).trans state
  have segs := (congrArg Sender.segs options).trans nothing
  simp only [listen]
  generalize tcpDooptions env.route { rx.tp with template := true } rx.ti = tp at *
  split
  · trivial
  · rename_i acceptable
    have flag : rx.tiflags.ack = false := by
      by_contra flag
      exact acceptable (.inr (.inl (Bool.eq_true_of_not_eq_false flag)))
    have syn : rx.tiflags.syn = true ∧ rx.tiflags.rst = false := by
      simp only [not_or, Bool.not_eq_true, Bool.not_eq_false] at acceptable
      exact ⟨acceptable.2.2.1, acceptable.1⟩
    refine ⟨?_, by simp [TcpState.haveRcvdSyn,
      TcpState.num], segs, fun _ => flag, rfl, syn, fun len fin => ⟨len, fin⟩⟩
    rw [show rx.tp.sender = tp.sender from options.symm]
    exact .one (.syn env.iss state')

theorem nowEstablished_sender (tp : Tcb) (nothing : tp.segs = []) :
    (nowEstablished tp).sender = { tp.sender with state := .established } := by
  have presented : (tcpReass { tp with state := .established } none).1 =
    { tp with state := .established } := by
    simp [tcpReass, present, nothing]
  rw [nowEstablished, presented]
  dsimp only
  split
  · exact xmitTimer_sender _
  · rfl

theorem synSent_ends (rx : Rx) (state : rx.tp.state = .synSent) (nothing : rx.tp.segs = []) :
    Ends (Opened G rx) (Leaves G rx.tp.sender) (synSent rx) := by
  unfold synSent
  dsimp only
  split
  · exact .nil _
  · rename_i acceptable
    split
    · split
      · trivial
      · exact .nil _
    · rename_i rst
      split
      · exact .nil _
      · rename_i flagged
        have syn : rx.tiflags.syn = true ∧ rx.tiflags.rst = false :=
          ⟨Bool.eq_true_of_not_eq_false flagged, Bool.eq_false_iff.mpr rst⟩
        by_cases flag : rx.tiflags.ack = true
        · have new : SEQ_GT rx.ti.ack rx.tp.iss := not_le.mp fun old => acceptable ⟨flag, .inl old⟩
          have within : SEQ_LEQ rx.ti.ack rx.tp.sndMax :=
            not_lt.mp fun above => acceptable ⟨flag, .inr above⟩
          have established := nowEstablished_sender (takeSyn rx.ti.seq (synAcked rx.ti.ack rx.tp))
            nothing
          rw [if_pos flag, if_pos ⟨flag, new⟩]
          have state' : (nowEstablished (takeSyn rx.ti.seq (synAcked rx.ti.ack rx.tp))).state =
              .established :=
            congrArg Sender.state established
          refine ⟨?_, ?_, (congrArg Sender.segs established).trans nothing, ?_, rfl, syn,
            fun len fin => ⟨len, fin⟩⟩
          · rw [established]
            exact .one (.synAck rx.ti.ack state new within)
          · rw [state']
            decide
          · intro half
            exact absurd (state'.symm.trans half) (by rintro ⟨⟩)
        · rw [if_neg flag, if_neg fun h => flag h.1]
          exact ⟨.one (.synOnly state), by simp [TcpState.haveRcvdSyn, TcpState.num], nothing,
            fun _ => Bool.eq_false_iff.mpr flag, rfl, syn, fun len fin => ⟨len, fin⟩⟩

theorem trimThenStep6_ends (rx : Rx) : Ends (fun rx' => rx'.tp.sender = rx.tp.sender ∧
    rx'.tiflags.ack = rx.tiflags.ack ∧
    (rx'.ti.len = 0 → rx'.tiflags.fin = true → rx.ti.len = 0 ∧ rx.tiflags.fin = true))
      (Leaves G rx.tp.sender) (trimThenStep6 rx) := by
  simp only [trimThenStep6]
  split
  · exact ⟨rfl, rfl, fun _ fin => absurd fin (by rintro ⟨⟩)⟩
  · exact ⟨rfl, rfl, fun len fin => ⟨len, fin⟩⟩

theorem opened_ends {rx : Rx} {r : Except Exit Rx}
    (opened : Ends (Opened G rx) (Leaves G rx.tp.sender) r)
    (early : OnlySynFin rx.tiflags rx.ti.len → G.early) :
    Ends (fun rx' => Path G rx.tp.sender [] rx'.tp.sender) (Leaves G rx.tp.sender)
      (r >>= trimThenStep6 >>= step6) := by
  apply Ends.bind (P := Opened G rx)
  · apply opened.bind
    intro rx' opened
    apply (trimThenStep6_ends rx').mono
    · rintro rx'' ⟨sender, flag, fin⟩
      have state : rx''.tp.state = rx'.tp.state := congrArg Sender.state sender
      refine ⟨sender ▸ opened.path, state ▸ opened.rcvd,
        (congrArg Sender.segs sender).trans opened.segs, fun half => opened.half (state ▸ half),
        flag.trans opened.flag, opened.syn, ?_⟩
      intro len flag
      obtain ⟨len, flag⟩ := fin len flag
      exact opened.fin len flag
    · intro e leaves
      exact leaves.after opened.path
  · intro rx' opened
    have half : rx'.tp.state = .synReceived → rx'.tiflags.ack = false ∧ rx'.tp.segs = [] ∧
        (rx'.ti.len = 0 → rx'.tiflags.fin = true → G.early) := by
      intro state
      have flag := opened.half state
      refine ⟨opened.flag.trans flag, opened.segs, fun len fin => ?_⟩
      obtain ⟨len, fin⟩ := opened.fin len fin
      exact early ⟨opened.syn.1, fin, flag, opened.syn.2, len⟩
    apply (step6_ends rx' opened.rcvd half).mono
    · intro rx'' rest
      exact opened.path.append rest
    · intro e leaves
      exact leaves.after opened.path

theorem leave_leaves {s : Sender} {r : Except Exit Rx}
    (ends : Ends (fun rx => Path G s [] rx.tp.sender) (Leaves G s) r) : Leaves G s (leave r) := by
  unfold leave
  split
  · exact ends
  · split
    · exact ends
    · exact ends

structure Admitted (G : Guard) (env : InEnv) (tp : Tcb) (ti : Ti) : Prop where
  fresh : ¬ tp.state.haveRcvdSyn → tp.segs = []
  establish : tp.state = .synReceived → (beforeAck env (arrived env tp ti)).isOk = true →
    G.establish tp.sndUna ti.ack
  early : ¬ tp.state.haveRcvdSyn → OnlySynFin ti.flags ti.len → G.early

theorem general_leaves (env : InEnv) (tp : Tcb) (ti : Ti) (opened : tp.state ≠ .closed)
    (admitted : Admitted G env tp ti) : Leaves G tp.sender (general env tp ti) := by
  apply leave_leaves
  unfold stages
  split
  · rename_i state
    have before : ¬ tp.state.haveRcvdSyn := by
      rw [show tp.state = .listen from state]
      decide
    exact @opened_ends _ (arrived env tp ti) _
      (listen_ends env _ state (admitted.fresh before)) (admitted.early before)
  · split
    · rename_i state
      have before : ¬ tp.state.haveRcvdSyn := by
        rw [show tp.state = .synSent from state]
        decide
      exact @opened_ends _ (arrived env tp ti) _
        (synSent_ends _ state (admitted.fresh before)) (admitted.early before)
    · rename_i listening connecting
      have rcvd : tp.state.haveRcvdSyn := by
        cases state : tp.state with
        | closed => exact absurd state opened
        | listen => exact absurd state listening
        | synSent => exact absurd state connecting
        | _ => decide
      exact synchronized_ends env (arrived env tp ti) rcvd admitted.establish

theorem predictAck_leaves {tp : Tcb} {ti : Ti} (pure : PureAck tp ti) :
    Leaves G tp.sender (predictAck tp ti) := by
  obtain ⟨⟨state, -, -, -, -, nxt⟩, -, new, within, -⟩ := pure
  have before : tp.sender.state ≠ .synReceived := by
    rw [show tp.sender.state = .established from state]
    rintro ⟨⟩
  have other : tp.sender.state ≠ .lastAck := by
    rw [show tp.sender.state = .established from state]
    rintro ⟨⟩
  have rcvd : tp.sender.state.haveRcvdSyn := by
    rw [show tp.sender.state = .established from state]
    decide
  have acked := fun r => Moves.acked (G := G) (s := tp.sender) ti.ack tp.sender.nxt r
    tp.sender.window rcvd new
    within (absurd · before) (absurd · other) (.inr ⟨rfl, nxt⟩)
  rw [← ackRtt_sender tp ti.ack] at acked before ⊢
  unfold predictAck
  dsimp only
  generalize ackRtt tp ti.ack = tp' at *
  split
  · exact (by rintro ⟨⟩)
  · rename_i fits
    have none : decide ((ti.ack - tp'.sender.una).toNat > tp'.sender.cc) = false :=
      decide_eq_false fits
    have move := acked (decide (tp'.rxtcur ≠ 0))
    rw [Sender.settled_of_ne before, Sender.acked, none] at move
    have length : (tp'.soSnd.drop (ti.ack - tp'.sndUna).toNat).length =
        tp'.sender.cc - (ti.ack - tp'.sndUna).toNat := List.length_drop
    have sender : (ackRexmt { tp' with soSnd := tp'.soSnd.drop (ti.ack - tp'.sndUna).toNat,
                                       sndUna := ti.ack } ti.ack).sender =
        ((tp'.sender.ackRexmt ti.ack (decide (tp'.rxtcur ≠ 0))).dropAcked ti.ack tp'.sender.nxt
          tp'.sender.window).ended false := by
      rw [ackRexmt_sender]
      exact congrArg (fun cc => { tp'.sender.ackRexmt ti.ack (decide (tp'.rxtcur ≠ 0)) with
                                  una := ti.ack, cc := cc }) length
    rw [← sender] at move
    split
    · exact .one move
    · exact .one move

theorem received_sender (env : InEnv) (tp : Tcb) (ti : Ti) :
    (received env tp ti).sender = tp.sender := by
  unfold received
  dsimp only
  split
  · rfl
  · exact dooptions_sender env.route { tp with idle := 0, keep := TCPTV_KEEP_IDLE } ti

theorem input_leaves (env : InEnv) (tp : Tcb) (ti : Ti)
    (admitted : Admitted G env (received env tp ti) ti) :
    Leaves G tp.sender (tcpInput env tp ti) := by
  unfold tcpInput
  split
  · exact .nil _
  · rename_i opened
    have sender := received_sender env tp ti
    have state : (received env tp ti).state = tp.state := congrArg Sender.state sender
    dsimp only
    rw [← sender]
    split
    · rename_i pure
      exact predictAck_leaves pure
    · split
      · exact .nil _
      · exact general_leaves env _ ti (state ▸ opened) admitted

end Input
end FreeBsd.Netinet.Tcp
