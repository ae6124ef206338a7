import FreeBsd.Netinet.TcpInput

/-! Header prediction against the code below it, up to the call of `tcp_output`. -/
namespace FreeBsd.Netinet.Tcp

open FreeBsd.Lib (wrap16)

variable {env : InEnv} {tp : Tcb} {ti : Ti}

section Agree

/-- What holds of the numbers of a connection: they are in order, and the window is a `u_short`. -/
structure Usual (tp : Tcb) : Prop where
  una : SEQ_LEQ tp.sndUna tp.sndMax
  wl1 : SEQ_LEQ tp.sndWl1 tp.rcvNxt
  wl2 : SEQ_LEQ tp.sndWl2 tp.sndUna
  wnd : tp.sndWnd < 65536

structure Ti.Formed (ti : Ti) : Prop where
  data : ti.data.length = ti.len
  len : ti.len < 65536

def Exit.conn : Exit → Option Tcb
  | .done tp => some tp
  | .output tp => some tp
  | .retransmit tp _ => some tp
  | .dropped tp => some tp
  | .closed => none
  | .panic _ => none

def Tcb.observed (tp : Tcb) :=
  (tp.state, tp.rcvNxt, tp.sndUna, tp.sndNxt, tp.sndMax, tp.sndWnd, tp.soRcv, tp.soSnd, tp.delack,
    tp.rexmt)

def Agree (a b : Exit) : Prop :=
  ∃ tp tp', a.conn = some tp ∧ b.conn = some tp' ∧ tp.observed = tp'.observed

theorem leave_conn (rx : Rx) : (leave (.ok rx)).conn = some rx.tp := by
  rw [leave]
  split <;> rfl

end Agree

section Stages

theorem toInt_window {m n : Nat} (a : Seq) (small : m < 65536) (small' : n < 65536) :
    (a + BitVec.ofNat 32 m - (a + BitVec.ofNat 32 n)).toInt = (m : Int) - n := by
  have cancel : a + BitVec.ofNat 32 m - (a + BitVec.ofNat 32 n) =
      BitVec.ofNat 32 m - BitVec.ofNat 32 n := by
    bv_omega
  rw [cancel, BitVec.toInt_eq_toNat_bmod, BitVec.toNat_sub, BitVec.toNat_ofNat, BitVec.toNat_ofNat,
    Int.bmod_def]
  lia

theorem rcvWnd_lt : (receiveWindow env tp).rcvWnd < 65536 := Nat.mod_lt _ (by decide)

theorem trimLeft_predicted (predicted : Predicted tp ti) :
    trimLeft env (arrived env tp ti) = .ok (arrived env tp ti) := by
  obtain ⟨-, -, sequence, -⟩ := predicted
  have here : ((arrived env tp ti).tp.rcvNxt - (arrived env tp ti).ti.seq).toInt = 0 := by
    change (tp.rcvNxt - ti.seq).toInt = 0
    rw [sequence, BitVec.sub_self]
    rfl
  rw [trimLeft, if_neg (by omega)]

theorem afterClose_predicted (predicted : Predicted tp ti) :
    afterClose (arrived env tp ti) = .ok (arrived env tp ti) := by
  have state : (arrived env tp ti).tp.state = .established := predicted.1
  rw [afterClose, if_neg]
  rintro ⟨-, later, -⟩
  rw [state] at later
  exact absurd later (by decide)

theorem past_window (predicted : Predicted tp ti) (formed : ti.Formed) :
    ((arrived env tp ti).ti.seq + BitVec.ofNat 32 (arrived env tp ti).ti.len -
      ((arrived env tp ti).tp.rcvNxt + BitVec.ofNat 32 (arrived env tp ti).tp.rcvWnd)).toInt =
      (ti.len : Int) - (receiveWindow env tp).rcvWnd := by
  have sequence : ti.seq = tp.rcvNxt := predicted.2.2.1
  change (ti.seq + BitVec.ofNat 32 ti.len - (tp.rcvNxt + BitVec.ofNat 32
    (receiveWindow env tp).rcvWnd)).toInt = _
  rw [sequence]
  exact toInt_window _ formed.len rcvWnd_lt

theorem checkFlags_plain {rx : Rx} (rst : rx.tiflags.rst = false) (syn : rx.tiflags.syn = false)
    (ack : rx.tiflags.ack = true) : checkFlags rx = .ok rx := by
  simp [checkFlags, rst, syn, ack]

theorem ackSyn_established {rx : Rx} (state : rx.tp.state = .established) : ackSyn rx = .ok rx := by
  simp [ackSyn, state]

/-- The general path of a predicted segment, from the right edge of the window on. -/
theorem general_predicted (predicted : Predicted tp ti) :
    general env tp ti =
      leave (trimRight (arrived env tp ti) >>= checkFlags >>= ackSyn >>= ackProcess >>= step6) := by
  have state : (arrived env tp ti).tp.state = .established := predicted.1
  rw [general, stages, if_neg (by simp [state]), if_neg (by simp [state]), beforeAck,
    trimLeft_predicted predicted]
  change leave ((afterClose (arrived env tp ti) >>= trimRight >>= checkFlags >>= ackSyn) >>=
    ackProcess >>= step6) = _
  rw [afterClose_predicted predicted]
  rfl

theorem trimRight_inside (predicted : Predicted tp ti) (formed : ti.Formed)
    (fits : ti.len ≤ (receiveWindow env tp).rcvWnd) :
    trimRight (arrived env tp ti) = .ok (arrived env tp ti) := by
  rw [trimRight, past_window predicted formed, if_neg (by omega)]

theorem general_inside (predicted : Predicted tp ti) (formed : ti.Formed)
    (fits : ti.len ≤ (receiveWindow env tp).rcvWnd) :
    general env tp ti = leave (ackProcess (arrived env tp ti) >>= step6) := by
  have state : (arrived env tp ti).tp.state = .established := predicted.1
  obtain ⟨-, ⟨syn, -, rst, -, ack⟩, -⟩ := id predicted
  rw [general_predicted predicted, trimRight_inside predicted formed fits]
  change leave ((checkFlags (arrived env tp ti) >>= ackSyn) >>= ackProcess >>= step6) = _
  rw [checkFlags_plain rst syn ack]
  change leave (ackSyn (arrived env tp ti) >>= ackProcess >>= step6) = _
  rw [ackSyn_established state]
  rfl

theorem step6_plain {rx : Rx} (urg : rx.tiflags.urg = false) :
    ∃ up, step6 rx =
      .ok (finReceived
      (dodata { windowUpdate rx with tp := { (windowUpdate rx).tp with rcvUp := up } })) := by
  have flags : (windowUpdate rx).tiflags = rx.tiflags := by
    rw [windowUpdate]
    split <;> rfl
  rw [step6, urgent, if_neg (by simp [flags, urg])]
  by_cases later : SEQ_GT (windowUpdate rx).tp.rcvNxt (windowUpdate rx).tp.rcvUp
  · rw [if_pos later]
    exact ⟨_, rfl⟩
  · rw [if_neg later]
    exact ⟨_, rfl⟩

theorem windowUpdate_same (rx : Rx) : (windowUpdate rx).ti = rx.ti ∧
    (windowUpdate rx).tiflags = rx.tiflags ∧
    ∃ wl1 wl2 most, (windowUpdate rx).tp = { rx.tp with
      sndWnd := (windowUpdate rx).tp.sndWnd, sndWl1 := wl1, sndWl2 := wl2, maxSndwnd := most } := by
  rw [windowUpdate]
  split
  · exact ⟨rfl, rfl, _, _, _, rfl⟩
  · exact ⟨rfl, rfl, _, _, _, rfl⟩

theorem step6_empty {rx : Rx} (urg : rx.tiflags.urg = false) (fin : rx.tiflags.fin = false)
    (empty : rx.ti.len = 0) :
    ∃ up, (leave (step6 rx)).conn = some { (windowUpdate rx).tp with rcvUp := up } := by
  obtain ⟨up, stepped⟩ := step6_plain urg
  obtain ⟨segment, flags, -⟩ := windowUpdate_same rx
  refine ⟨up, ?_⟩
  rw [stepped, leave_conn, dodata, if_neg (by simp [segment, flags, fin, empty]), finReceived,
    if_neg (by simp)]

theorem step6_data {rx : Rx} (urg : rx.tiflags.urg = false) (fin : rx.ti.flags.fin = false)
    (state : rx.tp.state = .established) (sequence : rx.ti.seq = rx.tp.rcvNxt)
    (segs : rx.tp.segs = []) (data : rx.ti.len ≠ 0) : ∃ up, (leave (step6 rx)).conn =
      some { (windowUpdate rx).tp with
      rcvUp := up, delack := true, rcvNxt := rx.tp.rcvNxt + BitVec.ofNat 32 rx.ti.len,
      soRcv := rx.tp.soRcv ++ rx.ti.data } := by
  obtain ⟨up, stepped⟩ := step6_plain urg
  obtain ⟨segment, flags, wl1, wl2, most, update⟩ := windowUpdate_same rx
  refine ⟨up, ?_⟩
  have same : (windowUpdate rx).tp.state = .established ∧
      (windowUpdate rx).tp.rcvNxt = rx.tp.rcvNxt ∧
      (windowUpdate rx).tp.segs = [] ∧ (windowUpdate rx).tp.soRcv = rx.tp.soRcv := by
    rw [update]
    exact ⟨state, rfl, segs, rfl⟩
  obtain ⟨state', next, queue, received⟩ := same
  rw [stepped, leave_conn, dodata, if_pos]
  · have taken : (windowUpdate rx).ti.segment.seq = (windowUpdate rx).tp.rcvNxt ∧
        (windowUpdate rx).tp.segs = [] ∧
        (windowUpdate rx).tp.state = .established := by
      rw [segment, next]
      exact ⟨sequence, queue, state'⟩
    simp only [TCP_REASS, if_pos taken, finReceived]
    rw [if_neg (by rw [segment]; simp [Ti.segment, fin])]
    simp only [segment, next, received, Ti.segment]
  · refine ⟨.inl (by rw [segment]; exact data), ?_⟩
    change ¬ (windowUpdate rx).tp.state.haveRcvdFin
    rw [state']
    decide

end Stages

section Ack

theorem eq_of_toInt_sub {a b : Seq} (zero : (a - b).toInt = 0) : a = b := by
  have : a - b = 0 := BitVec.eq_of_toInt_eq (by rw [zero]; rfl)
  bv_omega

theorem windowUpdate_wnd {rx : Rx} (ack : rx.tiflags.ack = true)
    (wl1 : SEQ_LEQ rx.tp.sndWl1 rx.ti.seq) (apart : rx.tp.sndWl2 ≠ rx.ti.ack) :
      (windowUpdate rx).tp.sndWnd =
      if rx.tp.sndWl1 ≠ rx.ti.seq ∨ SEQ_LT rx.tp.sndWl2 rx.ti.ack then rx.ti.win
      else rx.tp.sndWnd := by
  have order : rx.tp.sndWl1 ≠ rx.ti.seq → SEQ_LT rx.tp.sndWl1 rx.ti.seq := by
    intro other
    rcases Int.lt_or_eq_of_le wl1 with less | same
    · exact less
    · exact absurd (eq_of_toInt_sub same) other
  rw [windowUpdate]
  by_cases updated : rx.tp.sndWl1 ≠ rx.ti.seq ∨ SEQ_LT rx.tp.sndWl2 rx.ti.ack
  · rw [if_pos updated, if_pos]
    refine ⟨ack, ?_⟩
    by_cases other : rx.tp.sndWl1 = rx.ti.seq
    · rcases updated with early | later
      · exact absurd other early
      · exact .inr ⟨other, .inl later⟩
    · exact .inl (order other)
  · rw [if_neg updated, if_neg]
    rintro ⟨-, early | ⟨-, later | ⟨same, -⟩⟩⟩
    · refine updated (.inl fun same => ?_)
      rw [same, SEQ_LT, BitVec.sub_self] at early
      exact absurd early (by decide)
    · exact updated (.inr later)
    · exact apart same

theorem not_past_max {una ack max : Seq} (order : SEQ_LEQ una max) (new : SEQ_GT ack una)
    (sent : SEQ_LEQ ack max) :
    ¬ SEQ_LT max ack := by
  have := una.isLt
  have := ack.isLt
  have := max.isLt
  simp only [SEQ_LEQ, SEQ_GT, SEQ_LT, BitVec.toInt_eq_toNat_bmod, BitVec.toNat_sub,
    Int.bmod_def] at *
  lia

section Frame

variable (tp : Tcb) (ack : Seq) (cwnd wnd : Nat) (dups : Int)

theorem tcpXmitTimer_frame :
    tcpXmitTimer { tp with sndCwnd := cwnd, rcvWnd := wnd, dupacks := dups } =
    { tcpXmitTimer tp with sndCwnd := cwnd, rcvWnd := wnd, dupacks := dups } := by
  by_cases srtt : tp.srtt ≠ 0
  · rw [tcpXmitTimer, tcpXmitTimer, if_pos srtt, if_pos srtt]
    rfl
  · rw [tcpXmitTimer, tcpXmitTimer, if_neg srtt, if_neg srtt]
    rfl

theorem ackRtt_frame : ackRtt { tp with sndCwnd := cwnd, rcvWnd := wnd, dupacks := dups } ack =
    { ackRtt tp ack with sndCwnd := cwnd, rcvWnd := wnd, dupacks := dups } := by
  by_cases timed : tp.rtt ≠ 0 ∧ SEQ_GT ack tp.rtseq
  · rw [ackRtt, ackRtt, if_pos timed, if_pos timed, tcpXmitTimer_frame]
  · rw [ackRtt, ackRtt, if_neg timed, if_neg timed]

theorem ackRexmt_frame : ackRexmt { tp with sndCwnd := cwnd, rcvWnd := wnd, dupacks := dups } ack =
    { ackRexmt tp ack with sndCwnd := cwnd, rcvWnd := wnd, dupacks := dups } := by
  by_cases all : ack = tp.sndMax
  · rw [ackRexmt, ackRexmt, if_pos all, if_pos all]
  · by_cases idle : tp.persist = 0
    · rw [ackRexmt, ackRexmt, if_neg all, if_neg all, if_pos idle, if_pos idle]
    · rw [ackRexmt, ackRexmt, if_neg all, if_neg all, if_neg idle, if_neg idle]

theorem ackTimers_frame :
    ackTimers { tp with sndCwnd := cwnd, rcvWnd := wnd, dupacks := dups } ack =
    { ackTimers tp ack with sndCwnd := cwnd, rcvWnd := wnd, dupacks := dups } := by
  rw [ackTimers, ackRtt_frame, ackRexmt_frame, ackTimers]

theorem tcpXmitTimer_same : ∃ srtt var, tcpXmitTimer tp = { tp with
    rtt := 0, rxtshift := 0, rxtcur := (tcpXmitTimer tp).rxtcur, srtt := srtt, rttvar :=
  var, softerror := none } := by
  by_cases srtt : tp.srtt ≠ 0
  · rw [tcpXmitTimer, if_pos srtt]
    exact ⟨_, _, rfl⟩
  · rw [tcpXmitTimer, if_neg srtt]
    exact ⟨_, _, rfl⟩

theorem ackRtt_same : ∃ rtt shift cur srtt var err, ackRtt tp ack =
    { tp with rtt := rtt, rxtshift := shift, rxtcur := cur, srtt := srtt, rttvar := var,
              softerror := err } := by
  rw [ackRtt]
  split
  · obtain ⟨srtt, var, timed⟩ := tcpXmitTimer_same tp
    exact ⟨_, _, _, _, _, _, timed⟩
  · exact ⟨_, _, _, _, _, _, rfl⟩

end Frame

theorem ackTimers_same (tp : Tcb) (ack : Seq) :
    ∃ rexmt rtt shift cur srtt var err, ackTimers tp ack =
    { tp with rexmt := rexmt, rtt := rtt, rxtshift := shift, rxtcur := cur, srtt := srtt,
              rttvar := var, softerror := err } := by
  obtain ⟨rtt, shift, cur, srtt, var, err, timed⟩ := ackRtt_same tp ack
  simp only [ackTimers, timed, ackRexmt]
  split_ifs <;> exact ⟨_, _, _, _, _, _, _, rfl⟩

theorem ackProcess_new {rx : Rx} (state : rx.tp.state = .established)
    (new : SEQ_GT rx.ti.ack rx.tp.sndUna) (sent : SEQ_LEQ rx.ti.ack rx.tp.sndMax) :
      ∃ cwnd need, ackProcess rx = .ok { rx with
      tp := (dropAcked { ackTimers rx.tp rx.ti.ack with sndCwnd := cwnd,
                                                        dupacks := 0 } rx.ti.ack).1,
      needoutput := need } := by
  obtain ⟨rexmt, rtt, shift, cur, srtt, var, err, timers⟩ := ackTimers_same rx.tp rx.ti.ack
  have frame := ackTimers_frame rx.tp rx.ti.ack (deflate rx.tp).sndCwnd rx.tp.rcvWnd 0
  have deflated : deflate rx.tp =
      { rx.tp with sndCwnd := (deflate rx.tp).sndCwnd, rcvWnd := rx.tp.rcvWnd, dupacks := 0 } := rfl
  rw [← deflated] at frame
  rw [ackProcess, if_neg (by rw [SEQ_LEQ]; rw [SEQ_GT] at new; omega), newAck, frame, timers]
  rw [if_neg (by change ¬ SEQ_GT rx.ti.ack rx.tp.sndMax; rw [SEQ_GT]; rw [SEQ_LEQ] at sent; omega)]
  simp only [ackState, dropAcked, openCwnd, state]
  exact ⟨_, _, rfl⟩

theorem general_pureAck (usual : Usual tp) (formed : ti.Formed) (pure : PureAck tp ti) :
    ∃ tp', (general env tp ti).conn = some tp' ∧
      tp'.observed = (.established, tp.rcvNxt, ti.ack, tp.sndNxt, tp.sndMax, tp'.sndWnd, tp.soRcv,
        tp.soSnd.drop (min (ti.ack - tp.sndUna).toNat tp.soSnd.length), tp.delack,
          (ackTimers tp ti.ack).rexmt) ∧
      tp'.sndWnd = if tp.sndWl1 ≠ tp.rcvNxt ∨ SEQ_LT tp.sndWl2 ti.ack then tp.sndWnd
        else ushort
          (tp.sndWnd + 65536 - ushort (min (ti.ack - tp.sndUna).toNat tp.soSnd.length)) := by
  obtain ⟨predicted, empty, new, sent, -⟩ := pure
  obtain ⟨state, ⟨syn, fin, rst, urg, ack⟩, sequence, -, window, unsent⟩ := id predicted
  obtain ⟨cwnd, need, acked⟩ := @ackProcess_new (arrived env tp ti) state new sent
  rw [general_inside predicted formed (by omega), acked]
  have timers := ackTimers_frame tp ti.ack tp.sndCwnd (receiveWindow env tp).rcvWnd tp.dupacks
  change ackTimers (receiveWindow env tp) ti.ack = _ at timers
  obtain ⟨rexmt, rtt, shift, cur, srtt, var, err, same⟩ := ackTimers_same tp ti.ack
  obtain ⟨rx, step⟩ : ∃ rx : Rx, rx = { arrived env tp ti with
      tp := (dropAcked { ackTimers (receiveWindow env tp) ti.ack with sndCwnd := cwnd,
                                                                      dupacks := 0 } ti.ack).1,
      needoutput := need } := ⟨_, rfl⟩
  have apart : tp.sndWl2 ≠ ti.ack := by
    rintro same
    have old := usual.wl2
    rw [same, SEQ_LEQ] at old
    rw [SEQ_GT] at new
    omega
  change ∃ tp', (leave (step6 { arrived env tp ti with
      tp := (dropAcked { ackTimers (receiveWindow env tp) ti.ack with sndCwnd := cwnd,
                                                                      dupacks := 0 } ti.ack).1,
      needoutput := need })).conn = some tp' ∧ _
  rw [← step]
  rw [timers, same] at step
  obtain ⟨up, left⟩ := @step6_empty rx (by rw [step]; exact urg) (by rw [step]; exact fin)
    (by rw [step]; exact empty)
  have wnd :=
    @windowUpdate_wnd rx (by rw [step]; exact ack) (by rw [step]; exact sequence ▸ usual.wl1)
      (by rw [step]; exact apart)
  obtain ⟨-, -, wl1, wl2, most, update⟩ := windowUpdate_same rx
  refine ⟨_, left, ?_, ?_⟩
  · rw [update, step, same]
    simp only [Tcb.observed, dropAcked, state]
    rw [if_neg (unsent ▸ not_past_max usual.una new sent)]
  · change (windowUpdate rx).tp.sndWnd = _
    rw [wnd, step, ← sequence]
    change (if tp.sndWl1 ≠ ti.seq ∨ SEQ_LT tp.sndWl2 ti.ack then ti.win else _) = _
    rw [window]
    rfl

end Ack

section Data

theorem windowUpdate_kept {rx : Rx} (window : rx.ti.win = rx.tp.sndWnd) :
    (windowUpdate rx).tp.sndWnd = rx.tp.sndWnd := by
  rw [windowUpdate]
  split
  · exact window
  · rfl

theorem dupAck_cases (rx : Rx) :
    (∃ tp', (leave (dupAck rx >>= step6)).conn = some tp' ∧ rx.ti.len = 0 ∧
      tp'.rcvNxt = rx.tp.rcvNxt) ∨
        ∃ dups, dupAck rx = .ok { rx with tp := { rx.tp with dupacks := dups } } := by
  rw [dupAck]
  by_cases empty : rx.ti.len = 0 ∧ rx.ti.win = rx.tp.sndWnd
  · simp only [if_pos empty]
    split_ifs
    · exact .inr ⟨_, rfl⟩
    · exact .inl ⟨_, rfl, empty.1, rfl⟩
    · exact .inl ⟨_, rfl, empty.1, rfl⟩
    · exact .inr ⟨_, rfl⟩
  · rw [if_neg empty]
    exact .inr ⟨_, rfl⟩

/-- A segment in sequence that acks nothing new: the receiver moves by the length that is left of
it. -/
theorem ackProcess_data {rx : Rx} (state : rx.tp.state = .established)
    (urg : rx.tiflags.urg = false) (fin : rx.tiflags.fin = false) (stored : rx.ti.flags.fin = false)
    (sequence : rx.ti.seq = rx.tp.rcvNxt) (segs : rx.tp.segs = []) (old : rx.ti.ack = rx.tp.sndUna)
    (window : rx.ti.win = rx.tp.sndWnd) :
    ∃ tp', (leave (ackProcess rx >>= step6)).conn = some tp' ∧
      tp'.rcvNxt = rx.tp.rcvNxt + BitVec.ofNat 32 rx.ti.len ∧
      (rx.ti.len ≠ 0 → tp'.observed = (.established, rx.tp.rcvNxt + BitVec.ofNat 32 rx.ti.len,
        rx.tp.sndUna, rx.tp.sndNxt, rx.tp.sndMax, rx.tp.sndWnd, rx.tp.soRcv ++ rx.ti.data,
          rx.tp.soSnd, true, rx.tp.rexmt)) := by
  have same : SEQ_LEQ rx.ti.ack rx.tp.sndUna := by
    rw [old, SEQ_LEQ, BitVec.sub_self]
    decide
  rw [ackProcess, if_pos same]
  rcases dupAck_cases rx with ⟨tp', left, empty, next⟩ | ⟨dups, acked⟩
  · refine ⟨tp', left, ?_, fun data => absurd empty data⟩
    rw [next, empty]
    exact (BitVec.add_zero _).symm
  · rw [acked]
    obtain ⟨ry, step⟩ : ∃ ry : Rx, ry = { rx with tp := { rx.tp with dupacks := dups } } := ⟨_, rfl⟩
    change ∃ tp', (leave (step6 { rx with tp := { rx.tp with dupacks := dups } })).conn = some tp' ∧
      _
    rw [← step]
    obtain ⟨-, -, wl1, wl2, most, update⟩ := windowUpdate_same ry
    have kept := @windowUpdate_kept ry (by rw [step]; exact window)
    by_cases data : rx.ti.len = 0
    · obtain ⟨up, left⟩ := @step6_empty ry (by rw [step]; exact urg) (by rw [step]; exact fin)
        (by rw [step]; exact data)
      refine ⟨_, left, ?_, fun some_data => absurd data some_data⟩
      rw [update, step, data]
      exact (BitVec.add_zero _).symm
    · obtain ⟨up, left⟩ := @step6_data ry (by rw [step]; exact urg) (by rw [step]; exact stored)
        (by rw [step]; exact state) (by rw [step]; exact sequence) (by rw [step]; exact segs)
          (by rw [step]; exact data)
      refine ⟨_, left, by rw [step], fun _ => ?_⟩
      simp only [Tcb.observed]
      rw [kept, update, step]
      simp only [state]

theorem trimRight_outside (predicted : Predicted tp ti) (formed : ti.Formed)
    (past : (receiveWindow env tp).rcvWnd < ti.len) : ∃ now flags, flags.rst = ti.flags.rst ∧
      flags.syn = ti.flags.syn ∧ flags.ack = ti.flags.ack ∧ flags.urg = ti.flags.urg ∧
        flags.fin = false ∧
      trimRight (arrived env tp ti) = .ok
        { arrived env tp ti with
          tp := { receiveWindow env tp with acknow := now },
          ti := { ti with data := ti.data.take (receiveWindow env tp).rcvWnd,
                          len := (receiveWindow env tp).rcvWnd },
          tiflags := flags } := by
  obtain ⟨-, ⟨syn, -⟩, sequence, -⟩ := id predicted
  have drop := @past_window env _ _ predicted formed
  have cut : ti.data.length - ((ti.len : Int) - (receiveWindow env tp).rcvWnd).toNat =
      (receiveWindow env tp).rcvWnd ∧
      ti.len - ((ti.len : Int) - (receiveWindow env tp).rcvWnd).toNat =
        (receiveWindow env tp).rcvWnd := by
    have := formed.data
    lia
  rw [trimRight, drop, if_pos (by lia)]
  have data : (arrived env tp ti).ti = ti := rfl
  simp only [data, cut.1, cut.2]
  by_cases whole : (ti.len : Int) - (receiveWindow env tp).rcvWnd ≥ ti.len
  · have closed : (receiveWindow env tp).rcvWnd = 0 := by lia
    have edge : (arrived env tp ti).tp.rcvWnd = 0 ∧ ti.seq = (arrived env tp ti).tp.rcvNxt :=
      ⟨closed, sequence⟩
    rw [if_pos whole, if_neg (by simp [arrived, syn]), if_pos edge]
    exact ⟨true, { ti.flags with push := false, fin := false }, rfl, rfl, rfl, rfl, rfl, rfl⟩
  · rw [if_neg whole]
    exact ⟨_, { ti.flags with push := false, fin := false }, rfl, rfl, rfl, rfl, rfl, rfl⟩

/-- The general path of a pure data packet: the receiver takes what is in the window. -/
theorem general_pureData (formed : ti.Formed) (pure : PureData env.mbroom tp ti) :
    ∃ tp', (general env tp ti).conn = some tp' ∧
      tp'.rcvNxt = tp.rcvNxt + BitVec.ofNat 32 (min ti.len (receiveWindow env tp).rcvWnd) ∧
      (ti.len ≤ (receiveWindow env tp).rcvWnd → tp'.observed = (.established,
        tp.rcvNxt + BitVec.ofNat 32 ti.len, tp.sndUna, tp.sndNxt, tp.sndMax, tp.sndWnd,
          tp.soRcv ++ ti.data, tp.soSnd, true, tp.rexmt)) := by
  obtain ⟨predicted, some_data, old, queue, -⟩ := pure
  obtain ⟨state, ⟨syn, fin, rst, urg, ack⟩, sequence, -, window, -⟩ := id predicted
  by_cases fits : ti.len ≤ (receiveWindow env tp).rcvWnd
  · rw [general_inside predicted formed fits, Nat.min_eq_left fits]
    obtain ⟨tp', left, next, seen⟩ :=
      @ackProcess_data (arrived env tp ti) state urg fin fin sequence queue old window
    exact ⟨tp', left, next, fun _ => seen some_data⟩
  · obtain ⟨now, flags, rst', syn', ack', urg', fin', trimmed⟩ :=
      @trimRight_outside env _ _ predicted formed (by omega)
    rw [general_predicted predicted, trimmed, Nat.min_eq_right (by omega)]
    obtain ⟨rx, cut⟩ : ∃ rx : Rx, rx = { arrived env tp ti with
        tp := { receiveWindow env tp with acknow := now },
        ti := { ti with data := ti.data.take (receiveWindow env tp).rcvWnd,
                        len := (receiveWindow env tp).rcvWnd },
        tiflags := flags } := ⟨_, rfl⟩
    rw [← cut]
    change ∃ tp', (leave ((checkFlags rx >>= ackSyn) >>= ackProcess >>= step6)).conn = some tp' ∧ _
    rw [checkFlags_plain (by rw [cut]; exact rst'.trans rst) (by rw [cut]; exact syn'.trans syn)
      (by rw [cut]; exact ack'.trans ack)]
    change ∃ tp', (leave (ackSyn rx >>= ackProcess >>= step6)).conn = some tp' ∧ _
    rw [ackSyn_established (by rw [cut]; exact state)]
    obtain ⟨tp', left, next, -⟩ := @ackProcess_data rx (by rw [cut]; exact state)
      (by rw [cut]; exact urg'.trans urg) (by rw [cut]; exact fin') (by rw [cut]; exact fin)
        (by rw [cut]; exact sequence)
      (by rw [cut]; exact queue) (by rw [cut]; exact old) (by rw [cut]; exact window)
    rw [cut] at next
    exact ⟨tp', left, next, fun inside => absurd inside fits⟩

end Data

section Prediction

theorem predictAck_conn (acked : (ti.ack - tp.sndUna).toNat ≤ tp.soSnd.length) :
    ∃ tp', (predictAck tp ti).conn = some tp' ∧
      tp'.observed = (tp.state, tp.rcvNxt, ti.ack, tp.sndNxt, tp.sndMax, tp.sndWnd, tp.soRcv,
        tp.soSnd.drop (ti.ack - tp.sndUna).toNat, tp.delack, (ackTimers tp ti.ack).rexmt) := by
  obtain ⟨rtt, shift, cur, srtt, var, err, timed⟩ := ackRtt_same tp ti.ack
  have either (tp : Tcb) : (if tp.soSnd ≠ [] then Exit.output tp else .done tp).conn = some tp := by
    split <;> rfl
  simp only [predictAck, ackTimers, timed]
  rw [if_neg (by omega), either]
  refine ⟨_, rfl, ?_⟩
  simp only [ackRexmt, Tcb.observed]
  split_ifs <;> rfl

/-- When header prediction takes a pure ack as the code below does: the acked bytes are there to be
dropped, and the window it announces is taken (or the number of bytes acked fills the window field).
-/
def AckTaken (tp : Tcb) (ti : Ti) : Prop :=
  (ti.ack - tp.sndUna).toNat ≤ tp.soSnd.length ∧
    (tp.sndWl1 ≠ tp.rcvNxt ∨ SEQ_LT tp.sndWl2 ti.ack ∨ (ti.ack - tp.sndUna).toNat % 65536 = 0)

theorem ushort_back {wnd n : Nat} (small : wnd < 65536) : ushort (wnd + 65536 - ushort n) = wnd ↔
    n % 65536 = 0 := by
  simp only [ushort]
  lia

theorem predictAck_agrees (usual : Usual tp) (formed : ti.Formed) (pure : PureAck tp ti) :
    Agree (predictAck tp ti) (general env tp ti) ↔ AckTaken tp ti := by
  obtain ⟨tp', left, seen, wnd⟩ := @general_pureAck env _ _ usual formed pure
  have state : tp.state = .established := pure.1.1
  by_cases there : (ti.ack - tp.sndUna).toNat ≤ tp.soSnd.length
  · obtain ⟨tp₁, fast, seen₁⟩ := predictAck_conn there
    rw [Nat.min_eq_left there] at seen wnd
    have window : tp'.sndWnd = tp.sndWnd ↔ AckTaken tp ti := by
      rw [wnd, AckTaken]
      by_cases updated : tp.sndWl1 ≠ tp.rcvNxt ∨ SEQ_LT tp.sndWl2 ti.ack
      · rw [if_pos updated]
        refine ⟨fun _ => ⟨there, ?_⟩, fun _ => rfl⟩
        rcases updated with other | later
        · exact .inl other
        · exact .inr (.inl later)
      · rw [if_neg updated, ushort_back usual.wnd]
        constructor
        · exact fun full => ⟨there, .inr (.inr full)⟩
        · rintro ⟨-, other | later | full⟩
          · exact absurd (.inl other) updated
          · exact absurd (.inr later) updated
          · exact full
    rw [← window]
    constructor
    · rintro ⟨a, b, first, second, same⟩
      rw [fast] at first
      rw [left] at second
      obtain rfl := Option.some.inj first
      obtain rfl := Option.some.inj second
      rw [seen, seen₁] at same
      exact (congrArg (fun o => o.2.2.2.2.2.1) same).symm
    · intro same
      refine ⟨tp₁, tp', fast, left, ?_⟩
      rw [seen, seen₁, same, state]
  · constructor
    · rintro ⟨a, b, first, -⟩
      obtain ⟨rtt, shift, cur, srtt, var, err, timed⟩ := ackRtt_same tp ti.ack
      simp only [predictAck, timed] at first
      rw [if_pos (by omega)] at first
      cases first
    · exact fun taken => absurd taken.1 there

theorem predictData_agrees (formed : ti.Formed) (pure : PureData env.mbroom tp ti) :
    Agree (predictData tp ti) (general env tp ti) ↔ ti.len ≤ (receiveWindow env tp).rcvWnd := by
  obtain ⟨tp', left, next, seen⟩ := general_pureData formed pure
  constructor
  · rintro ⟨a, b, first, second, same⟩
    obtain rfl := Option.some.inj first
    rw [left] at second
    obtain rfl := Option.some.inj second
    have moved : tp.rcvNxt + BitVec.ofNat 32 ti.len = tp'.rcvNxt := congrArg (fun o => o.2.1) same
    rw [next] at moved
    have small := formed.len
    obtain ⟨taken, part⟩ : ∃ n, min ti.len (receiveWindow env tp).rcvWnd = n := ⟨_, rfl⟩
    rw [part] at moved
    have length : ti.len = taken := by bv_omega
    lia
  · intro fits
    refine ⟨_, tp', rfl, left, ?_⟩
    rw [seen fits]
    have state : tp.state = .established := pure.1.1
    simp only [Tcb.observed, state]

/-- Header prediction and the code below it leave the same connection just if they take the same
window, on the one side for the ack, on the other for the data. -/
theorem header_prediction_agrees (env : InEnv) (tp : Tcb) (ti : Ti) (usual : Usual tp)
    (formed : ti.Formed) :
    (PureAck tp ti → (Agree (predictAck tp ti) (general env tp ti) ↔ AckTaken tp ti)) ∧
      (PureData env.mbroom tp ti →
        (Agree (predictData tp ti) (general env tp ti) ↔ ti.len ≤ (receiveWindow env tp).rcvWnd)) :=
  ⟨predictAck_agrees usual formed, predictData_agrees formed⟩

/-- A sender that has two bytes in flight; the last window it took came with the ack `wl2`. -/
def twoInFlight (wl2 : Seq) : Tcb :=
  { tcpNewtcpcb 4096 4096 with
    state := .established, sndUna := 0x80000000, sndNxt := 0x80000002, sndMax :=
      0x80000002, sndWl1 := 100,
    sndWl2 := wl2, sndWnd := 4096, rcvNxt := 100, rcvAdv := 4196, soSnd := [1, 2] }

def pureAck : Ti :=
  { seq := 100, ack := 0x80000002, win := 4096, urp := 0,
    flags := ⟨false, false, false, false, true, false⟩, len := 0, data := [], mss := none }

def plainEnv : InEnv := ⟨4096, false, none, false, true, true, 0⟩

theorem header_prediction_agrees_sender :
    Usual (twoInFlight 0x80000000) ∧ PureAck (twoInFlight 0x80000000) pureAck ∧
      Agree (predictAck (twoInFlight 0x80000000) pureAck)
        (general plainEnv (twoInFlight 0x80000000) pureAck) := by
  have usual : Usual (twoInFlight 0x80000000) := ⟨by decide, by decide, by decide, by decide⟩
  have pure : PureAck (twoInFlight 0x80000000) pureAck := by decide
  refine ⟨usual, pure, ?_⟩
  exact ((header_prediction_agrees plainEnv _ _ usual ⟨by decide, by decide⟩).1 pure).mpr
    ⟨by decide, .inr (.inl (by decide))⟩

/-- Header prediction does not move `snd_wl2`: once it is 2 ^ 31 behind, the code below does not
take the window of an ack that header prediction takes. -/
theorem header_prediction_differs :
    Usual (twoInFlight 1) ∧ pureAck.Formed ∧ PureAck (twoInFlight 1) pureAck ∧
      ¬ Agree (predictAck (twoInFlight 1) pureAck) (general plainEnv (twoInFlight 1) pureAck) := by
  have usual : Usual (twoInFlight 1) := ⟨by decide, by decide, by decide, by decide⟩
  have formed : pureAck.Formed := ⟨by decide, by decide⟩
  have pure : PureAck (twoInFlight 1) pureAck := by decide
  refine ⟨usual, formed, pure, fun same => ?_⟩
  obtain ⟨-, other | later | full⟩ := (predictAck_agrees usual formed pure).mp same
  · exact absurd other (by decide)
  · exact absurd later (by decide)
  · exact absurd full (by decide)

end Prediction

end FreeBsd.Netinet.Tcp
