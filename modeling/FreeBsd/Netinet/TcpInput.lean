import FreeBsd.Netinet.TcpOutput
import FreeBsd.Netinet.TcpReass

/-! `tcp_input`, for a segment that belongs to the connection, in stages. A stage either goes
on with the segment or leaves for one of the ends of the function; `tcp_output` is called
from these only. -/
namespace FreeBsd.Netinet.Tcp

open FreeBsd.Lib (wrap16)

/-- A received segment, in host byte order; `mss` is its `TCPOPT_MAXSEG`. -/
structure Ti where
  seq : Seq
  ack : Seq
  win : Nat
  urp : Nat
  flags : Flags
  len : Nat
  data : List Byte
  mss : Option Nat
  deriving DecidableEq, Repr

/-- What surrounds a call of `tcp_input`: the room for mbufs in the receive buffer, whether
`TCP_COMPAT_42` is configured, and for a new connection its route, whether it can be set up,
whether there is memory for its template, and the sequence number it starts with. -/
structure InEnv where
  mbroom : Int
  compat42 : Bool
  route : Option Route
  bcast : Bool
  connect : Bool
  template : Bool
  iss : Seq

/-- The connection, the segment and the local variables of `tcp_input`. -/
structure Rx where
  tp : Tcb
  ti : Ti
  tiflags : Flags
  needoutput : Bool

/-- How a segment leaves `tcp_input`: the connection is left as it is, is gone, calls
`tcp_output`, does so for a fast retransmit from `onxt`, or is dropped by `tcp_drop`. -/
inductive Exit where
  | done (tp : Tcb)
  | closed
  | output (tp : Tcb)
  | retransmit (tp : Tcb) (onxt : Seq)
  | dropped (tp : Tcb)
  | panic (fault : Fault)

def tcpDooptions (rt : Option Route) (tp : Tcb) (ti : Ti) : Tcb :=
  match ti.mss with
  | none => tp
  | some mss => if ti.flags.syn then (tcpMss rt tp mss).1 else tp

def dropafterack (rx : Rx) : Except Exit Rx :=
  if rx.tiflags.rst then .error (.done rx.tp) else .error (.output { rx.tp with acknow := true })

section Predict

def Predicted (tp : Tcb) (ti : Ti) : Prop :=
  tp.state = .established ∧
    (ti.flags.syn = false ∧ ti.flags.fin = false ∧ ti.flags.rst = false ∧ ti.flags.urg = false ∧
      ti.flags.ack = true) ∧
    ti.seq = tp.rcvNxt ∧ ti.win ≠ 0 ∧ ti.win = tp.sndWnd ∧ tp.sndNxt = tp.sndMax

def PureAck (tp : Tcb) (ti : Ti) : Prop :=
  Predicted tp ti ∧ ti.len = 0 ∧ SEQ_GT ti.ack tp.sndUna ∧ SEQ_LEQ ti.ack tp.sndMax ∧
    tp.sndCwnd ≥ tp.sndWnd

/-- A pure, in-sequence data packet with nothing on the reassembly queue. -/
def PureData (mbroom : Int) (tp : Tcb) (ti : Ti) : Prop :=
  Predicted tp ti ∧ ti.len ≠ 0 ∧ ti.ack = tp.sndUna ∧ tp.segs = [] ∧ ti.len ≤ tp.sbspace mbroom

instance (tp : Tcb) (ti : Ti) : Decidable (Predicted tp ti) := inferInstanceAs (Decidable (_ ∧ _))
instance (tp : Tcb) (ti : Ti) : Decidable (PureAck tp ti) := inferInstanceAs (Decidable (_ ∧ _))
instance (mbroom : Int) (tp : Tcb) (ti : Ti) : Decidable (PureData mbroom tp ti) :=
  inferInstanceAs (Decidable (_ ∧ _))

def ackRtt (tp : Tcb) (ack : Seq) : Tcb :=
  if tp.rtt ≠ 0 ∧ SEQ_GT ack tp.rtseq then tcpXmitTimer tp else tp

/-- If all outstanding data is acked, stop the retransmit timer, otherwise restart it, unless
in persist state. -/
def ackRexmt (tp : Tcb) (ack : Seq) : Tcb :=
  if ack = tp.sndMax then { tp with rexmt := 0 }
  else if tp.persist = 0 then { tp with rexmt := tp.rxtcur } else tp

def predictAck (tp : Tcb) (ti : Ti) : Exit :=
  let tp := ackRtt tp ti.ack
  let acked := (ti.ack - tp.sndUna).toNat
  if acked > tp.soSnd.length then .panic .sbdrop
  else
    let tp := ackRexmt { tp with soSnd := tp.soSnd.drop acked, sndUna := ti.ack } ti.ack
    if tp.soSnd ≠ [] then .output tp else .done tp

def predictData (tp : Tcb) (ti : Ti) : Exit :=
  .done { tp with rcvNxt := tp.rcvNxt + BitVec.ofNat 32 ti.len, soRcv := tp.soRcv ++ ti.data,
                  delack := true }

end Predict

section Handshake

def listen (env : InEnv) (rx : Rx) : Except Exit Rx :=
  -- a segment that is dropped here takes the new socket with it
  if rx.tiflags.rst ∨ rx.tiflags.ack ∨ rx.tiflags.syn = false ∨ env.bcast ∨ env.connect = false ∨
      env.template = false then .error .closed
  else
    let tp := tcpDooptions env.route { rx.tp with template := true } rx.ti
    let tp := tcpRcvseqinit (tcpSendseqinit { tp with iss := env.iss, irs := rx.ti.seq })
    .ok { rx with tp := { tp with acknow := true, state := .synReceived, keep := TCPTV_KEEP_INIT } }

def synAcked (ack : Seq) (tp : Tcb) : Tcb :=
  { tp with sndUna := ack, sndNxt := if SEQ_LT tp.sndNxt ack then ack else tp.sndNxt }

def takeSyn (irs : Seq) (tp : Tcb) : Tcb :=
  { tcpRcvseqinit { tp with rexmt := 0, irs := irs } with acknow := true }

def nowEstablished (tp : Tcb) : Tcb :=
  let tp := (tcpReass { tp with state := .established } none).1
  if tp.rtt ≠ 0 then tcpXmitTimer tp else tp

def synSent (rx : Rx) : Except Exit Rx :=
  let tp := rx.tp
  let ti := rx.ti
  if rx.tiflags.ack ∧ (SEQ_LEQ ti.ack tp.iss ∨ SEQ_GT ti.ack tp.sndMax) then .error (.done tp)
  else if rx.tiflags.rst then
    if rx.tiflags.ack then .error .closed else .error (.done tp)
  else if rx.tiflags.syn = false then .error (.done tp)
  else
    let tp := takeSyn ti.seq (if rx.tiflags.ack then synAcked ti.ack tp else tp)
    .ok { rx with tp := if rx.tiflags.ack ∧ SEQ_GT tp.sndUna tp.iss then nowEstablished tp
                    else { tp with state := .synReceived } }

def trimThenStep6 (rx : Rx) : Except Exit Rx :=
  let ti := { rx.ti with seq := rx.ti.seq + 1 }
  let past : Bool := ti.len > rx.tp.rcvWnd
  let todrop := ti.len - rx.tp.rcvWnd
  let ti := if past then { ti with data := ti.data.take (ti.data.length - todrop),
                                   len := rx.tp.rcvWnd }
    else ti
  .ok { rx with ti := ti, tiflags := if past then { rx.tiflags with fin := false } else rx.tiflags,
                tp := { rx.tp with sndWl1 := ti.seq - 1, rcvUp := ti.seq } }

end Handshake

section Trim

def Ti.behead (ti : Ti) (todrop : Nat) : Ti :=
  { ti with data := ti.data.drop todrop, seq := ti.seq + BitVec.ofNat 32 todrop,
            len := ti.len - todrop, urp := ti.urp - todrop }

def dropSyn (rx : Rx) : Rx :=
  if rx.tiflags.syn then
    { rx with ti := { rx.ti with seq := rx.ti.seq + 1,
                                 urp := if rx.ti.urp > 1 then rx.ti.urp - 1 else rx.ti.urp },
              tiflags := { rx.tiflags with syn := false,
                                           urg := rx.tiflags.urg && decide (rx.ti.urp > 1) } }
  else rx

/-- Drop leading data before `rcv_nxt`; if nothing is left, just ack. -/
def trimLeft (env : InEnv) (rx : Rx) : Except Exit Rx :=
  if (rx.tp.rcvNxt - rx.ti.seq).toInt > 0 then
    let rx := dropSyn rx
    let todrop := (rx.tp.rcvNxt - rx.ti.seq).toInt
    let cut (rx : Rx) (todrop : Nat) : Rx :=
      { rx with ti := rx.ti.behead todrop,
                tiflags :=
                { rx.tiflags with urg := rx.tiflags.urg && decide (rx.ti.urp > todrop) } }
    if todrop > rx.ti.len ∨ todrop = rx.ti.len ∧ rx.tiflags.fin = false then
      if rx.tiflags.fin ∧ todrop = rx.ti.len + 1 ∨
          env.compat42 ∧ rx.tiflags.rst ∧ rx.ti.seq = rx.tp.rcvNxt - 1 then
        .ok (cut { rx with tiflags := { rx.tiflags with fin := false },
                           tp := { rx.tp with acknow := true } } rx.ti.len)
      else dropafterack rx
    else .ok (cut rx todrop.toNat)
  else .ok rx

def afterClose (rx : Rx) : Except Exit Rx :=
  if rx.tp.nofdref ∧ rx.tp.state.num > TcpState.closeWait.num ∧ rx.ti.len ≠ 0 then .error .closed
  else .ok rx

def trimRight (rx : Rx) : Except Exit Rx :=
  let todrop := (rx.ti.seq + BitVec.ofNat 32 rx.ti.len -
    (rx.tp.rcvNxt + BitVec.ofNat 32 rx.tp.rcvWnd)).toInt
  if todrop > 0 then
    let cut (rx : Rx) : Rx :=
      { rx with ti := { rx.ti with data := rx.ti.data.take (rx.ti.data.length - todrop.toNat),
                                   len := rx.ti.len - todrop.toNat },
                tiflags := { rx.tiflags with push := false, fin := false } }
    if todrop ≥ rx.ti.len then
      -- a new connection starts over from the socket that listens
      if rx.tiflags.syn ∧ rx.tp.state = .timeWait ∧ SEQ_GT rx.ti.seq rx.tp.rcvNxt then
        .error .closed
      else if rx.tp.rcvWnd = 0 ∧ rx.ti.seq = rx.tp.rcvNxt then
        .ok (cut { rx with tp := { rx.tp with acknow := true } })
      else dropafterack rx
    else .ok (cut rx)
  else .ok rx

def checkFlags (rx : Rx) : Except Exit Rx :=
  if rx.tiflags.rst then .error .closed
  else if rx.tiflags.syn then .error (.dropped rx.tp)
  else if rx.tiflags.ack = false then .error (.done rx.tp)
  else .ok rx

end Trim

section Ack

def ackSyn (rx : Rx) : Except Exit Rx :=
  if rx.tp.state = .synReceived then
    if SEQ_GT rx.tp.sndUna rx.ti.ack ∨ SEQ_GT rx.ti.ack rx.tp.sndMax then .error (.done rx.tp)
    else
      let tp := (tcpReass { rx.tp with state := .established } none).1
      .ok { rx with tp := { tp with sndWl1 := rx.ti.seq - 1 } }
  else .ok rx

def halfWindow (tp : Tcb) : Nat := max (min tp.sndWnd tp.sndCwnd / 2 / tp.maxseg) 2

def dupAck (rx : Rx) : Except Exit Rx :=
  let tp := rx.tp
  if rx.ti.len = 0 ∧ rx.ti.win = tp.sndWnd then
    if tp.rexmt = 0 ∨ rx.ti.ack ≠ tp.sndUna then .ok { rx with tp := { tp with dupacks := 0 } }
    else
      let tp := { tp with dupacks := wrap16 (tp.dupacks + 1) }
      if tp.dupacks = tcprexmtthresh then
        .error (.retransmit { tp with sndSsthresh := ushort (halfWindow tp * tp.maxseg), rexmt := 0,
                                      rtt := 0, sndNxt := rx.ti.ack, sndCwnd :=
                                      tp.maxseg } tp.sndNxt)
      else if tp.dupacks > tcprexmtthresh then
        .error (.output { tp with sndCwnd := ushort (tp.sndCwnd + tp.maxseg) })
      else .ok { rx with tp := tp }
  else .ok { rx with tp := { tp with dupacks := 0 } }

def openCwnd (tp : Tcb) : Tcb :=
  let incr := if tp.sndCwnd > tp.sndSsthresh then tp.maxseg * tp.maxseg / tp.sndCwnd + tp.maxseg / 8
    else tp.maxseg
  { tp with sndCwnd := min (tp.sndCwnd + incr) TCP_MAXWIN }

/-- Acknowledged data is dropped; with it comes `ourfinisacked`. -/
def dropAcked (tp : Tcb) (ack : Seq) : Tcb × Bool :=
  let acked := (ack - tp.sndUna).toNat
  let fin : Bool := acked > tp.soSnd.length
  let data := min acked tp.soSnd.length
  ({ tp with soSnd := tp.soSnd.drop data, sndWnd := ushort (tp.sndWnd + 65536 - ushort data),
             sndUna := ack, sndNxt := if SEQ_LT tp.sndNxt ack then ack else tp.sndNxt }, fin)

def ackTimers (tp : Tcb) (ack : Seq) : Tcb := ackRexmt (ackRtt tp ack) ack

def ackState (rx : Rx) (ourfinisacked : Bool) : Except Exit Rx :=
  let tp := rx.tp
  match tp.state with
  | .finWait1 =>
    if ourfinisacked then
      let tp :=
        if tp.cantrcvmore then { soisdisconnected tp with msl := TCPTV_KEEPCNT * TCPTV_KEEPINTVL }
        else tp
      .ok { rx with tp := { tp with state := .finWait2 } }
    else .ok rx
  | .closing =>
    if ourfinisacked then
      .ok { rx with tp := { tcpCanceltimers (soisdisconnected tp) with state := .timeWait,
                                                                       msl := 2 * TCPTV_MSL } }
    else .ok rx
  | .lastAck => if ourfinisacked then .error .closed else .ok rx
  | .timeWait => dropafterack { rx with tp := { tp with msl := 2 * TCPTV_MSL } }
  | _ => .ok rx

/-- If the congestion window was inflated for the other side's cached packets, retract it. -/
def deflate (tp : Tcb) : Tcb :=
  { tp with sndCwnd := if tp.dupacks > tcprexmtthresh ∧ tp.sndCwnd > tp.sndSsthresh then tp.sndSsthresh
              else tp.sndCwnd,
            dupacks := 0 }

def newAck (rx : Rx) : Except Exit Rx :=
  let tp := deflate rx.tp
  let ack := rx.ti.ack
  if SEQ_GT ack tp.sndMax then dropafterack { rx with tp := tp }
  else
    let all : Bool := ack = tp.sndMax
    let r := dropAcked (openCwnd (ackTimers tp ack)) ack
    ackState { rx with tp := r.1, needoutput := rx.needoutput || all } r.2

def ackProcess (rx : Rx) : Except Exit Rx :=
  if SEQ_LEQ rx.ti.ack rx.tp.sndUna then dupAck rx else newAck rx

end Ack

section Step6

def windowUpdate (rx : Rx) : Rx :=
  let tp := rx.tp
  let ti := rx.ti
  if rx.tiflags.ack ∧
      (SEQ_LT tp.sndWl1 ti.seq ∨ tp.sndWl1 = ti.seq ∧
        (SEQ_LT tp.sndWl2 ti.ack ∨ tp.sndWl2 = ti.ack ∧ ti.win > tp.sndWnd)) then
    { rx with tp := { tp with sndWnd := ti.win, sndWl1 := ti.seq, sndWl2 := ti.ack,
                              maxSndwnd := max tp.maxSndwnd ti.win },
              needoutput := true }
  else rx

def tcpPulloutofband (rx : Rx) : Except Exit Rx :=
  match rx.ti.data[rx.ti.urp - 1]? with
  | none => .error (.panic .pulloutofband)
  | some byte => .ok { rx with tp := { rx.tp with oob := some byte },
                               ti := { rx.ti with data := rx.ti.data.eraseIdx (rx.ti.urp - 1) } }

def urgent (rx : Rx) : Except Exit Rx :=
  let tp := rx.tp
  let ti := rx.ti
  if rx.tiflags.urg ∧ ti.urp ≠ 0 ∧ ¬ tp.state.haveRcvdFin then
    if ti.urp + tp.soRcv.length > SB_MAX then
      .ok { rx with ti := { ti with urp := 0 }, tiflags := { rx.tiflags with urg := false } }
    else
      let up := ti.seq + BitVec.ofNat 32 ti.urp
      let rx :=
        if SEQ_GT up tp.rcvUp then { rx with tp := { tp with rcvUp := up, oob := none } } else rx
      if ti.urp ≤ ti.len ∧ tp.oobinline = false then tcpPulloutofband rx else .ok rx
  else if SEQ_GT tp.rcvNxt tp.rcvUp then .ok { rx with tp := { tp with rcvUp := tp.rcvNxt } }
  else .ok rx

def Ti.segment (ti : Ti) : Segment := ⟨ti.seq, ti.len, ti.flags.fin, ti.data⟩

/-- The segment text; `tiflags` keeps only what `TCP_REASS` says of FIN. -/
def dodata (rx : Rx) : Rx :=
  if (rx.ti.len ≠ 0 ∨ rx.tiflags.fin) ∧ ¬ rx.tp.state.haveRcvdFin then
    let r := TCP_REASS rx.tp rx.ti.segment
    { rx with tp := r.1, tiflags := ⟨r.2, false, false, false, false, false⟩ }
  else { rx with tiflags := { rx.tiflags with fin := false } }

def finReceived (rx : Rx) : Rx :=
  if rx.tiflags.fin then
    let tp := if rx.tp.state.haveRcvdFin then rx.tp
      else { rx.tp with cantrcvmore := true, acknow := true, rcvNxt := rx.tp.rcvNxt + 1 }
    let tp :=
      match tp.state with
      | .synReceived => { tp with state := .closeWait }
      | .established => { tp with state := .closeWait }
      | .finWait1 => { tp with state := .closing }
      | .finWait2 => { tcpCanceltimers (soisdisconnected tp) with state := .timeWait,
                                                                  msl := 2 * TCPTV_MSL }
      | .timeWait => { tp with msl := 2 * TCPTV_MSL }
      | _ => tp
    { rx with tp := tp }
  else rx

def step6 (rx : Rx) : Except Exit Rx :=
  match urgent (windowUpdate rx) with
  | .error e => .error e
  | .ok rx => .ok (finReceived (dodata rx))

end Step6

/-- The amount of space in the receive window, a `u_short`; the two amounts are compared as
unsigned numbers. -/
def receiveWindow (env : InEnv) (tp : Tcb) : Tcb :=
  { tp with rcvWnd := ushort (max (max (tp.sbspace env.mbroom) 0).toNat (tp.rcvAdv - tp.rcvNxt).toNat) }

def beforeAck (env : InEnv) (rx : Rx) : Except Exit Rx :=
  trimLeft env rx >>= afterClose >>= trimRight >>= checkFlags >>= ackSyn

def stages (env : InEnv) (rx : Rx) : Except Exit Rx :=
  if rx.tp.state = .listen then listen env rx >>= trimThenStep6 >>= step6
  else if rx.tp.state = .synSent then synSent rx >>= trimThenStep6 >>= step6
  else beforeAck env rx >>= ackProcess >>= step6

def leave : Except Exit Rx → Exit
  | .error e => e
  | .ok rx => if rx.needoutput ∨ rx.tp.acknow then .output rx.tp else .done rx.tp

def arrived (env : InEnv) (tp : Tcb) (ti : Ti) : Rx := ⟨receiveWindow env tp, ti, ti.flags, false⟩

def general (env : InEnv) (tp : Tcb) (ti : Ti) : Exit := leave (stages env (arrived env tp ti))

def received (env : InEnv) (tp : Tcb) (ti : Ti) : Tcb :=
  let tp := { tp with idle := 0, keep := TCPTV_KEEP_IDLE }
  if tp.state = .listen then tp else tcpDooptions env.route tp ti

def tcpInput (env : InEnv) (tp : Tcb) (ti : Ti) : Exit :=
  if tp.state = .closed then .done tp
  else
    let tp := received env tp ti
    if PureAck tp ti then predictAck tp ti
    else if PureData env.mbroom tp ti then predictData tp ti
    else general env tp ti

end FreeBsd.Netinet.Tcp
