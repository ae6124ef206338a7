import FreeBsd.Netinet.Tcp

/-! `tcp_output`: what is to be sent, and the sending of it. -/
namespace FreeBsd.Netinet.Tcp

/-- How a call can fail to return: it runs out of fuel, or panics. -/
inductive Fault where
  | fuel
  | rexmt
  | template
  | sbdrop
  | pulloutofband
  | mcopy
  deriving DecidableEq, Repr

/-- One attempt to send: whether `MGETHDR` and `m_copy` find memory, and the error of
`ip_output`. -/
structure Attempt where
  hdr : Bool
  copy : Bool
  error : Option Errno
  deriving DecidableEq, Repr

structure Env where
  mbroom : Int
  maxLinkhdr : Nat
  route : Option Route
  attempt : Nat → Attempt

structure Out where
  seq : Seq
  ack : Seq
  len : Nat
  flags : Flags
  win : Nat
  urp : Nat
  mss : Option Nat
  deriving DecidableEq, Repr

def tcpOutflags : TcpState → Flags
  | .closed => ⟨false, false, true, false, true, false⟩
  | .listen => ⟨false, false, false, false, false, false⟩
  | .synSent => ⟨false, true, false, false, false, false⟩
  | .synReceived => ⟨false, true, false, false, true, false⟩
  | .established => ⟨false, false, false, false, true, false⟩
  | .closeWait => ⟨false, false, false, false, true, false⟩
  | .finWait1 => ⟨true, false, false, false, true, false⟩
  | .closing => ⟨true, false, false, false, true, false⟩
  | .lastAck => ⟨true, false, false, false, true, false⟩
  | .finWait2 => ⟨false, false, false, false, true, false⟩
  | .timeWait => ⟨false, false, false, false, true, false⟩

def tcpSetpersist (tp : Tcb) : Except Fault Tcb :=
  if tp.rexmt ≠ 0 then .error .rexmt
  else
    let t := (tp.srtt / 4 + tp.rttvar) / 2
    .ok { tp with persist := rangeset (t * tcpBackoff.getD tp.rxtshift 64) TCPTV_PERSMIN TCPTV_PERSMAX,
                  rxtshift :=
                    if tp.rxtshift < TCP_MAXRXTSHIFT then tp.rxtshift + 1 else tp.rxtshift }

/-- What `tcp_output` has found out when it comes to `send` or to the persist test. -/
structure Plan where
  tp : Tcb
  off : Int
  len : Nat
  flags : Flags
  win : Int
  sendalot : Bool

def sendWindow (tp : Tcb) : Tcb × Nat :=
  let win := min tp.sndWnd tp.sndCwnd
  if tp.force then
    if win = 0 then (tp, 1) else ({ tp with persist := 0, rxtshift := 0 }, win)
  else (tp, win)

/-- If the window shrank to 0 after we sent into it, take back `snd_nxt`. -/
def shrink (len : Int) (win : Nat) (tp : Tcb) : Tcb :=
  if len < 0 ∧ win = 0 then { tp with rexmt := 0, sndNxt := tp.sndUna } else tp

def sendFlags (tp : Tcb) (len : Nat) : Flags :=
  let flags := tcpOutflags tp.state
  { flags with fin := flags.fin && decide (¬ SEQ_LT (tp.sndNxt + BitVec.ofNat 32 len)
                                            (tp.sndUna + BitVec.ofNat 32 tp.soSnd.length)) }

/-- From `again` on: the length, the flags and the receive window. -/
def plan (mbroom : Int) (tp : Tcb) : Plan :=
  let off := (tp.sndNxt - tp.sndUna).toInt
  let win := (sendWindow tp).2
  let tp := (sendWindow tp).1
  let len : Int := min tp.soSnd.length win - off
  let tp := shrink len win tp
  let sendalot : Bool := len > tp.maxseg
  let len := min len.toNat tp.maxseg
  ⟨tp, off, len, sendFlags tp len, tp.sbspace mbroom, sendalot⟩

def Plan.data (p : Plan) (idle : Bool) : Prop :=
  p.len ≠ 0 ∧
    (p.len = p.tp.maxseg ∨
      ((idle = true ∨ p.tp.nodelay = true) ∧
        (BitVec.ofInt 32 (p.len + p.off)).toNat ≥ p.tp.soSnd.length) ∨
      p.tp.force = true ∨ p.len ≥ p.tp.maxSndwnd / 2 ∨ SEQ_LT p.tp.sndNxt p.tp.sndMax)

def Plan.update (p : Plan) : Prop :=
  p.win > 0 ∧
    ((BitVec.ofInt 32 p.win - (p.tp.rcvAdv - p.tp.rcvNxt)).toInt ≥ 2 * p.tp.maxseg ∨
      2 * (BitVec.ofInt 32 p.win - (p.tp.rcvAdv - p.tp.rcvNxt)).toInt ≥ p.tp.rcvHiwat)

def Plan.send (p : Plan) (idle : Bool) : Prop :=
  p.data idle ∨ p.update ∨ p.tp.acknow = true ∨ p.flags.syn = true ∨ p.flags.rst = true ∨
    SEQ_GT p.tp.sndUp p.tp.sndUna ∨
    (p.flags.fin = true ∧ (p.tp.sentfin = false ∨ p.tp.sndNxt = p.tp.sndUna))

instance (p : Plan) (idle : Bool) : Decidable (p.data idle) := inferInstanceAs (Decidable (_ ∧ _))
instance (p : Plan) : Decidable p.update := inferInstanceAs (Decidable (_ ∧ _))
instance (p : Plan) (idle : Bool) : Decidable (p.send idle) := inferInstanceAs (Decidable (_ ∨ _))

/-- No reason to send: persist state, if there is data and no timer runs. -/
def Plan.rest (p : Plan) : Except Fault Tcb :=
  if p.tp.soSnd ≠ [] ∧ p.tp.rexmt = 0 ∧ p.tp.persist = 0 then
    tcpSetpersist { p.tp with rxtshift := 0 }
  else .ok p.tp

def announce (tp : Tcb) (win : Int) : Int :=
  let win := if win < tp.rcvHiwat / 4 ∧ win < tp.maxseg then 0 else win
  let win := if win > (TCP_MAXWIN : Int) then (TCP_MAXWIN : Int) else win
  if win < (tp.rcvAdv - tp.rcvNxt).toInt then (tp.rcvAdv - tp.rcvNxt).toInt else win

def takeNumbers (tp : Tcb) (len : Nat) (flags : Flags) : Tcb :=
  let tp := if flags.syn then { tp with sndNxt := tp.sndNxt + 1 } else tp
  let tp := if flags.fin then { tp with sndNxt := tp.sndNxt + 1, sentfin := true } else tp
  { tp with sndNxt := tp.sndNxt + BitVec.ofNat 32 len }

/-- Time this transmission if it is not a retransmission and nothing is timed. -/
def raiseMax (startseq : Seq) (tp : Tcb) : Tcb :=
  if SEQ_GT tp.sndNxt tp.sndMax then
    let tp : Tcb := { tp with sndMax := tp.sndNxt }
    if tp.rtt = 0 then { tp with rtt := 1, rtseq := startseq } else tp
  else tp

/-- Set the retransmit timer if it is not set, and not if nothing is outstanding. -/
def setRexmt (tp : Tcb) : Tcb :=
  if tp.rexmt = 0 ∧ tp.sndNxt ≠ tp.sndUna then
    let tp : Tcb := { tp with rexmt := tp.rxtcur }
    if tp.persist ≠ 0 then { tp with persist := 0, rxtshift := 0 } else tp
  else tp

/-- In transmit state, time the transmission and arrange for the retransmit. In persist
state, just set `snd_max`. -/
def advance (tp : Tcb) (len : Nat) (flags : Flags) : Tcb :=
  if tp.force = false ∨ tp.persist = 0 then
    setRexmt (raiseMax tp.sndNxt (takeNumbers tp len flags))
  else if SEQ_GT (tp.sndNxt + BitVec.ofNat 32 len) tp.sndMax then
    { tp with sndMax := tp.sndNxt + BitVec.ofNat 32 len }
  else tp

structure Pass where
  tp : Tcb
  out : Option Out
  again : Bool

def refin (flags : Flags) (tp : Tcb) : Tcb :=
  if flags.fin ∧ tp.sentfin ∧ tp.sndNxt = tp.sndMax then { tp with sndNxt := tp.sndNxt - 1 } else tp

def header (tp : Tcb) (len : Nat) (flags : Flags) (win : Int) (mss : Option Nat) : Out :=
  let urgent : Bool := SEQ_GT tp.sndUp tp.sndNxt
  { seq := tp.sndNxt
    ack := tp.rcvNxt
    len := len
    flags := { flags with urg := flags.urg || urgent }
    win := (BitVec.ofInt 16 win).toNat
    urp := if urgent then ushort (tp.sndUp - tp.sndNxt).toNat else 0
    mss := mss }

/-- If no urgent pointer is to be sent, it is pulled along with the left window edge. -/
def pullUrgent (tp : Tcb) : Tcb :=
  if SEQ_GT tp.sndUp tp.sndNxt then tp else { tp with sndUp := tp.sndUna }

def sent (error : Option Errno) (sendalot : Bool) (win : Int) (out : Out) (tp : Tcb) : Pass :=
  match error with
  | some .enobufs => ⟨tcpQuench tp, some out, false⟩
  | some e =>
    if (e = .ehostunreach ∨ e = .enetdown) ∧ tp.state.haveRcvdSyn then
      ⟨{ tp with softerror := some e }, some out, false⟩
    else ⟨tp, some out, false⟩
  | none =>
    let tp := if win > 0 ∧ SEQ_GT (tp.rcvNxt + BitVec.ofInt 32 win) tp.rcvAdv then
      { tp with rcvAdv := tp.rcvNxt + BitVec.ofInt 32 win } else tp
    ⟨{ tp with acknow := false, delack := false }, some out, sendalot⟩

/-- Before ESTABLISHED, the initial options: what `tcp_mss` does, and the size to announce. -/
def Plan.options (p : Plan) (route : Option Route) : Tcb × Option Nat :=
  if p.flags.syn ∧ p.tp.noopt = false then
    let r := tcpMss route p.tp 0
    (r.1, some r.2)
  else (p.tp, none)

/-- The data that is copied; `m_copy` is for what the header mbuf does not hold. -/
def copied (maxLinkhdr : Nat) (copy : Bool) (len : Nat) (mss : Option Nat) : Nat :=
  if len + (if mss.isSome then 44 else 40) + maxLinkhdr ≤ 100 ∨ copy = true then len else 0

def emit (error : Option Errno) (p : Plan) (len : Nat) (flags : Flags) (mss : Option Nat)
    (tp : Tcb) : Pass :=
  let tp := refin flags tp
  let win := announce tp p.win
  sent error p.sendalot win (header tp len flags win mss) (advance (pullUrgent tp) len flags)

def transmit (env : Env) (a : Attempt) (p : Plan) : Except Fault Pass :=
  let tp := (p.options env.route).1
  let mss := (p.options env.route).2
  if a.hdr = false then .ok ⟨tcpQuench tp, none, false⟩
  else if p.len ≠ 0 ∧ p.off < 0 then .error .mcopy
  else
    let len := copied env.maxLinkhdr a.copy p.len mss
    let push : Bool := p.len ≠ 0 ∧ p.off + len = tp.soSnd.length
    if tp.template = false then .error .template
    else .ok (emit a.error p len { p.flags with push := p.flags.push || push } mss tp)

def pass (env : Env) (k : Nat) (idle : Bool) (tp : Tcb) : Except Fault Pass :=
  let p := plan env.mbroom tp
  if p.send idle then transmit env (env.attempt k) p
  else
    match p.rest with
    | .ok tp => .ok ⟨tp, none, false⟩
    | .error e => .error e

def passes (env : Env) : Nat → Nat → Bool → Tcb → Except Fault (Tcb × List Out)
  | 0, _, _, _ => .error .fuel
  | fuel + 1, k, idle, tp =>
    match pass env k idle tp with
    | .error e => .error e
    | .ok r =>
      if r.again then
        match passes env fuel (k + 1) idle r.tp with
        | .error e => .error e
        | .ok (tp, outs) => .ok (tp, r.out.toList ++ outs)
      else .ok (r.tp, r.out.toList)

def restart (tp : Tcb) : Tcb :=
  if tp.sndMax = tp.sndUna ∧ tp.idle ≥ tp.rxtcur then { tp with sndCwnd := tp.maxseg } else tp

def tcpOutput (env : Env) (fuel : Nat) (tp : Tcb) : Except Fault (Tcb × List Out) :=
  passes env fuel 0 (tp.sndMax = tp.sndUna) (restart tp)

end FreeBsd.Netinet.Tcp
