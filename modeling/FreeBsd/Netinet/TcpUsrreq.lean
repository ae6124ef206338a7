import FreeBsd.Lib.Trace
import FreeBsd.Netinet.TcpInput

/-! The rest of the protocol's entry points, `tcp_usrreq`, `tcp_timers` and the two timeout
routines, and the runs of a connection: any sequence of segments, requests and timeouts. -/
namespace FreeBsd.Netinet.Tcp

/-- What a call leaves of the connection, with the segments sent on the way. -/
abbrev Result := Except Fault (Option Tcb × List Out)

abbrev Output := Env → Tcb → Except Fault (Tcb × List Out)

section Calls

/-- `tcp_output`, after which the connection is changed by `f`. -/
def outputThen (out : Output) (env : Env) (tp : Tcb) (f : Tcb → Tcb) : Result :=
  match out env tp with
  | .error e => .error e
  | .ok (tp, outs) => .ok (some (f tp), outs)

/-- `tcp_output` in CLOSED, which sends a RST, and `tcp_close`. -/
def outputClose (out : Output) (env : Env) (tp : Tcb) : Result :=
  match out env { tp with state := .closed } with
  | .error e => .error e
  | .ok (_, outs) => .ok (none, outs)

def tcpDrop (out : Output) (env : Env) (tp : Tcb) : Result :=
  if tp.state.haveRcvdSyn then outputClose out env tp else .ok (none, [])

def perform (out : Output) (env : Env) : Exit → Result
  | .done tp => .ok (some tp, [])
  | .closed => .ok (none, [])
  | .output tp => outputThen out env tp id
  | .retransmit tp onxt =>
    outputThen out env tp fun tp =>
      { tp with sndCwnd := ushort (tp.sndSsthresh + tp.maxseg * tp.dupacks.toNat),
                sndNxt := if SEQ_GT onxt tp.sndNxt then onxt else tp.sndNxt }
  | .dropped tp => tcpDrop out env tp
  | .panic fault => .error fault

end Calls

section Usrreq

inductive Request where
  | connect (template : Bool) (iss : Seq)
  | disconnect
  | detach
  | shutdown
  | rcvd (count : Nat)
  | send (m : List Byte)
  | sendoob (full : Bool) (m : List Byte)
  | abort
  | nodelay (on : Bool)
  | sockopt (keepalive oobinline linger0 : Bool)
  | reserve (snd rcv : Nat)
  | sorflush
  deriving DecidableEq, Repr

def tcpUsrclosed (tp : Tcb) : Option Tcb :=
  match tp.state with
  | .closed => none
  | .listen => none
  | .synSent => none
  | .synReceived => some { tp with state := .finWait1 }
  | .established => some { tp with state := .finWait1 }
  | .closeWait => some { tp with state := .lastAck }
  | .finWait2 => some (soisdisconnected tp)
  | .timeWait => some (soisdisconnected tp)
  | _ => some tp

def tcpDisconnect (out : Output) (env : Env) (tp : Tcb) : Result :=
  if tp.state.num < TcpState.established.num then .ok (none, [])
  else if tp.linger0 then tcpDrop out env tp
  else
    match tcpUsrclosed { tp with cantsendmore := true, cantrcvmore := true, soRcv := [] } with
    | none => .ok (none, [])
    | some tp => outputThen out env tp id

def tcpUsrreq (out : Output) (env : Env) (tp : Tcb) : Request → Result
  | .connect template iss =>
    -- left out: a socket that soisdisconnected() has released may connect again, with its tcb in
    -- TIME_WAIT
    if tp.state ≠ .closed ∨ template = false then .ok (some tp, [])
    else
      let tp := { tp with template := true, state := .synSent, keep := TCPTV_KEEP_INIT, iss := iss }
      outputThen out env (tcpSendseqinit tp) id
  | .disconnect => tcpDisconnect out env tp
  | .detach =>
    if tp.state.num > TcpState.listen.num then tcpDisconnect out env { tp with nofdref := true }
    else .ok (none, [])
  | .shutdown =>
    match tcpUsrclosed { tp with cantsendmore := true } with
    | none => .ok (none, [])
    | some tp => outputThen out env tp id
  | .rcvd count => outputThen out env { tp with soRcv := tp.soRcv.drop count } id
  | .send m => outputThen out env { tp with soSnd := tp.soSnd ++ m } id
  | .sendoob full m =>
    if full then .ok (some tp, [])
    else
      let tp := { tp with soSnd := tp.soSnd ++ m }
      let tp := { tp with sndUp := tp.sndUna + BitVec.ofNat 32 tp.soSnd.length, force := true }
      outputThen out env tp fun tp => { tp with force := false }
  | .abort => tcpDrop out env tp
  | .nodelay on => .ok (some { tp with nodelay := on }, [])
  -- options of the socket, and the end of reading
  | .sockopt keepalive oobinline linger0 =>
    .ok (some { tp with keepalive := keepalive, oobinline := oobinline, linger0 := linger0 }, [])
  | .reserve snd rcv =>
    .ok (some { tp with sndHiwat := sbreserve tp.sndHiwat snd,
                        rcvHiwat := sbreserve tp.rcvHiwat rcv }, [])
  | .sorflush => .ok (some { tp with cantrcvmore := true, soRcv := [], rcvHiwat := 0 }, [])

end Usrreq

section Timers

def backoff (tp : Tcb) : Tcb :=
  let tp := { tp with rxtshift := tp.rxtshift + 1 }
  let rxtcur := rangeset (tp.rexmtval * tcpBackoff.getD tp.rxtshift 64) tp.rttmin TCPTV_REXMTMAX
  { tp with rxtcur := rxtcur, rexmt := rxtcur }

/-- After a fourth of the attempts the round trip time is not trusted any more. -/
def clobberSrtt (tp : Tcb) : Tcb :=
  if tp.rxtshift > TCP_MAXRXTSHIFT / 4 then
    { tp with rttvar := Lib.wrap16 (tp.rttvar + tp.srtt / 8), srtt := 0 }
  else tp

def resend (tp : Tcb) : Tcb :=
  { tp with sndNxt := tp.sndUna, rtt := 0, sndCwnd := tp.maxseg,
            sndSsthresh := ushort (halfWindow tp * tp.maxseg), dupacks := 0 }

def rexmtTimer (out : Output) (env : Env) (tp : Tcb) : Result :=
  if tp.rxtshift + 1 > TCP_MAXRXTSHIFT then tcpDrop out env { tp with rxtshift := TCP_MAXRXTSHIFT }
  else outputThen out env (resend (clobberSrtt (backoff tp))) id

/-- The persistance timer went off: force a byte to be output, if possible. -/
def persistTimer (out : Output) (env : Env) (tp : Tcb) : Result :=
  match tcpSetpersist tp with
  | .error e => .error e
  | .ok tp => outputThen out env { tp with force := true } fun tp => { tp with force := false }

/-- The keep-alive timer went off; the probe does not change the connection. -/
def keepTimer (out : Output) (env : Env) (tp : Tcb) : Result :=
  if tp.state.num < TcpState.established.num then tcpDrop out env tp
  else if tp.keepalive ∧ tp.state.num ≤ TcpState.closeWait.num then
    if tp.idle ≥ TCPTV_KEEP_IDLE + TCPTV_KEEPCNT * TCPTV_KEEPINTVL then tcpDrop out env tp
    else .ok (some { tp with keep := TCPTV_KEEPINTVL }, [])
  else .ok (some { tp with keep := TCPTV_KEEP_IDLE }, [])

def mslTimer (tp : Tcb) : Result :=
  if tp.state ≠ .timeWait ∧ tp.idle ≤ TCPTV_KEEPCNT * TCPTV_KEEPINTVL then
    .ok (some { tp with msl := TCPTV_KEEPINTVL }, [])
  else .ok (none, [])

/-- One timer of `tcp_slowtimo`: it is counted down, and `expired` is what happens at 0. -/
def countdown (get : Tcb → Int) (set : Tcb → Int → Tcb) (expired : Tcb → Result) (tp : Tcb) :
    Result :=
  if get tp = 0 then .ok (some tp, [])
  else if get tp - 1 = 0 then expired (set tp 0)
  else .ok (some (set tp (get tp - 1)), [])

def andThen (r : Result) (f : Tcb → Result) : Result :=
  match r with
  | .error e => .error e
  | .ok (none, outs) => .ok (none, outs)
  | .ok (some tp, outs) =>
    match f tp with
    | .error e => .error e
    | .ok (tp, outs') => .ok (tp, outs ++ outs')

/-- `tcp_slowtimo`, for one connection; each timer that goes off has its own surroundings. -/
def tcpSlowtimo (out : Output) (env : Nat → Env) (tp : Tcb) : Result :=
  let r := countdown Tcb.rexmt (fun tp t => { tp with rexmt := t }) (rexmtTimer out (env 0)) tp
  let r := andThen r (countdown Tcb.persist (fun tp t => { tp with persist := t })
    (persistTimer out (env 1)))
  let r := andThen r (countdown Tcb.keep (fun tp t => { tp with keep := t })
    (keepTimer out (env 2)))
  let r := andThen r (countdown Tcb.msl (fun tp t => { tp with msl := t }) mslTimer)
  andThen r fun tp => .ok (some { tp with idle := Lib.wrap16 (tp.idle + 1),
                                          rtt :=
                                            if tp.rtt ≠ 0 then Lib.wrap16 (tp.rtt + 1) else 0 }, [])

def tcpFasttimo (out : Output) (env : Env) (tp : Tcb) : Result :=
  if tp.delack then outputThen out env { tp with delack := false, acknow := true } id
  else .ok (some tp, [])

end Timers

section Runs

inductive Event where
  | segment (inEnv : InEnv) (ti : Ti) (env : Env)
  | request (env : Env) (req : Request)
  | slowtimo (env : Nat → Env)
  | fasttimo (env : Env)
  | quench

/-- A connection as it begins: for `PRU_CONNECT`, or in LISTEN as the one that `sonewconn`
makes for a segment to a socket that listens. -/
def Begins (tp : Tcb) : Prop :=
  ∃ sndHiwat rcvHiwat, tp = tcpNewtcpcb sndHiwat rcvHiwat ∨
    tp = { tcpNewtcpcb sndHiwat rcvHiwat with state := .listen }

def handle (out : Output) (tp : Tcb) : Event → Result
  | .segment inEnv ti env => perform out env (tcpInput inEnv tp ti)
  | .request env req => tcpUsrreq out env tp req
  | .slowtimo env => tcpSlowtimo out env tp
  | .fasttimo env => tcpFasttimo out env tp
  | .quench => .ok (some (tcpQuench tp), [])

def bounded (fuel : Nat) : Output := fun env tp => tcpOutput env fuel tp

def Step (tp : Tcb) (event : Event) (tp' : Tcb) : Prop :=
  ∃ fuel outs, handle (bounded fuel) tp event = .ok (some tp', outs)

end Runs

end FreeBsd.Netinet.Tcp
