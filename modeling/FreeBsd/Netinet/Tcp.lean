import FreeBsd.Lib.Serial
import FreeBsd.Lib.Word

/-! The control block of a TCP connection with the parts of its socket that the protocol
reads and writes, and the small functions of `tcp_subr.c` and `tcp_input.c` on it. Statistics,
tracing, wakeups and the marks for out-of-band data in the socket are left out. -/
namespace FreeBsd.Netinet.Tcp

open FreeBsd.Lib (wrap16)

abbrev Byte := BitVec 8
abbrev Seq := BitVec 32

section Sequence

abbrev SEQ_LT (a b : Seq) : Prop := (a - b).toInt < 0
abbrev SEQ_LEQ (a b : Seq) : Prop := (a - b).toInt ≤ 0
abbrev SEQ_GT (a b : Seq) : Prop := (a - b).toInt > 0
abbrev SEQ_GEQ (a b : Seq) : Prop := (a - b).toInt ≥ 0

/-- The value a `u_short` holds after `x` is stored in it. -/
def ushort (x : Nat) : Nat := x % 65536

end Sequence

inductive TcpState where
  | closed
  | listen
  | synSent
  | synReceived
  | established
  | closeWait
  | finWait1
  | closing
  | lastAck
  | finWait2
  | timeWait
  deriving DecidableEq, Repr

namespace TcpState

def num : TcpState → Nat
  | closed => 0
  | listen => 1
  | synSent => 2
  | synReceived => 3
  | established => 4
  | closeWait => 5
  | finWait1 => 6
  | closing => 7
  | lastAck => 8
  | finWait2 => 9
  | timeWait => 10

def haveRcvdSyn (s : TcpState) : Prop := s.num ≥ synReceived.num

def haveRcvdFin (s : TcpState) : Prop := s.num ≥ timeWait.num

instance (s : TcpState) : Decidable s.haveRcvdSyn := inferInstanceAs (Decidable (_ ≥ _))
instance (s : TcpState) : Decidable s.haveRcvdFin := inferInstanceAs (Decidable (_ ≥ _))

end TcpState

structure Flags where
  fin : Bool
  syn : Bool
  rst : Bool
  push : Bool
  ack : Bool
  urg : Bool
  deriving DecidableEq, Repr

/-- A segment in the reassembly queue; `fin` is `TH_FIN` of its `ti_flags`. -/
structure Segment where
  seq : Seq
  len : Nat
  fin : Bool
  data : List Byte
  deriving DecidableEq, Repr

inductive Errno where
  | enobufs
  | ehostunreach
  | enetdown
  | other
  deriving DecidableEq, Repr

structure Tcb where
  segs : List Segment
  state : TcpState
  -- `t_timer[]`
  rexmt : Int
  persist : Int
  keep : Int
  msl : Int
  rxtshift : Nat
  rxtcur : Int
  dupacks : Int
  maxseg : Nat
  force : Bool
  -- `t_flags`
  acknow : Bool
  delack : Bool
  nodelay : Bool
  noopt : Bool
  sentfin : Bool
  template : Bool
  sndUna : Seq
  sndNxt : Seq
  sndUp : Seq
  sndWl1 : Seq
  sndWl2 : Seq
  iss : Seq
  sndWnd : Nat
  rcvWnd : Nat
  rcvNxt : Seq
  rcvUp : Seq
  irs : Seq
  rcvAdv : Seq
  sndMax : Seq
  sndCwnd : Nat
  sndSsthresh : Nat
  idle : Int
  rtt : Int
  rtseq : Seq
  srtt : Int
  rttvar : Int
  rttmin : Nat
  maxSndwnd : Nat
  oob : Option Byte
  softerror : Option Errno
  -- the socket
  soSnd : List Byte
  soRcv : List Byte
  sndHiwat : Nat
  rcvHiwat : Nat
  cantrcvmore : Bool
  cantsendmore : Bool
  nofdref : Bool
  keepalive : Bool
  oobinline : Bool
  linger0 : Bool
  deriving DecidableEq, Repr

section Constants

def TCP_MSS : Nat := 512
def TCP_MAXWIN : Nat := 65535
def TCP_MAXRXTSHIFT : Nat := 12
def TCPTV_MSL : Int := 60
def TCPTV_PERSMIN : Int := 10
def TCPTV_PERSMAX : Int := 120
def TCPTV_KEEP_INIT : Int := 150
def TCPTV_KEEP_IDLE : Int := 14400
def TCPTV_KEEPINTVL : Int := 150
def TCPTV_KEEPCNT : Int := 8
def TCPTV_MIN : Nat := 2
def TCPTV_REXMTMAX : Int := 128
def SB_MAX : Nat := 64 * 1024
def tcprexmtthresh : Int := 3

def tcpBackoff : List Int := [1, 2, 4, 8, 16, 32, 64, 64, 64, 64, 64, 64, 64]

end Constants

section Timing

def rangeset (value min max : Int) : Int :=
  let tv := wrap16 value
  if tv < min then min else if tv > max then max else tv

def Tcb.rexmtval (tp : Tcb) : Int := tp.srtt / 8 + tp.rttvar

def tcpXmitTimer (tp : Tcb) : Tcb :=
  let tp :=
    if tp.srtt ≠ 0 then
      let delta := wrap16 (tp.rtt - 1 - tp.srtt / 8)
      let srtt := wrap16 (tp.srtt + delta)
      let delta := wrap16 ((if delta < 0 then wrap16 (-delta) else delta) - tp.rttvar / 4)
      let rttvar := wrap16 (tp.rttvar + delta)
      { tp with srtt := if srtt ≤ 0 then 1 else srtt, rttvar := if rttvar ≤ 0 then 1 else rttvar }
    else { tp with srtt := wrap16 (tp.rtt * 8), rttvar := wrap16 (tp.rtt * 2) }
  { tp with rtt := 0, rxtshift := 0, rxtcur := rangeset tp.rexmtval tp.rttmin TCPTV_REXMTMAX,
            softerror := none }

end Timing

section Mss

/-- What the route and its interface tell `tcp_mss`; an `mtu` of 0 is none. -/
structure Route where
  rtt : Nat
  rttvar : Nat
  lockMtu : Bool
  mtu : Nat
  ifMtu : Nat
  localaddr : Bool
  sendpipe : Nat
  recvpipe : Nat
  ssthresh : Nat
  deriving DecidableEq, Repr

def sbreserve (hiwat cc : Nat) : Nat := if cc > SB_MAX * 2048 / (128 + 2048) then hiwat else cc

/-- The part of `tcp_mss` that takes the round trip time of the route. -/
def routeRtt (rt : Route) (tp : Tcb) : Tcb :=
  if tp.srtt = 0 ∧ rt.rtt ≠ 0 then
    let srtt := wrap16 (rt.rtt / 62500)
    let rttvar := if rt.rttvar ≠ 0 then wrap16 (rt.rttvar / 125000) else wrap16 ((srtt * 4).tdiv 8)
    let rttmin := if rt.lockMtu then ushort (rt.rtt / 500000) else tp.rttmin
    { tp with rttmin := rttmin, srtt := srtt, rttvar := rttvar,
              rxtcur := rangeset ((srtt / 4 + rttvar) / 2) rttmin TCPTV_REXMTMAX }
  else tp

/-- The segment size that the route allows, before an offer is looked at. -/
def Route.mss (rt : Route) : Nat :=
  if rt.mtu ≠ 0 then rt.mtu - 40
  else
    let mss := if rt.ifMtu - 40 > 2048 then (rt.ifMtu - 40) / 2048 * 2048 else rt.ifMtu - 40
    if rt.localaddr then mss else min mss TCP_MSS

def Route.pipe (rt : Route) (tp : Tcb) : Nat := if rt.sendpipe = 0 then tp.sndHiwat else rt.sendpipe

/-- The buffers get the sizes that the route gives, as multiples of the segment size `mss`;
`mss'` is `mss` if the send buffer holds that much. -/
def reserve (rt : Route) (mss mss' : Nat) (tp : Tcb) : Tcb :=
  let rpipe := if rt.recvpipe = 0 then tp.rcvHiwat else rt.recvpipe
  { tp with sndHiwat := if rt.pipe tp < mss then tp.sndHiwat
              else sbreserve tp.sndHiwat (min (rt.pipe tp) SB_MAX / mss * mss),
            maxseg := ushort mss',
            rcvHiwat := if rpipe > mss' then sbreserve tp.rcvHiwat (min rpipe SB_MAX / mss' * mss')
              else tp.rcvHiwat }

def startCwnd (rt : Route) (mss : Nat) (tp : Tcb) : Tcb :=
  { tp with sndCwnd := ushort mss,
            sndSsthresh :=
            if rt.ssthresh ≠ 0 then ushort (max (2 * mss) rt.ssthresh) else tp.sndSsthresh }

/-- `tcp_mss`: the connection, and the segment size to announce. -/
def tcpMss (rt : Option Route) (tp : Tcb) (offer : Nat) : Tcb × Nat :=
  match rt with
  | none => (tp, TCP_MSS)
  | some rt =>
    let tp := routeRtt rt tp
    let mss := max (if offer ≠ 0 then min rt.mss offer else rt.mss) 32
    let resize : Bool := mss < tp.maxseg ∨ offer ≠ 0
    let mss' := if resize ∧ rt.pipe tp < mss then rt.pipe tp else mss
    (startCwnd rt mss' (if resize then reserve rt mss mss' tp else tp), mss')

end Mss

section Create

def tcpNewtcpcb (sndHiwat rcvHiwat : Nat) : Tcb where
  segs := []
  state := .closed
  rexmt := 0
  persist := 0
  keep := 0
  msl := 0
  rxtshift := 0
  rxtcur := 12
  dupacks := 0
  maxseg := TCP_MSS
  force := false
  acknow := false
  delack := false
  nodelay := false
  noopt := false
  sentfin := false
  template := false
  sndUna := 0
  sndNxt := 0
  sndUp := 0
  sndWl1 := 0
  sndWl2 := 0
  iss := 0
  sndWnd := 0
  rcvWnd := 0
  rcvNxt := 0
  rcvUp := 0
  irs := 0
  rcvAdv := 0
  sndMax := 0
  sndCwnd := TCP_MAXWIN
  sndSsthresh := TCP_MAXWIN
  idle := 0
  rtt := 0
  rtseq := 0
  srtt := 0
  rttvar := 24
  rttmin := TCPTV_MIN
  maxSndwnd := 0
  oob := none
  softerror := none
  soSnd := []
  soRcv := []
  sndHiwat := sndHiwat
  rcvHiwat := rcvHiwat
  cantrcvmore := false
  cantsendmore := false
  nofdref := false
  keepalive := false
  oobinline := false
  linger0 := false

def tcpSendseqinit (tp : Tcb) : Tcb :=
  { tp with sndUna := tp.iss, sndNxt := tp.iss, sndMax := tp.iss, sndUp := tp.iss }

def tcpRcvseqinit (tp : Tcb) : Tcb := { tp with rcvAdv := tp.irs + 1, rcvNxt := tp.irs + 1 }

def tcpCanceltimers (tp : Tcb) : Tcb := { tp with rexmt := 0, persist := 0, keep := 0, msl := 0 }

def tcpQuench (tp : Tcb) : Tcb := { tp with sndCwnd := tp.maxseg }

end Create

/-- The part of `soisdisconnected` that the protocol sees. -/
def soisdisconnected (tp : Tcb) : Tcb := { tp with cantrcvmore := true, cantsendmore := true }

/-- `sbspace(&so->so_rcv)`; `mbroom` is what is left of its mbufs, `sb_mbmax - sb_mbcnt`. -/
def Tcb.sbspace (tp : Tcb) (mbroom : Int) : Int := min (tp.rcvHiwat - tp.soRcv.length) mbroom

end FreeBsd.Netinet.Tcp
