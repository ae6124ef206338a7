import FreeBsd.Lib.Exits
import FreeBsd.Netinet.TcpUsrreq

/-! The sending side of a connection, as far as its timers and sequence variables go: a small
machine that says once what segments, requests and timeouts can do to them. The functions of
the protocol are simulated by its moves. -/
namespace FreeBsd.Netinet.Tcp

open FreeBsd.Lib

structure Sender where
  state : TcpState
  rexmt : Bool
  persist : Bool
  force : Bool
  sentfin : Bool
  shut : Bool
  una : Seq
  nxt : Seq
  max : Seq
  iss : Seq
  cc : Nat
  window : Bool
  segs : List Segment
  deriving DecidableEq, Repr

/-- What the machine sees of a connection; of a timer, whether it runs, and of the window,
whether it is open. -/
def Tcb.sender (tp : Tcb) : Sender where
  state := tp.state
  rexmt := tp.rexmt ≠ 0
  persist := tp.persist ≠ 0
  force := tp.force
  sentfin := tp.sentfin
  shut := tp.cantsendmore
  una := tp.sndUna
  nxt := tp.sndNxt
  max := tp.sndMax
  iss := tp.iss
  cc := tp.soSnd.length
  window := tp.sndWnd ≠ 0
  segs := tp.segs

section Machine

/-- What the window does before a pass of `tcp_output`: nothing, end a forced persist state,
or, if it is closed, take `snd_nxt` back. -/
inductive Ready (s : Sender) : Sender → Prop where
  | same : (s.force = false → s.window = false → (s.nxt - s.una).toInt ≤ 0) → Ready s s
  | unpersist : s.force = true → Ready s { s with persist := false }
  | shut : s.force = false → Ready s { s with rexmt := false, nxt := s.una }

def Sender.refin (s : Sender) (fin : Bool) : Sender :=
  if fin = true ∧ s.sentfin = true ∧ s.nxt = s.max then { s with nxt := s.nxt - 1 } else s

def Sender.takeNumbers (s : Sender) (len : Nat) (syn fin : Bool) : Sender :=
  { s with nxt := s.nxt + (if syn then 1 else 0) + (if fin then 1 else 0) + BitVec.ofNat 32 len,
           sentfin := s.sentfin || fin }

def Sender.raiseMax (s : Sender) (n : Seq) :
    Sender := if SEQ_GT n s.max then { s with max := n } else s

/-- Here `r` is whether the retransmit timer has a value. -/
def Sender.setRexmt (s : Sender) (r : Bool) : Sender :=
  if s.rexmt = false ∧ s.nxt ≠ s.una then { s with rexmt := r, persist := false } else s

def Sender.advance (s : Sender) (len : Nat) (syn fin r : Bool) : Sender :=
  if s.force = false ∨ s.persist = false then
    let s := s.takeNumbers len syn fin
    (s.raiseMax s.nxt).setRexmt r
  else s.raiseMax (s.nxt + BitVec.ofNat 32 len)

/-- How much a pass sends: of `p` bytes that it means to send there may be no copy. -/
structure Sends (s : Sender) (p len : Nat) (fin : Bool) : Prop where
  data : p ≠ 0 → (s.nxt - s.una).toInt + p ≤ s.cc
  copied : len = p ∨ len = 0
  fin : fin = true → (tcpOutflags s.state).fin = true ∧
    ¬ SEQ_LT (s.nxt + BitVec.ofNat 32 p) (s.una + BitVec.ofNat 32 s.cc)

/-- One pass of `tcp_output`, with the number of the FIN it sends, and whether it goes round
again: only if there is data beyond `snd_nxt`. -/
inductive Passes (s : Sender) : Option Seq → Bool → Sender → Prop where
  | rest {t} : Ready s t → Passes s none false t
  | persist {t} : Ready s t → t.rexmt = false → t.persist = false → t.cc ≠ 0 →
      Passes s none false { t with persist := true }
  | send {t p len fin r again} : Ready s t → Sends t p len fin →
      (again = true → (s.nxt - s.una).toInt < s.cc) →
      Passes s (if fin then some ((t.refin fin).nxt + BitVec.ofNat 32 len) else none) again
        ((t.refin fin).advance len (tcpOutflags t.state).syn fin r)

/-- A call of `tcp_output`, with the numbers of the FINs it sends. -/
inductive Outputs : Sender → List Seq → Sender → Prop where
  | last {s o t} : Passes s o false t → Outputs s o.toList t
  | more {s o t fins u} : Passes s o true t → Outputs t fins u → Outputs s (o.toList ++ fins) u

structure Sender.Frame (s t : Sender) : Prop where
  state : t.state = s.state
  force : t.force = s.force
  shut : t.shut = s.shut
  una : t.una = s.una
  iss : t.iss = s.iss
  cc : t.cc = s.cc
  window : t.window = s.window
  segs : t.segs = s.segs

theorem Sender.Frame.refl (s : Sender) : s.Frame s := ⟨rfl, rfl, rfl, rfl, rfl, rfl, rfl, rfl⟩

theorem Sender.Frame.trans {s t u : Sender} (first : s.Frame t) (second : t.Frame u) :
    s.Frame u where
  state := second.state.trans first.state
  force := second.force.trans first.force
  shut := second.shut.trans first.shut
  una := second.una.trans first.una
  iss := second.iss.trans first.iss
  cc := second.cc.trans first.cc
  window := second.window.trans first.window
  segs := second.segs.trans first.segs

theorem Ready.frame {s t : Sender} (ready : Ready s t) : s.Frame t := by
  cases ready with
  | same | unpersist | shut => exact ⟨rfl, rfl, rfl, rfl, rfl, rfl, rfl, rfl⟩

theorem Sender.refin_frame (s : Sender) (fin : Bool) : s.Frame (s.refin fin) := by
  unfold Sender.refin
  split
  · exact ⟨rfl, rfl, rfl, rfl, rfl, rfl, rfl, rfl⟩
  · exact .refl s

theorem Sender.raiseMax_frame (s : Sender) (n : Seq) : s.Frame (s.raiseMax n) := by
  unfold Sender.raiseMax
  split
  · exact ⟨rfl, rfl, rfl, rfl, rfl, rfl, rfl, rfl⟩
  · exact .refl s

theorem Sender.setRexmt_frame (s : Sender) (r : Bool) : s.Frame (s.setRexmt r) := by
  unfold Sender.setRexmt
  split
  · exact ⟨rfl, rfl, rfl, rfl, rfl, rfl, rfl, rfl⟩
  · exact .refl s

theorem Sender.advance_frame (s : Sender) (len : Nat) (syn fin r : Bool) :
    s.Frame (s.advance len syn fin r) := by
  unfold Sender.advance
  split
  · have taken : s.Frame (s.takeNumbers len syn fin) := ⟨rfl, rfl, rfl, rfl, rfl, rfl, rfl, rfl⟩
    exact (taken.trans (Sender.raiseMax_frame _ _)).trans (Sender.setRexmt_frame _ _)
  · exact s.raiseMax_frame _

theorem Passes.frame {s t : Sender} {o : Option Seq} {again : Bool} (pass : Passes s o again t) :
    s.Frame t := by
  cases pass with
  | rest ready => exact ready.frame
  | persist ready _ _ _ => exact ready.frame.trans ⟨rfl, rfl, rfl, rfl, rfl, rfl, rfl, rfl⟩
  | send ready _ _ =>
    exact (ready.frame.trans (Sender.refin_frame _ _)).trans (Sender.advance_frame _ _ _ _ _)

theorem Outputs.frame {s t : Sender} {fins : List Seq} (outputs : Outputs s fins t) :
    s.Frame t := by
  induction outputs with
  | last pass => exact pass.frame
  | more pass _ ih => exact pass.frame.trans ih

/-- What is allowed where things can go wrong: the state in which `tcp_output` is called,
`snd_una` and the ACK that ends SYN_RECEIVED, a FIN and a close that end it, and the state in
which urgent data is sent. -/
structure Guard where
  output : Sender → Prop
  establish : Seq → Seq → Prop
  early : Prop
  abandon : Prop
  urgent : TcpState → Prop

def Sender.settled (s : Sender) : Sender :=
  if s.state = .synReceived then { s with state := .established } else s

def Sender.ended (s : Sender) (ourfinisacked : Bool) : Sender :=
  if ourfinisacked then
    match s.state with
    | .finWait1 => { s with state := .finWait2 }
    | .closing => { s with state := .timeWait, rexmt := false, persist := false }
    | _ => s
  else s

def Sender.ackRexmt (s : Sender) (ack : Seq) (r : Bool) : Sender :=
  { s with rexmt := if ack = s.max then false else if s.persist then s.rexmt else r }

def Sender.dropAcked (s : Sender) (ack nxt : Seq) (w : Bool) : Sender :=
  { s with una := ack, nxt := nxt, cc := s.cc - (ack - s.una).toNat, window := w }

/-- What an ACK of something new does; `w` is whether it leaves the window open. -/
def Sender.acked (s : Sender) (ack nxt : Seq) (r w : Bool) : Sender :=
  ((s.ackRexmt ack r).dropAcked ack nxt w).ended (decide ((ack - s.una).toNat > s.cc))

def Sender.fin (s : Sender) : Sender :=
  match s.state with
  | .synReceived => { s with state := .closeWait }
  | .established => { s with state := .closeWait }
  | .finWait1 => { s with state := .closing }
  | .finWait2 => { s with state := .timeWait, rexmt := false, persist := false, shut := true }
  | _ => s

def Sender.close (s : Sender) : Sender :=
  match s.state with
  | .synReceived => { s with state := .finWait1, shut := true }
  | .established => { s with state := .finWait1, shut := true }
  | .closeWait => { s with state := .lastAck, shut := true }
  | _ => { s with shut := true }

inductive Moves (G : Guard) : Sender → List Seq → Sender → Prop where
  -- segments
  | syn {s} (iss) : s.state = .listen →
      Moves G s [] { s with state := .synReceived, iss := iss, una := iss, nxt := iss, max := iss }
  | synAck {s} (ack) : s.state = .synSent → SEQ_GT ack s.iss → SEQ_LEQ ack s.max →
      Moves G s [] { s with state := .established, rexmt := false, una := ack,
                            nxt := if SEQ_LT s.nxt ack then ack else s.nxt }
  | synOnly {s} : s.state = .synSent → Moves G s [] { s with state := .synReceived, rexmt := false }
  | establish {s} (ack) : s.state = .synReceived → SEQ_LEQ ack s.una → G.establish s.una ack →
      Moves G s [] s.settled
  | acked {s} (ack nxt r w) : s.state.haveRcvdSyn → SEQ_GT ack s.una → SEQ_LEQ ack s.max →
      (s.state = .synReceived → G.establish s.una ack) →
      (s.state = .lastAck → (ack - s.una).toNat ≤ s.cc) →
      nxt = (if SEQ_LT s.nxt ack then ack else s.nxt) ∨ nxt = s.nxt ∧ s.nxt = s.max →
      Moves G s [] (s.settled.acked ack nxt r w)
  | window {s} (w) : TcpState.established.num ≤ s.state.num → Moves G s [] { s with window := w }
  | queue {s} (segs) : s.state.haveRcvdSyn → Moves G s [] { s with segs := segs }
  | fin {s} : (s.state = .synReceived → G.early) → Moves G s [] s.fin
  | shut (s) : Moves G s [] { s with shut := true }
  -- output
  | outputs {s fins t} : G.output s → Outputs s fins t → Moves G s fins t
  | retransmit {s fins t} : G.output { s with rexmt := false, nxt := s.una } →
      Outputs { s with rexmt := false, nxt := s.una } fins t →
      Moves G s fins { t with nxt := if SEQ_GT s.nxt t.nxt then s.nxt else t.nxt }
  -- requests
  | connect {s} (iss) : s.state = .closed →
      Moves G s [] { s with state := .synSent, iss := iss, una := iss, nxt := iss, max := iss }
  | close {s} : (s.state = .synReceived → G.abandon) → Moves G s [] s.close
  | force {s} (force) : (force = true → s.persist = true ∨ G.urgent s.state) →
      Moves G s [] { s with force := force }
  -- timeouts
  | timeout {s} (r) : s.rexmt = true → Moves G s [] { s with rexmt := r, nxt := s.una }

inductive Path (G : Guard) : Sender → List Seq → Sender → Prop where
  | nil (s) : Path G s [] s
  | cons {s fins t fins' u} : Moves G s fins t → Path G t fins' u → Path G s (fins ++ fins') u

variable {G : Guard}

theorem Path.one {s t : Sender} {fins : List Seq} (move : Moves G s fins t) : Path G s fins t := by
  have path := Path.cons move (.nil t)
  rwa [List.append_nil] at path

theorem Path.append {s t u : Sender} {fins fins' : List Seq} (first : Path G s fins t)
    (second : Path G t fins' u) : Path G s (fins ++ fins') u := by
  induction first with
  | nil s => exact second
  | cons move rest ih =>
    rw [List.append_assoc]
    exact .cons move (ih second)

theorem Path.invariant {I : Sender → List Seq → Prop}
    (preserved : ∀ s fins t fins', I s fins → Moves G s fins' t → I t (fins ++ fins'))
    {s t : Sender} {fins fins' : List Seq} (path : Path G s fins' t) (initial : I s fins) :
    I t (fins ++ fins') := by
  induction path generalizing fins with
  | nil s =>
    rw [List.append_nil]
    exact initial
  | cons move rest ih =>
    rw [← List.append_assoc]
    exact ih (preserved _ _ _ _ initial move)

end Machine

section Exclusive

variable {G : Guard}

def Sender.Exclusive (s : Sender) : Prop := s.rexmt = false ∨ s.persist = false

theorem Ready.exclusive {s t : Sender} (ready : Ready s t) (exclusive : s.Exclusive) :
    t.Exclusive := by
  cases ready with
  | same _ => exact exclusive
  | unpersist => exact .inr rfl
  | shut => exact .inl rfl

theorem Sender.refin_exclusive {s : Sender} {fin : Bool} (exclusive : s.Exclusive) :
    (s.refin fin).Exclusive := by
  unfold Sender.refin
  split
  · exact exclusive
  · exact exclusive

theorem Sender.raiseMax_exclusive {s : Sender} {n : Seq} (exclusive : s.Exclusive) :
    (s.raiseMax n).Exclusive := by
  unfold Sender.raiseMax
  split
  · exact exclusive
  · exact exclusive

theorem Sender.advance_exclusive {s : Sender} {len : Nat} {syn fin r : Bool}
    (exclusive : s.Exclusive) :
    (s.advance len syn fin r).Exclusive := by
  unfold Sender.advance
  split
  · have taken : (s.takeNumbers len syn fin).Exclusive := exclusive
    simp only [Sender.setRexmt]
    split
    · exact .inr rfl
    · exact Sender.raiseMax_exclusive taken
  · exact Sender.raiseMax_exclusive exclusive

theorem Passes.exclusive {s t : Sender} {o : Option Seq} {again : Bool} (pass : Passes s o again t)
    (exclusive : s.Exclusive) : t.Exclusive := by
  cases pass with
  | rest ready => exact ready.exclusive exclusive
  | persist _ off _ _ => exact .inl off
  | send ready _ _ =>
    exact Sender.advance_exclusive (Sender.refin_exclusive (ready.exclusive exclusive))

theorem Outputs.exclusive {s t : Sender} {fins : List Seq} (outputs : Outputs s fins t)
    (exclusive : s.Exclusive) : t.Exclusive := by
  induction outputs with
  | last pass => exact pass.exclusive exclusive
  | more pass _ ih => exact ih (pass.exclusive exclusive)

theorem Sender.ackRexmt_exclusive {s : Sender} {ack : Seq} {r : Bool} (exclusive : s.Exclusive) :
    (s.ackRexmt ack r).Exclusive := by
  by_cases persist : s.persist = true
  · have off : s.rexmt = false := exclusive.resolve_right (by rw [persist]; rintro ⟨⟩)
    left
    simp [Sender.ackRexmt, persist, off]
  · exact .inr (Bool.eq_false_iff.mpr persist)

theorem Sender.ended_exclusive {s : Sender} {fin : Bool} (exclusive : s.Exclusive) :
    (s.ended fin).Exclusive := by
  unfold Sender.ended
  split
  · split
    · exact exclusive
    · exact .inl rfl
    · exact exclusive
  · exact exclusive

theorem Sender.settled_exclusive {s : Sender} (exclusive : s.Exclusive) : s.settled.Exclusive := by
  unfold Sender.settled
  split
  · exact exclusive
  · exact exclusive

theorem Sender.close_exclusive {s : Sender} (exclusive : s.Exclusive) : s.close.Exclusive := by
  unfold Sender.close
  split
  · exact exclusive
  · exact exclusive
  · exact exclusive
  · exact exclusive

theorem Moves.exclusive {s t : Sender} {fins : List Seq} (move : Moves G s fins t)
    (exclusive : s.Exclusive) : t.Exclusive := by
  cases move with
  | syn | window | queue | shut | connect | force => exact exclusive
  | synAck | synOnly => exact .inl rfl
  | establish => exact Sender.settled_exclusive exclusive
  | acked ack nxt r w =>
    apply Sender.ended_exclusive
    exact Sender.ackRexmt_exclusive (Sender.settled_exclusive exclusive)
  | fin =>
    unfold Sender.fin
    split
    · exact exclusive
    · exact exclusive
    · exact exclusive
    · exact .inl rfl
    · exact exclusive
  | outputs _ outputs => exact outputs.exclusive exclusive
  | retransmit _ outputs =>
    have after := outputs.exclusive (.inl rfl)
    exact after
  | close => exact Sender.close_exclusive exclusive
  | timeout r running =>
    right
    exact exclusive.resolve_left (by rw [running]; rintro ⟨⟩)

theorem Path.exclusive {s t : Sender} {fins : List Seq} (path : Path G s fins t)
    (exclusive : s.Exclusive) :
    t.Exclusive := by
  induction path with
  | nil => exact exclusive
  | cons move _ ih => exact ih (move.exclusive exclusive)

end Exclusive
end FreeBsd.Netinet.Tcp
