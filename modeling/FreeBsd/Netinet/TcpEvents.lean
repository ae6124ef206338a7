import FreeBsd.Netinet.TcpMoves

/-! What segments, requests and timeouts do to the sending side of a connection, over whole
runs; the retransmit and the persist timer never run at the same time. -/
namespace FreeBsd.Netinet.Tcp

open FreeBsd.Lib

section Events

variable {G : Guard} {out : Output}

structure Sound (G : Guard) (out : Output) : Prop where
  moves : ∀ env tp tp' outs, out env tp = .ok (tp', outs) →
    G.output tp.sender ∧ Outputs tp.sender (finNumbers outs) tp'.sender
  safe : ∀ env tp, out env tp ≠ .error .rexmt

/-- If a call leaves a connection, the sender has come to it by its moves; and the call does
not fail in `tcp_setpersist` if not both timers run before it. -/
structure Follows (G : Guard) (s : Sender) (r : Result) : Prop where
  path : ∀ tp' outs, r = .ok (some tp', outs) → Path G s (finNumbers outs) tp'.sender
  safe : s.Exclusive → r ≠ .error .rexmt

theorem Follows.after {s t : Sender} {r : Result} (follows : Follows G t r) (path : Path G s [] t) :
    Follows G s r where
  path tp' outs done := path.append (follows.path tp' outs done)
  safe exclusive := follows.safe (path.exclusive exclusive)

theorem follows_some {s : Sender} {tp : Tcb} (path : Path G s [] tp.sender) :
    Follows G s (.ok (some tp, [])) := by
  constructor
  · intro tp' outs done
    cases done
    exact path
  · rintro _ ⟨⟩

theorem follows_none (s : Sender) (outs : List Out) : Follows G s (.ok (none, outs)) := by
  constructor
  · intro tp' outs done
    cases done
  · rintro _ ⟨⟩

theorem follows_error {s : Sender} {fault : Fault} (other : s.Exclusive → fault ≠ .rexmt) :
    Follows G s (.error fault) := by
  constructor
  · intro tp' outs done
    cases done
  · intro exclusive same
    cases same
    exact other exclusive rfl

theorem called_follows (sound : Sound G out) {s : Sender} {env : Env} {tp : Tcb} {f : Tcb → Tcb}
    (after : ∀ tp' fins, G.output tp.sender → Outputs tp.sender fins tp'.sender →
      Path G s fins (f tp').sender) :
    Follows G s (outputThen out env tp f) := by
  unfold outputThen
  cases called : out env tp with
  | error fault =>
    apply follows_error
    intro _ rexmt
    exact sound.safe env tp (rexmt ▸ called)
  | ok r =>
    constructor
    · intro tp' outs done
      cases done
      obtain ⟨allowed, outputs⟩ := sound.moves env tp r.1 r.2 called
      exact after r.1 _ allowed outputs
    · rintro _ ⟨⟩

theorem outputThen_follows (sound : Sound G out) (env : Env) (tp : Tcb) {f : Tcb → Tcb}
    (after : ∀ tp', Path G tp'.sender [] (f tp').sender) :
      Follows G tp.sender (outputThen out env tp f) := by
  apply called_follows sound
  intro tp' fins allowed outputs
  have path := (Path.one (.outputs allowed outputs)).append (after tp')
  rwa [List.append_nil] at path

theorem outputThen_id (sound : Sound G out) (env : Env) (tp : Tcb) :
    Follows G tp.sender (outputThen out env tp id) :=
  outputThen_follows sound env tp fun tp' => .nil tp'.sender

theorem drop_follows (sound : Sound G out) (s : Sender) (env : Env) (tp : Tcb) :
    Follows G s (tcpDrop out env tp) := by
  unfold tcpDrop outputClose
  split
  · cases called : out env { tp with state := .closed } with
    | error fault =>
      apply follows_error
      intro _ rexmt
      exact sound.safe env _ (rexmt ▸ called)
    | ok r => exact follows_none s r.2
  · exact follows_none s []

theorem perform_follows (sound : Sound G out) {s : Sender} {e : Exit} (env : Env)
    (leaves : Leaves G s e) :
    Follows G s (perform out env e) := by
  cases e with
  | done tp => exact follows_some leaves
  | closed => exact follows_none s []
  | output tp => exact (outputThen_id sound env tp).after leaves
  | dropped tp => exact drop_follows sound s env tp
  | panic fault => exact follows_error fun _ => leaves
  | retransmit tp onxt =>
    obtain ⟨t, path, before, rfl⟩ := leaves
    apply Follows.after _ path
    apply called_follows sound
    intro tp' fins allowed outputs
    rw [before] at allowed outputs
    exact .one (.retransmit allowed outputs)

theorem usrclosed_sender {tp tp' : Tcb} (shut : tp.cantsendmore = true)
    (closed : tcpUsrclosed tp = some tp') :
    tp'.sender = tp.sender.close := by
  have same : tp.sender = { tp.sender with shut := true } := by
    simp [Tcb.sender, shut]
  unfold tcpUsrclosed at closed
  unfold Sender.close
  cases state : tp.state with
  | closed | listen | synSent =>
    rw [state] at closed
    cases closed
  | synReceived | established | closeWait =>
    rw [state] at closed
    cases closed
    simp [Tcb.sender, state, shut]
  | finWait2 | timeWait =>
    rw [state] at closed
    cases closed
    simp [Tcb.sender, state, soisdisconnected]
  | finWait1 | closing | lastAck =>
    rw [state] at closed
    cases closed
    simp [Tcb.sender, state, shut]

theorem usrclosed_moves (tp : Tcb) {tp' : Tcb}
    (closed : tcpUsrclosed { tp with cantsendmore := true } = some tp')
    (abandon : tp.state = .synReceived → G.abandon) : Path G tp.sender [] tp'.sender := by
  rw [usrclosed_sender rfl closed]
  exact .cons (.shut _) (.one (.close abandon))

theorem disconnect_follows (sound : Sound G out) (env : Env) (tp : Tcb) :
    Follows G tp.sender (tcpDisconnect out env tp) := by
  unfold tcpDisconnect
  split
  · exact follows_none _ _
  · rename_i synchronized
    split
    · exact drop_follows sound _ _ _
    · split
      · exact follows_none _ _
      · rename_i tp' closed
        apply (outputThen_id sound env tp').after
        apply usrclosed_moves { tp with cantrcvmore := true, soRcv := [] } closed
        intro state
        rw [show tp.state = .synReceived from state] at synchronized
        exact absurd (by decide) synchronized

def Promised (G : Guard) (tp : Tcb) : Event → Prop
  | .segment inEnv ti _ =>
    (tp.state = .synReceived →
      (beforeAck inEnv (arrived inEnv (received inEnv tp ti) ti)).isOk = true →
      G.establish tp.sndUna ti.ack) ∧
      (¬ tp.state.haveRcvdSyn → OnlySynFin ti.flags ti.len → G.early)
  | .request _ (.sendoob _ _) => G.urgent tp.state
  | .request _ .shutdown => tp.state = .synReceived → G.abandon
  | _ => True

def Event.fed : Event → List Byte
  | .request _ (.send m) => m
  | .request _ (.sendoob full m) => if full then [] else m
  | _ => []

def Sender.feed (s : Sender) (n : Nat) : Sender := { s with cc := s.cc + n }

theorem append_sender (tp : Tcb) (m : List Byte) :
    { tp with soSnd := tp.soSnd ++ m }.sender = tp.sender.feed m.length :=
  congrArg (fun cc => { tp.sender with cc := cc }) List.length_append

theorem usrreq_follows (sound : Sound G out) (env : Env) (tp : Tcb) (req : Request)
    (promised : Promised G tp (.request env req)) :
    Follows G (tp.sender.feed (Event.request env req).fed.length) (tcpUsrreq out env tp req) := by
  cases req with
  | connect template iss =>
    simp only [tcpUsrreq]
    split
    · exact follows_some (.nil _)
    · rename_i unconnected
      have closed : tp.state = .closed := by
        by_contra other
        exact unconnected (.inl other)
      apply (outputThen_id sound env _).after
      exact .one (.connect iss closed)
  | disconnect => exact disconnect_follows sound env tp
  | detach =>
    simp only [tcpUsrreq]
    split
    · exact disconnect_follows sound env { tp with nofdref := true }
    · exact follows_none _ _
  | shutdown =>
    simp only [tcpUsrreq]
    split
    · exact follows_none _ _
    · rename_i tp' closed
      exact (outputThen_id sound env tp').after (usrclosed_moves tp closed promised)
  | rcvd count => exact outputThen_id sound env { tp with soRcv := tp.soRcv.drop count }
  | send m =>
    have follows := outputThen_id sound env { tp with soSnd := tp.soSnd ++ m }
    rwa [append_sender] at follows
  | sendoob full m =>
    cases full with
    | true => exact follows_some (.nil _)
    | false =>
      have follows := outputThen_follows sound env
        { tp with soSnd := tp.soSnd ++ m, force := true,
                  sndUp := tp.sndUna + BitVec.ofNat 32 (tp.soSnd ++ m).length }
        (f := fun tp => { tp with force := false }) fun tp' => .one (.force false (by rintro ⟨⟩))
      have forced : Moves G { tp with soSnd := tp.soSnd ++ m }.sender [] _ :=
        .force true fun _ => .inr promised
      have follows := follows.after (.one forced)
      rwa [append_sender] at follows
  | abort => exact drop_follows sound _ _ _
  | nodelay on => exact follows_some (.nil _)
  | sockopt keepalive oobinline linger0 => exact follows_some (.nil _)
  | reserve snd rcv => exact follows_some (.nil _)
  | sorflush => exact follows_some (.nil _)

theorem andThen_follows {s : Sender} {r : Result} {f : Tcb → Result} (first : Follows G s r)
    (next : ∀ tp, Follows G tp.sender (f tp)) : Follows G s (andThen r f) := by
  unfold andThen
  split
  · rename_i fault
    apply follows_error
    intro exclusive rexmt
    exact first.safe exclusive (rexmt ▸ rfl)
  · exact follows_none s _
  · rename_i tp₁ outs₁
    have path := first.path tp₁ outs₁ rfl
    split
    · rename_i fault called
      apply follows_error
      intro exclusive rexmt
      exact (next tp₁).safe (path.exclusive exclusive) (rexmt ▸ called)
    · rename_i tp₂ outs₂ called
      constructor
      · intro tp' outs done
        cases done
        have both := path.append ((next tp₁).path tp' outs₂ called)
        rwa [finNumbers, finNumbers, ← List.filterMap_append] at both
      · rintro _ ⟨⟩

theorem resend_sender (tp : Tcb) : ∃ r, (resend (clobberSrtt (backoff tp))).sender =
    { tp.sender with rexmt := r, nxt := tp.sender.una } := by
  have clobbered : ∀ tp, (resend (clobberSrtt tp)).sender =
    { tp.sender with nxt := tp.sender.una } := by
    intro tp
    unfold clobberSrtt
    split
    · rfl
    · rfl
  rw [clobbered]
  exact ⟨_, rfl⟩

theorem rexmt_follows (sound : Sound G out) (env : Env) (tp : Tcb) : Follows G tp.sender
    (countdown Tcb.rexmt (fun tp t => { tp with rexmt := t }) (rexmtTimer out env) tp) := by
  unfold countdown
  split
  · exact follows_some (.nil _)
  · rename_i running
    have before : tp.sender.rexmt = true := decide_eq_true running
    split
    · unfold rexmtTimer
      split
      · exact drop_follows sound _ _ _
      · apply (outputThen_id sound env _).after
        obtain ⟨r, sender⟩ := resend_sender { tp with rexmt := 0 }
        rw [sender]
        exact .one (.timeout r before)
    · rename_i left
      apply follows_some
      apply Path.refl
      simp [Tcb.sender, running, left]

theorem persist_follows (sound : Sound G out) (env : Env) (tp : Tcb) : Follows G tp.sender
    (countdown Tcb.persist (fun tp t => { tp with persist := t }) (persistTimer out env) tp) := by
  unfold countdown
  split
  · exact follows_some (.nil _)
  · rename_i running
    have before : tp.sender.persist = true := decide_eq_true running
    split
    · unfold persistTimer
      split
      · rename_i fault failed
        apply follows_error
        intro exclusive
        have off : tp.rexmt = 0 := by
          have resolved := exclusive.resolve_right (by rw [before]; rintro ⟨⟩)
          simpa [Tcb.sender] using resolved
        rw [tcpSetpersist, if_neg (not_not.mpr off)] at failed
        cases failed
      · rename_i tp₁ set
        have sender : tp₁.sender = tp.sender := by
          rw [(setpersist_sender set).2]
          simp [Tcb.sender, running]
        have follows := outputThen_follows sound env { tp₁ with force := true }
          (f := fun tp => { tp with force := false }) fun tp' => .one (.force false (by rintro ⟨⟩))
        apply follows.after
        rw [← sender] at before ⊢
        exact .one (.force true fun _ => .inl before)
    · rename_i left
      apply follows_some
      apply Path.refl
      simp [Tcb.sender, running, left]

theorem keep_follows (sound : Sound G out) (env : Env) (tp : Tcb) : Follows G tp.sender
    (countdown Tcb.keep (fun tp t => { tp with keep := t }) (keepTimer out env) tp) := by
  unfold countdown
  split
  · exact follows_some (.nil _)
  · split
    · unfold keepTimer
      split
      · exact drop_follows sound _ _ _
      · split
        · split
          · exact drop_follows sound _ _ _
          · exact follows_some (.nil _)
        · exact follows_some (.nil _)
    · exact follows_some (.nil _)

theorem msl_follows (tp : Tcb) : Follows G tp.sender
    (countdown Tcb.msl (fun tp t => { tp with msl := t }) mslTimer tp) := by
  unfold countdown
  split
  · exact follows_some (.nil _)
  · split
    · unfold mslTimer
      split
      · exact follows_some (.nil _)
      · exact follows_none _ _
    · exact follows_some (.nil _)

theorem slowtimo_follows (sound : Sound G out) (env : Nat → Env) (tp : Tcb) :
    Follows G tp.sender (tcpSlowtimo out env tp) := by
  have first := rexmt_follows sound (env 0) tp
  have second := andThen_follows first (persist_follows sound (env 1))
  have third := andThen_follows second (keep_follows sound (env 2))
  have fourth := andThen_follows third msl_follows
  unfold tcpSlowtimo
  dsimp only
  apply andThen_follows fourth
  intro tp'
  exact follows_some (.nil _)

theorem fasttimo_follows (sound : Sound G out) (env : Env) (tp : Tcb) :
    Follows G tp.sender (tcpFasttimo out env tp) := by
  unfold tcpFasttimo
  split
  · exact outputThen_id sound env { tp with delack := false, acknow := true }
  · exact follows_some (.nil _)

def Sender.Fresh (s : Sender) : Prop := ¬ s.state.haveRcvdSyn → s.segs = []

theorem Sender.settled_segs (s : Sender) : s.settled.segs = s.segs := by
  unfold Sender.settled
  split
  · rfl
  · rfl

theorem Sender.ended_segs (s : Sender) (fin : Bool) : (s.ended fin).segs = s.segs := by
  unfold Sender.ended
  split
  · split
    · rfl
    · rfl
    · rfl
  · rfl

theorem Sender.close_segs (s : Sender) : s.close.segs = s.segs := by
  unfold Sender.close
  split
  · rfl
  · rfl
  · rfl
  · rfl

theorem Moves.fresh {s t : Sender} {fins : List Seq} (move : Moves G s fins t) (fresh : s.Fresh) :
    t.Fresh := by
  intro unsynchronized
  have before : ¬ s.state.haveRcvdSyn := fun rcvd => unsynchronized (move.rcvd rcvd)
  have nothing := fresh before
  cases move with
  | syn | synAck | synOnly | window | shut | force | timeout | connect => exact nothing
  | establish => exact s.settled_segs.trans nothing
  | acked ack nxt r w => exact (Sender.ended_segs _ _).trans (s.settled_segs.trans nothing)
  | queue _ rcvd => exact absurd rcvd before
  | fin =>
    unfold Sender.fin
    split
    · exact nothing
    · exact nothing
    · exact nothing
    · exact nothing
    · exact nothing
  | close => exact s.close_segs.trans nothing
  | outputs _ outputs => exact outputs.frame.segs.trans nothing
  | retransmit _ outputs => exact outputs.frame.segs.trans nothing

/-- Whatever happens to a connection is a path of its sender, once it has its data. -/
theorem handle_follows (sound : Sound G out) (tp : Tcb) (event : Event) (fresh : tp.sender.Fresh)
    (promised : Promised G tp event) :
    Follows G (tp.sender.feed event.fed.length) (handle out tp event) := by
  cases event with
  | segment inEnv ti env =>
    have sender := received_sender inEnv tp ti
    have state : (received inEnv tp ti).state = tp.state := congrArg Sender.state sender
    have una : (received inEnv tp ti).sndUna = tp.sndUna := congrArg Sender.una sender
    have admitted : Admitted G inEnv (received inEnv tp ti) ti := by
      constructor
      · rw [state, show (received inEnv tp ti).segs = tp.segs from congrArg Sender.segs sender]
        exact fresh
      · rw [state, una]
        exact promised.1
      · rw [state]
        exact promised.2
    exact perform_follows sound env (input_leaves inEnv tp ti admitted)
  | request env req => exact usrreq_follows sound env tp req promised
  | slowtimo env => exact slowtimo_follows sound env tp
  | fasttimo env => exact fasttimo_follows sound env tp
  | quench => exact follows_some (.nil _)

theorem rest_safe (p : Plan) : p.rest ≠ .error .rexmt := by
  unfold Plan.rest
  split
  · rename_i idle
    rw [tcpSetpersist, if_neg (not_not.mpr idle.2.1)]
    rintro ⟨⟩
  · rintro ⟨⟩

theorem transmit_safe (env : Env) (a : Attempt) (p : Plan) : transmit env a p ≠ .error .rexmt := by
  simp only [transmit]
  split
  · rintro ⟨⟩
  · split
    · rintro ⟨⟩
    · split
      · rintro ⟨⟩
      · rintro ⟨⟩

theorem pass_safe (env : Env) (k : Nat) (idle : Bool) (tp : Tcb) :
    pass env k idle tp ≠ .error .rexmt := by
  simp only [pass]
  split
  · exact transmit_safe _ _ _
  · split
    · rintro ⟨⟩
    · rename_i fault failed
      intro rexmt
      cases rexmt
      exact rest_safe _ failed

theorem passes_safe (env : Env) (fuel k : Nat) (idle : Bool) (tp : Tcb) :
    passes env fuel k idle tp ≠ .error .rexmt := by
  induction fuel generalizing k tp with
  | zero => rintro ⟨⟩
  | succ fuel ih =>
    simp only [passes]
    split
    · rename_i fault failed
      intro rexmt
      cases rexmt
      exact pass_safe _ _ _ _ failed
    · split
      · split
        · rename_i fault failed
          intro rexmt
          cases rexmt
          exact ih _ _ failed
        · rintro ⟨⟩
      · rintro ⟨⟩

end Events

section Runs

/-- `tcp_output` under a bound on its passes, where it is called as `allowed`. -/
def guarded (allowed : Sender → Prop) [DecidablePred allowed] (fuel : Nat) : Output :=
  fun env tp => if allowed tp.sender then tcpOutput env fuel tp else .error .fuel

theorem guarded_sound (G : Guard) [DecidablePred G.output] (fuel : Nat) :
    Sound G (guarded G.output fuel) := by
  constructor
  · intro env tp tp' outs done
    unfold guarded at done
    split at done
    · rename_i allowed
      exact ⟨allowed, output_outputs done⟩
    · cases done
  · intro env tp
    unfold guarded
    split
    · exact passes_safe _ _ _ _ _
    · rintro ⟨⟩

/-- A step in which `tcp_output` is called only as `allowed`. -/
def StepIn (allowed : Sender → Prop) [DecidablePred allowed] (tp : Tcb) (event : Event)
    (tp' : Tcb) : Prop :=
  ∃ fuel outs, handle (bounded fuel) tp event = .ok (some tp', outs) ∧
    handle (guarded allowed fuel) tp event = .ok (some tp', outs)

/-- The state after a step in which `tcp_output` is called only as `allowed`. -/
def stepIn (allowed : Sender → Prop) [DecidablePred allowed] (fuel : Nat) (tp : Tcb)
    (event : Event) :
    Option Tcb :=
  match handle (bounded fuel) tp event, handle (guarded allowed fuel) tp event with
  | .ok (some tp', outs), .ok (some tp'', outs') =>
    if tp' = tp'' ∧ outs = outs' then some tp' else none
  | _, _ => none

theorem stepIn_sound {allowed : Sender → Prop} [DecidablePred allowed] {fuel : Nat} {tp : Tcb}
    {event : Event} {tp' : Tcb} (found : stepIn allowed fuel tp event = some tp') :
    StepIn allowed tp event tp' := by
  unfold stepIn at found
  split at found
  · rename_i first second
    split at found
    · rename_i same
      cases found
      rw [← same.1, ← same.2] at second
      exact ⟨fuel, _, first, second⟩
    · cases found
  · cases found

theorem StepIn.step {allowed : Sender → Prop} [DecidablePred allowed] {tp tp' : Tcb} {event : Event}
    (step : StepIn allowed tp event tp') : Step tp event tp' := by
  obtain ⟨fuel, outs, done, -⟩ := step
  exact ⟨fuel, outs, done⟩

def Event.data : Event → Option (List Byte)
  | .request _ (.send m) => some m
  | .request _ (.sendoob _ m) => some m
  | _ => none

/-- What `sosend` promises of the data that it hands over: the socket is connected and can
send, and the data fits, with the excess that out-of-band data is granted. -/
def Sosend (tp : Tcb) (event : Event) : Prop :=
  ∀ m ∈ event.data, TcpState.established.num ≤ tp.state.num ∧ tp.cantsendmore = false ∧
    tp.soSnd.length + m.length ≤ SB_MAX + 1024

instance (tp : Tcb) (event : Event) : Decidable (Sosend tp event) :=
  inferInstanceAs (Decidable (∀ m ∈ event.data, _))

theorem Sosend.room {tp : Tcb} {event : Event} (sosend : Sosend tp event) : event.fed.length = 0 ∨
    TcpState.established.num ≤ tp.state.num ∧ tp.cantsendmore = false ∧
      tp.soSnd.length + event.fed.length ≤ SB_MAX + 1024 := by
  cases event with
  | request env req =>
    cases req with
    | send m => exact .inr (sosend m rfl)
    | sendoob full m =>
      cases full with
      | true => exact .inl rfl
      | false => exact .inr (sosend m rfl)
    | _ => exact .inl rfl
  | segment | slowtimo | fasttimo | quench => exact .inl rfl

section Samples

/-- Surroundings in which nothing fails, and in which `m_copy` does. -/
def ample : Env := ⟨65536, 16, none, fun _ => ⟨true, true, none⟩⟩
def scarce : Env := ⟨65536, 16, none, fun _ => ⟨true, false, none⟩⟩
def ampleIn : InEnv := ⟨65536, false, none, false, true, true, 1000⟩

def bare (flags : Flags) (seq ack : Seq) (win : Nat) (env : Env) : Event :=
  .segment ampleIn ⟨seq, ack, win, 0, flags, 0, [], none⟩ env

def ackFlags : Flags := ⟨false, false, false, false, true, false⟩
def synFlags : Flags := ⟨false, true, false, false, false, false⟩
def synAckFlags : Flags := ⟨false, true, false, false, true, false⟩

end Samples

def anything : Guard := ⟨fun _ => True, fun _ _ => True, True, True, fun _ => True⟩

theorem Path.fresh {G : Guard} {s t : Sender} {fins : List Seq} (path : Path G s fins t)
    (fresh : s.Fresh) :
    t.Fresh := by
  induction path with
  | nil => exact fresh
  | cons move _ ih => exact ih (move.fresh fresh)

theorem begins_fresh {tp : Tcb} (begins : Begins tp) : tp.sender.Fresh ∧ tp.sender.Exclusive := by
  obtain ⟨sndHiwat, rcvHiwat, rfl | rfl⟩ := begins
  · exact ⟨fun _ => rfl, .inl rfl⟩
  · exact ⟨fun _ => rfl, .inl rfl⟩

end Runs
end FreeBsd.Netinet.Tcp
