import Mathlib.Data.List.Induction
import FreeBsd.Pppd.Fsm

/-! Whole runs of the automaton: its timer, the calls of `up` and `down`, and what has been
exchanged when it opens. -/
namespace FreeBsd.Pppd

open FreeBsd.Lib

section Exchange

variable {acts trace : List Action} {id : Byte} {f g : Fsm}

def IsReceived : Action → Prop
  | .received code _ => code = CONFREQ
  | _ => False

def IsRequest : Action → Prop
  | .output code _ _ => code = CONFREQ
  | _ => False

/-- A Configure-Request has been received, and the latest has been answered with a Configure-Ack. -/
def Answered : List Action → Prop :=
  Latest IsReceived fun a newer => ∃ id, a = .received CONFREQ id ∧
    ∃ data, .output CONFACK id data ∈ newer

def Requested (id : Byte) : List Action → Prop :=
  Latest IsRequest fun a _ => ∃ data, a = .output CONFREQ id data

/-- The latest Configure-Request that was sent has been answered by an accepted Configure-Ack of its
id. -/
def Acked : List Action → Prop :=
  Latest IsRequest fun a newer => ∃ id data, a = .output CONFREQ id data ∧ .ackci id true ∈ newer

def calls (trace : List Action) : List Action := trace.filter fun a => a = .up ∨ a = .down

def Quiet : Action → Prop
  | .received code _ => code ≠ CONFREQ
  | .output code _ _ => code ≠ CONFREQ
  | .up | .down => False
  | _ => True

theorem Quiet.not_received {a : Action} (quiet : Quiet a) : ¬ IsReceived a := by
  cases a with
  | received code id => exact quiet
  | _ => exact id

theorem Quiet.not_request {a : Action} (quiet : Quiet a) : ¬ IsRequest a := by
  cases a with
  | output code id data => exact quiet
  | _ => exact id

theorem calls_quiet (quiet : ∀ a ∈ trace, Quiet a) : calls trace = [] := by
  refine List.filter_eq_nil_iff.mpr fun a member => ?_
  have here := quiet a member
  cases a with
  | up => exact here.elim
  | down => exact here.elim
  | _ => simp

theorem Answered.prepend (answered : Answered acts) (none : ∀ a ∈ trace, ¬ IsReceived a) :
    Answered (trace ++ acts) :=
  Latest.prepend answered none fun _ _ _ ⟨id, here, data, member⟩ =>
    ⟨id, here, data, List.mem_cons_of_mem _ member⟩

theorem Requested.prepend (requested : Requested id acts) (none : ∀ a ∈ trace, ¬ IsRequest a) :
    Requested id (trace ++ acts) :=
  Latest.prepend requested none fun _ _ _ here => here

theorem Acked.prepend (acked : Acked acts) (none : ∀ a ∈ trace, ¬ IsRequest a) :
    Acked (trace ++ acts) :=
  Latest.prepend acked none fun _ _ _ ⟨id, data, here, member⟩ =>
    ⟨id, data, here, List.mem_cons_of_mem _ member⟩

theorem Requested.cons {a : Action} (requested : Requested id acts) (other : ¬ IsRequest a) :
    Requested id (a :: acts) :=
  Latest.later requested other fun _ _ here => here

theorem Answered.cons {a : Action} (answered : Answered acts) (other : ¬ IsReceived a) :
    Answered (a :: acts) :=
  Latest.later answered other fun _ _ ⟨id, here, data, member⟩ =>
    ⟨id, here, data, List.mem_cons_of_mem _ member⟩

theorem Acked.cons {a : Action} (acked : Acked acts) (other : ¬ IsRequest a) : Acked (a :: acts) :=
  Latest.later acked other fun _ _ ⟨id, data, here, member⟩ =>
    ⟨id, data, here, List.mem_cons_of_mem _ member⟩

theorem Answered.now {data : List Byte} (none : ∀ a ∈ trace, ¬ IsReceived a) :
    Answered (.output CONFACK id data :: (trace ++ .received CONFREQ id :: acts)) := by
  refine ⟨.output CONFACK id data :: trace, .received CONFREQ id, acts, rfl, rfl, ?_, id, rfl, data,
    List.mem_cons_self⟩
  intro a member
  cases member with
  | head => exact not_false
  | tail _ member => exact none a member

theorem Requested.now {data : List Byte} : Requested id (.output CONFREQ id data :: acts) :=
  Latest.now rfl ⟨data, rfl⟩

theorem Requested.acked (requested : Requested id acts) : Acked (.ackci id true :: acts) := by
  refine Latest.after requested not_false fun a newer _ here => ?_
  obtain ⟨data, rfl⟩ := here
  exact ⟨id, data, rfl, List.mem_cons_self⟩

end Exchange

section Standing

variable {acts trace : List Action} {id : Byte} {f g : Fsm} {answers : Answers}

def waits : State → Nat
  | .reqsent | .ackrcvd | .acksent | .termsent => 1
  | .closed | .listen | .opened => 0

def Negotiates (s : State) : Prop := s = .reqsent ∨ s = .acksent ∨ s = .ackrcvd

structure Standing (acts : List Action) (f : Fsm) : Prop where
  lower : f.state ≠ .closed → f.lowerup = true
  timed : f.timeouts = waits f.state
  requested : Negotiates f.state → Requested f.reqid acts
  answered : f.state = .acksent → Answered acts
  acked : f.state = .ackrcvd → Acked acts

def shut (before : State) : List Action := if before = .opened then [.down] else []

def called (before after : State) : List Action :=
  if after ≠ .opened then shut before else if before = .opened then [] else [.up]

structure Keeps (acts : List Action) (before : State) (g : Fsm) : Prop where
  standing : Standing (g.trace ++ acts) g
  told : calls g.trace = called before g.state
  opens : before ≠ .opened → g.state = .opened → Answered (g.trace ++ acts) ∧
    Acked (g.trace ++ acts)

variable {before : State}

theorem Standing.congr (standing : Standing acts f) (state : g.state = f.state)
    (lowerup : g.lowerup = f.lowerup) (timeouts : g.timeouts = f.timeouts)
    (reqid : g.reqid = f.reqid) : Standing acts g := by
  constructor
  · rw [state, lowerup]
    exact standing.lower
  · rw [state, timeouts]
    exact standing.timed
  · rw [state, reqid]
    exact standing.requested
  · rw [state]
    exact standing.answered
  · rw [state]
    exact standing.acked

theorem Standing.stays (standing : Standing acts f) (state : g.state = f.state)
    (lowerup : g.lowerup = f.lowerup) (timeouts : g.timeouts = f.timeouts)
    (reqid : g.reqid = f.reqid) (quiet : ∀ a ∈ g.trace, Quiet a) :
    Keeps acts f.state g := by
  constructor
  · refine Standing.congr ⟨standing.lower, standing.timed, fun there => ?_, fun there => ?_,
      fun there => ?_⟩ state lowerup
      timeouts reqid
    · exact (standing.requested there).prepend fun a member => (quiet a member).not_request
    · exact (standing.answered there).prepend fun a member => (quiet a member).not_received
    · exact (standing.acked there).prepend fun a member => (quiet a member).not_request
  · rw [calls_quiet quiet, called, state]
    split
    · rename_i shut
      exact (if_neg shut).symm
    · rename_i opened
      exact (if_pos (not_not.mp opened)).symm
  · intro closed opened
    exact absurd (state.symm.trans opened) closed

theorem Keeps.rests (lower : g.state ≠ .closed → g.lowerup = true)
    (timed : g.timeouts = waits g.state)
    (state : g.state = .closed ∨ g.state = .listen ∨ g.state = .termsent)
    (told : calls g.trace = shut before) : Keeps acts before g := by
  constructor
  · refine ⟨lower, timed, fun wrong => ?_, fun wrong => ?_, fun wrong => ?_⟩
    · unfold Negotiates at wrong
      rcases state with here | here | here <;> simp [here] at wrong
    · simp [wrong] at state
    · simp [wrong] at state
  · rw [told, called, if_pos]
    rcases state with here | here | here <;> simp [here]
  · intro _ wrong
    simp [wrong] at state

theorem Keeps.reqsent (state : g.state = .reqsent) (lower : g.lowerup = true)
    (timed : g.timeouts = 1) (requested : Requested g.reqid (g.trace ++ acts))
    (told : calls g.trace = shut before) :
    Keeps acts before g := by
  constructor
  · refine ⟨fun _ => lower, ?_, fun _ => requested, fun wrong => ?_, fun wrong => ?_⟩
    · rw [timed, state]
      rfl
    · cases state.symm.trans wrong
    · cases state.symm.trans wrong
  · rw [told, state]
    rfl
  · intro _ wrong
    cases state.symm.trans wrong

theorem Keeps.acksent (state : g.state = .acksent) (lower : g.lowerup = true)
    (timed : g.timeouts = 1) (requested : Requested g.reqid (g.trace ++ acts))
    (answered : Answered (g.trace ++ acts)) (told : calls g.trace = shut before) :
      Keeps acts before g := by
  constructor
  · refine ⟨fun _ => lower, ?_, fun _ => requested, fun _ => answered, fun wrong => ?_⟩
    · rw [timed, state]
      rfl
    · cases state.symm.trans wrong
  · rw [told, state]
    rfl
  · intro _ wrong
    cases state.symm.trans wrong

theorem Keeps.ackrcvd (state : g.state = .ackrcvd) (lower : g.lowerup = true)
    (timed : g.timeouts = 1) (requested : Requested g.reqid (g.trace ++ acts))
    (acked : Acked (g.trace ++ acts)) (told : calls g.trace = shut before) :
      Keeps acts before g := by
  constructor
  · refine ⟨fun _ => lower, ?_, fun _ => requested, fun wrong => ?_, fun _ => acked⟩
    · rw [timed, state]
      rfl
    · cases state.symm.trans wrong
  · rw [told, state]
    rfl
  · intro _ wrong
    cases state.symm.trans wrong

theorem Keeps.opened (state : g.state = .opened) (lower : g.lowerup = true) (timed : g.timeouts = 0)
    (answered : Answered (g.trace ++ acts)) (acked : Acked (g.trace ++ acts))
    (shut : before ≠ .opened) (told : calls g.trace = [.up]) : Keeps acts before g := by
  constructor
  · refine ⟨fun _ => lower, ?_, fun wrong => ?_, fun wrong => ?_, fun wrong => ?_⟩
    · rw [timed, state]
      rfl
    · rw [state] at wrong
      rcases wrong with wrong | wrong | wrong <;> cases wrong
    · cases state.symm.trans wrong
    · cases state.symm.trans wrong
  · rw [told, state, called, if_neg (not_not.mpr rfl), if_neg shut]
  · exact fun _ _ => ⟨answered, acked⟩

end Standing

section Handlers

variable {acts : List Action} {id : Byte} {f : Fsm} {answers : Answers} {before : State}

@[simp] theorem calls_received {code : Byte} : calls (.received code id :: acts) = calls acts := rfl

@[simp] theorem calls_output {code : Byte} {data : List Byte} :
    calls (.output code id data :: acts) = calls acts := rfl

@[simp] theorem calls_ackci {good : Bool} : calls (.ackci id good :: acts) = calls acts := rfl

@[simp] theorem calls_closed : calls (.closed :: acts) = calls acts := rfl

@[simp] theorem calls_up : calls (.up :: acts) = .up :: calls acts := rfl

@[simp] theorem calls_down : calls (.down :: acts) = .down :: calls acts := rfl

/-- From where nothing is negotiated requests are sent, if the lower layer is up. -/
theorem activeopen_rested (state : f.state = .closed ∨ f.state = .listen) (timed : f.timeouts = 0)
    (lower : f.state ≠ .closed → f.lowerup = true) (told : calls f.trace = shut before) :
    Keeps acts before (activeopen answers f) := by
  unfold activeopen
  dsimp only [Fsm.clearPending]
  rw [if_neg (by rcases state with state | state <;> simp [state])]
  split
  · rename_i down
    refine .rests lower ?_ (state.imp_right .inl) told
    rcases state with state | state <;> simp [state, timed, waits]
  · rename_i up
    refine .reqsent rfl ?_ ?_ Requested.now told
    · simpa [Fsm.timeout, Fsm.sconfreq, Fsm.emit] using (not_or.mp up).2
    · exact congrArg (· + 1) timed

theorem passiveopen_rested (state : f.state = .closed) (timed : f.timeouts = 0)
    (told : calls f.trace = shut before) :
    Keeps acts before (passiveopen f) := by
  unfold passiveopen
  dsimp only [Fsm.clearPending]
  rw [if_neg (by simp [state])]
  split
  · refine .rests (absurd state) ?_ (.inl state) told
    simp [state, timed, waits]
  · rename_i up
    refine .rests (fun _ => ?_) timed (.inr (.inl rfl)) told
    simpa [state] using up

theorem activeopen_keeps (standing : Standing acts f) (quiet : ∀ a ∈ f.trace, Quiet a) :
    Keeps acts f.state (activeopen answers f) := by
  by_cases rests : f.state = .closed ∨ f.state = .listen
  · refine activeopen_rested rests ?_ standing.lower ?_
    · rw [standing.timed]
      rcases rests with rests | rests <;> simp [rests, waits]
    · rw [calls_quiet quiet]
      rcases rests with rests | rests <;> simp [rests, shut]
  · unfold activeopen
    dsimp only [Fsm.clearPending]
    split
    · exact standing.stays rfl rfl rfl rfl quiet
    · rw [if_pos]
      · exact standing.stays rfl rfl rfl rfl quiet
      · cases state : f.state <;> simp_all

theorem passiveopen_keeps (standing : Standing acts f) (quiet : ∀ a ∈ f.trace, Quiet a) :
    Keeps acts f.state (passiveopen f) := by
  by_cases rests : f.state = .closed
  · refine passiveopen_rested rests ?_ ?_
    · rw [standing.timed, rests]
      rfl
    · rw [calls_quiet quiet, rests]
      rfl
  · unfold passiveopen
    dsimp only [Fsm.clearPending]
    split
    · exact standing.stays rfl rfl rfl rfl quiet
    · have lower := standing.lower rests
      rw [if_pos]
      · exact standing.stays rfl rfl rfl rfl quiet
      · cases state : f.state <;> simp_all

/-- A close from where it does something, the timeout still pending or just expired. -/
theorem close_started (shut : f.state ≠ .closed ∧ f.state ≠ .termsent) (lower : f.lowerup = true)
    (timed : f.timeouts ≤ waits f.state) (quiet : ∀ a ∈ f.trace, Quiet a) :
      Keeps acts f.state (close f) := by
  have none := calls_quiet quiet
  unfold close
  dsimp only [Fsm.clearPending]
  cases state : f.state with
  | closed => exact absurd state shut.1
  | termsent => exact absurd state shut.2
  | listen =>
    rw [state] at timed
    exact .rests (absurd rfl) (Nat.le_zero.mp timed) (.inl rfl) none
  | reqsent =>
    rw [state] at timed
    exact .rests (absurd rfl) (Nat.sub_eq_zero_of_le timed) (.inl rfl) none
  | ackrcvd =>
    rw [state] at timed
    exact .rests (absurd rfl) (Nat.sub_eq_zero_of_le timed) (.inl rfl) none
  | acksent =>
    rw [state] at timed
    exact .rests (fun _ => lower) (congrArg (· + 1) (Nat.sub_eq_zero_of_le timed)) (.inr (.inr rfl))
      none
  | opened =>
    rw [state] at timed
    exact .rests (fun _ => lower) (congrArg (· + 1) (Nat.le_zero.mp timed)) (.inr (.inr rfl))
      (congrArg _ none)

theorem close_keeps (standing : Standing acts f) (quiet : ∀ a ∈ f.trace, Quiet a) :
    Keeps acts f.state (close f) := by
  by_cases shut : f.state = .closed ∨ f.state = .termsent
  · unfold close
    dsimp only [Fsm.clearPending]
    rw [if_pos shut]
    exact standing.stays rfl rfl rfl rfl quiet
  · have shut := not_or.mp shut
    exact close_started shut (standing.lower shut.1) (Nat.le_of_eq standing.timed) quiet

theorem expired_negotiating (negotiates : Negotiates f.state) : expired answers f =
    if f.popending then passiveopen { f with state := .closed }
    else if f.retransmits > f.maxconfreqtransmits then close f
    else { (f.sconfreq answers).timeout with state := .reqsent, retransmits := f.retransmits + 1,
                                             nakloops := 0 } := by
  unfold expired
  rcases negotiates with state | state | state
  · rw [state]
  · rw [state]
  · rw [state]

theorem expired_keeps (lower : f.state ≠ .closed → f.lowerup = true)
    (timed : f.timeouts + 1 = waits f.state) (quiet : ∀ a ∈ f.trace, Quiet a) :
      Keeps acts f.state (expired answers f) := by
  have none := calls_quiet quiet
  have off : f.state ≠ .closed ∧ f.state ≠ .listen ∧ f.state ≠ .opened := by
    refine ⟨?_, ?_, ?_⟩ <;> intro state <;> simp [state, waits] at timed
  have gone : f.timeouts = 0 := by
    cases state : f.state <;> simp_all [waits]
  have lower := lower off.1
  have silent : calls f.trace = shut f.state := none.trans (if_neg off.2.2).symm
  by_cases closing : f.state = .termsent
  · unfold expired
    simp only [closing]
    rw [closing] at silent
    split
    · exact passiveopen_rested rfl gone silent
    · split
      · exact .rests (absurd rfl) gone (.inl rfl) silent
      · exact .rests (fun _ => lower)
          (by simp [Fsm.timeout, Fsm.stermreq, Fsm.sdata, Fsm.emit, gone, closing, waits])
          (.inr (.inr closing)) silent
  · rw [expired_negotiating]
    · split
      · exact passiveopen_rested rfl gone silent
      · split
        · exact close_started ⟨off.1, closing⟩ lower (by omega) quiet
        · exact .reqsent rfl lower (congrArg (· + 1) gone) Requested.now silent
    · unfold Negotiates
      cases state : f.state <;> simp_all

theorem lowerup_keeps (standing : Standing acts f) (quiet : ∀ a ∈ f.trace, Quiet a) :
    Keeps acts f.state (lowerup answers f) := by
  have up : Standing acts { f with lowerup := true } :=
    ⟨fun _ => rfl, standing.timed, standing.requested, standing.answered, standing.acked⟩
  unfold lowerup
  dsimp only
  split
  · exact activeopen_keeps up quiet
  · split
    · exact passiveopen_keeps up quiet
    · exact up.stays rfl rfl rfl rfl quiet

theorem lowerdown_keeps (standing : Standing acts f) (quiet : ∀ a ∈ f.trace, Quiet a) :
    Keeps acts f.state (lowerdown f) := by
  have none := calls_quiet quiet
  have timed := standing.timed
  refine .rests (absurd ?_) ?_ (.inl ?_) ?_
  · rfl
  · unfold lowerdown
    cases state : f.state <;> simp_all [waits, Fsm.untimeout, Fsm.emit]
  · rfl
  · unfold lowerdown shut
    cases state : f.state <;> simp_all [Fsm.untimeout, Fsm.emit]

theorem Reply.code_ne (reply : Reply) : reply.code ≠ CONFREQ := by
  cases reply <;> decide

structure Pending (acts : List Action) (f : Fsm) : Prop where
  lower : f.lowerup = true
  timed : f.timeouts = 1
  requested : Requested f.reqid (f.trace ++ acts)
  acked : f.state = .ackrcvd → Acked (f.trace ++ acts)

theorem rerequest_opened (state : f.state = .opened) :
    rerequest answers f = ((f.emit .down).sconfreq answers).timeout := by
  have down : (f.emit .down).state = .opened := state
  rw [rerequest, if_pos state, if_pos (.inl down)]

theorem rerequest_listen (state : f.state = .listen) :
    rerequest answers f = (f.sconfreq answers).timeout := by
  have shut : f.state ≠ .opened := by simp [state]
  simp only [rerequest, if_neg shut]
  exact if_pos (.inr state)

theorem rerequest_other (negotiates : Negotiates f.state) : rerequest answers f = f := by
  rw [rerequest, if_neg, if_neg]
  · rcases negotiates with state | state | state <;> simp [state]
  · rcases negotiates with state | state | state <;> simp [state]

theorem negotiates_of_not {s : State} (shut : s ≠ .closed ∧ s ≠ .termsent)
    (rests : ¬ (s = .opened ∨ s = .listen)) :
    Negotiates s := by
  unfold Negotiates
  cases s <;> simp_all

theorem rerequest_state : (rerequest answers f).state = f.state := by
  unfold rerequest
  dsimp only
  split
  · split
    · rfl
    · rfl
  · split
    · rfl
    · rfl

variable (answers) in
/-- A request that has come in is what is to be answered, and `down` has been called. -/
theorem rerequest_trace (first : f.trace = [.received CONFREQ id]) : ∃ own,
    (rerequest answers f).trace = own ++ [.received CONFREQ id] ∧ (∀ a ∈ own, ¬ IsReceived a) ∧
      calls own = shut f.state := by
  unfold shut
  by_cases opened : f.state = .opened
  · refine ⟨[.output CONFREQ (f.id + 1) answers.addci, .down], ?_, ?_, ?_⟩
    · rw [rerequest_opened opened, ← first]
      rfl
    · simp [IsReceived]
    · rw [if_pos opened]
      rfl
  · rw [if_neg opened]
    by_cases listen : f.state = .listen
    · refine ⟨[.output CONFREQ (f.id + 1) answers.addci], ?_, ?_, rfl⟩
      · rw [rerequest_listen listen, ← first]
        rfl
      · simp [IsReceived]
    · refine ⟨[], ?_, (by rintro _ ⟨⟩), rfl⟩
      have same : rerequest answers f = f := by
        rw [rerequest, if_neg opened, if_neg (not_or.mpr ⟨opened, listen⟩)]
      rw [same, first]
      rfl

variable (answers) in
theorem rerequest_pending (standing : Standing acts f)
    (shut : f.state ≠ .closed ∧ f.state ≠ .termsent) (none : ∀ a ∈ f.trace, ¬ IsRequest a) :
      Pending acts (rerequest answers f) := by
  have lower := standing.lower shut.1
  have timed := standing.timed
  by_cases opened : f.state = .opened
  · rw [rerequest_opened opened]
    rw [opened] at timed
    exact ⟨lower, congrArg (· + 1) timed, .now, fun wrong => by cases opened.symm.trans wrong⟩
  · by_cases listen : f.state = .listen
    · rw [rerequest_listen listen]
      rw [listen] at timed
      exact ⟨lower, congrArg (· + 1) timed, .now, fun wrong => by cases listen.symm.trans wrong⟩
    · have negotiates := negotiates_of_not shut (not_or.mpr ⟨opened, listen⟩)
      rw [rerequest_other negotiates]
      refine ⟨lower, ?_, (standing.requested negotiates).prepend none,
        fun state => (standing.acked state).prepend none⟩
      rw [timed]
      rcases negotiates with state | state | state <;> rw [state] <;> rfl

variable (answers) in
theorem reply_keeps {own : List Action} (pending : Pending acts f)
    (trace : f.trace = own ++ [.received CONFREQ id]) (none : ∀ a ∈ own, ¬ IsReceived a)
    (told : calls own = shut f.state) : Keeps acts f.state (reply answers f id) := by
  obtain ⟨lower, timed, requested, acked⟩ := pending
  have other : ¬ IsRequest (.output answers.reqci.1.code id answers.reqci.2) := Reply.code_ne _
  have said : calls f.trace = shut f.state := by
    rw [trace, calls, List.filter_append, ← calls, told]
    exact List.append_nil _
  have answered (ack : answers.reqci.1 = .ack) :
      Answered (.output answers.reqci.1.code id answers.reqci.2 :: (f.trace ++ acts)) := by
    rw [trace, ack, List.append_assoc]
    exact .now none
  unfold reply
  dsimp only
  split
  · rename_i ack
    split
    · rename_i rcvd
      have rcvd : f.state = .ackrcvd := rcvd
      rw [rcvd] at said
      rw [rcvd]
      refine .opened rfl lower (congrArg (· - 1) timed) ?_ ?_ (by rintro ⟨⟩) (congrArg _ said)
      · exact (answered ack).cons (by rintro ⟨⟩)
      · exact ((acked rcvd).cons other).cons (by rintro ⟨⟩)
    · exact .acksent rfl lower timed (requested.cons other) (answered ack) said
  · split
    · exact .reqsent rfl lower timed (requested.cons other) said
    · rename_i rcvd
      have rcvd : f.state = .ackrcvd := not_not.mp rcvd
      exact .ackrcvd rcvd lower timed (requested.cons other) ((acked rcvd).cons other) said

theorem rconfreq_keeps (standing : Standing acts f) (first : f.trace = [.received CONFREQ id]) :
    Keeps acts f.state (rconfreq answers f id) := by
  unfold rconfreq
  split
  · rename_i closing
    exact .rests standing.lower standing.timed (.inr (.inr closing)) (by rw [first, closing]; rfl)
  · rename_i opening
    split
    · rename_i closed
      exact .rests standing.lower standing.timed (.inl closed)
        (by rw [Fsm.sdata, Fsm.emit, first, closed]; rfl)
    · rename_i started
      have pending :=
        rerequest_pending answers standing ⟨started, opening⟩ (by simp [first, IsRequest])
      obtain ⟨own, trace, none, told⟩ := rerequest_trace answers first
      have kept :=
        reply_keeps answers pending trace none (told.trans (congrArg shut rerequest_state.symm))
      rw [rerequest_state] at kept
      exact kept

theorem rconfack_keeps (standing : Standing acts f) (quiet : ∀ a ∈ f.trace, Quiet a) :
    Keeps acts f.state (rconfack answers f id) := by
  have none := calls_quiet quiet
  have lower := standing.lower
  have timed := standing.timed
  have same := standing.stays rfl rfl rfl rfl quiet
  obtain ⟨-, -, requested, answered, -⟩ := same.standing
  unfold rconfack
  cases state : f.state with
  | closed => exact .rests lower timed (.inl state) none
  | listen => exact .rests lower timed (.inr (.inl state)) none
  | termsent =>
    rw [state] at same
    exact same
  | reqsent =>
    rw [state] at same lower timed requested
    dsimp only
    split
    · rename_i expected
      have requested := requested (.inl rfl)
      cases good : answers.ackci with
      | false =>
        exact .reqsent rfl (lower (by rintro ⟨⟩)) timed (requested.cons (by rintro ⟨⟩)) none
      | true =>
        exact .ackrcvd rfl (lower (by rintro ⟨⟩)) timed (requested.cons (by rintro ⟨⟩))
          (expected ▸ requested.acked) none
    · exact same
  | ackrcvd =>
    rw [state] at same lower timed requested
    dsimp only
    split
    · rename_i expected
      have requested := requested (.inr (.inr rfl))
      cases good : answers.ackci with
      | false =>
        exact .reqsent rfl (lower (by rintro ⟨⟩)) timed (requested.cons (by rintro ⟨⟩)) none
      | true =>
        exact .ackrcvd rfl (lower (by rintro ⟨⟩)) timed (requested.cons (by rintro ⟨⟩))
          (expected ▸ requested.acked) none
    · exact same
  | acksent =>
    have answered := answered state
    rw [state] at same lower timed requested
    dsimp only
    split
    · rename_i expected
      have requested := requested (.inr (.inl rfl))
      cases good : answers.ackci with
      | false =>
        exact .reqsent rfl (lower (by rintro ⟨⟩)) timed (requested.cons (by rintro ⟨⟩)) none
      | true =>
        have heard : Answered (.ackci id true :: (f.trace ++ acts)) := answered.cons (by rintro ⟨⟩)
        have acked : Acked (.ackci id true :: (f.trace ++ acts)) := expected ▸ requested.acked
        exact .opened rfl (lower (by rintro ⟨⟩)) (congrArg (· - 1) timed)
          (heard.cons (by rintro ⟨⟩)) (acked.cons (by rintro ⟨⟩)) (by rintro ⟨⟩)
          (congrArg _ none)
    · exact same
  | opened =>
    rw [state] at timed
    exact activeopen_rested (.inl rfl) timed (absurd rfl) (congrArg _ none)

theorem reconfigure_keeps (standing : Standing acts f) (quiet : ∀ a ∈ f.trace, Quiet a) :
    Keeps acts f.state (reconfigure answers f id) := by
  have none := calls_quiet quiet
  have lower := standing.lower
  have timed := standing.timed
  have same := standing.stays rfl rfl rfl rfl quiet
  obtain ⟨-, -, requested, answered, -⟩ := same.standing
  unfold reconfigure
  cases state : f.state with
  | closed => exact .rests lower timed (.inl state) none
  | listen => exact .rests lower timed (.inr (.inl state)) none
  | termsent | opened =>
    rw [state] at same
    exact same
  | ackrcvd =>
    rw [state] at lower timed requested
    exact .reqsent rfl (lower (by rintro ⟨⟩)) timed (requested (.inr (.inr rfl))) none
  | reqsent =>
    rw [state] at same lower timed requested
    dsimp only
    split
    · split
      · exact .reqsent rfl (lower (by rintro ⟨⟩)) timed (requested (.inl rfl)) none
      · exact .reqsent rfl (lower (by rintro ⟨⟩)) (congrArg (· - 1 + 1) timed) .now none
    · exact same
  | acksent =>
    have answered := answered state
    rw [state] at same lower timed requested
    dsimp only
    split
    · split
      · exact .acksent rfl (lower (by rintro ⟨⟩)) timed (requested (.inr (.inl rfl))) answered none
      · exact .acksent rfl (lower (by rintro ⟨⟩)) (congrArg (· - 1 + 1) timed) .now
          (answered.cons (by rintro ⟨⟩)) none
    · exact same

theorem rconfnak_keeps (standing : Standing acts f) (quiet : ∀ a ∈ f.trace, Quiet a) :
    Keeps acts f.state (rconfnak answers f id) := by
  unfold rconfnak
  split
  · rename_i opened
    have timed := standing.timed
    rw [opened] at timed ⊢
    exact activeopen_rested (.inl rfl) timed (absurd rfl) (congrArg _ (calls_quiet quiet))
  · exact reconfigure_keeps standing quiet

theorem rconfrej_keeps (standing : Standing acts f) (quiet : ∀ a ∈ f.trace, Quiet a)
    (shut : f.state ≠ .opened) :
    Keeps acts f.state (rconfrej answers f id) := by
  rw [rconfrej, if_neg shut]
  exact reconfigure_keeps standing quiet

theorem rtermreq_keeps (standing : Standing acts f) (quiet : ∀ a ∈ f.trace, Quiet a) :
    Keeps acts f.state (rtermreq f id) := by
  have none := calls_quiet quiet
  have lower := standing.lower
  have timed := standing.timed
  have requested := (standing.stays rfl rfl rfl rfl quiet).standing.requested
  have other : TERMACK ≠ CONFREQ := by decide
  unfold rtermreq
  dsimp only [Fsm.sdata, Fsm.emit]
  cases state : f.state with
  | closed =>
    rw [state] at timed
    exact .rests (absurd rfl) timed (.inl rfl) none
  | listen =>
    rw [state] at timed lower
    exact .rests lower timed (.inr (.inl rfl)) none
  | termsent =>
    rw [state] at timed lower
    exact .rests lower timed (.inr (.inr rfl)) none
  | reqsent =>
    rw [state] at lower timed requested
    exact .reqsent rfl (lower (by rintro ⟨⟩)) timed ((requested (.inl rfl)).cons other) none
  | ackrcvd =>
    rw [state] at lower timed requested
    exact .reqsent rfl (lower (by rintro ⟨⟩)) timed ((requested (.inr (.inr rfl))).cons other) none
  | acksent =>
    rw [state] at lower timed requested
    exact .reqsent rfl (lower (by rintro ⟨⟩)) timed ((requested (.inr (.inl rfl))).cons other) none
  | opened =>
    rw [state] at timed
    exact .rests (absurd rfl) timed (.inl rfl) (congrArg _ none)

theorem rtermack_keeps (standing : Standing acts f) (quiet : ∀ a ∈ f.trace, Quiet a) :
    Keeps acts f.state (rtermack f) := by
  have none := calls_quiet quiet
  have timed := standing.timed
  have same := standing.stays rfl rfl rfl rfl quiet
  unfold rtermack
  cases state : f.state with
  | opened =>
    rw [state] at timed
    exact .rests (absurd rfl) timed (.inl rfl) (congrArg _ none)
  | termsent =>
    rw [state] at timed
    exact .rests (absurd rfl) (congrArg (· - 1) timed) (.inl rfl) none
  | closed | listen | reqsent | acksent | ackrcvd =>
    rw [state] at same
    exact same

theorem echo_keeps (standing : Standing acts f) (quiet : ∀ a ∈ f.trace, Quiet a)
    {data : List Byte} :
    Keeps acts f.state (match f.state with
      | .closed | .listen => f.sdata TERMACK id []
      | .opened => f.emit (.output ECHOREP id data)
      | .reqsent | .acksent | .ackrcvd | .termsent => f) := by
  have other : TERMACK ≠ CONFREQ ∧ ECHOREP ≠ CONFREQ := by decide
  have same := standing.stays rfl rfl rfl rfl quiet
  have acked : Keeps acts f.state (f.sdata TERMACK id []) :=
    standing.stays rfl rfl rfl rfl (List.forall_mem_cons.mpr ⟨other.1, quiet⟩)
  have echoed : Keeps acts f.state (f.emit (.output ECHOREP id data)) :=
    standing.stays rfl rfl rfl rfl (List.forall_mem_cons.mpr ⟨other.2, quiet⟩)
  cases state : f.state with
  | closed | listen =>
    rw [state] at acked
    exact acked
  | opened =>
    rw [state] at echoed
    exact echoed
  | reqsent | acksent | ackrcvd | termsent =>
    rw [state] at same
    exact same

theorem rprotrej_keeps (standing : Standing acts f) (quiet : ∀ a ∈ f.trace, Quiet a)
    (data : List Byte) :
    Keeps acts f.state (rprotrej f data) := by
  unfold rprotrej
  split
  · split
    · exact standing.stays rfl rfl rfl rfl (List.forall_mem_cons.mpr ⟨trivial, quiet⟩)
    · exact standing.stays rfl rfl rfl rfl quiet
  · exact standing.stays rfl rfl rfl rfl quiet

theorem dispatch_keeps (standing : Standing acts f) {inpacket : List Byte} {p : Packet}
    (start : f.trace = [.received p.code p.id]) (accepted : p.code = CONFREJ → f.state ≠ .opened) :
    Keeps acts f.state (dispatch answers f inpacket p) := by
  by_cases request : p.code = CONFREQ
  · rw [dispatch, if_pos request]
    exact rconfreq_keeps standing (request ▸ start)
  have quiet : ∀ a ∈ f.trace, Quiet a := by
    rw [start]
    exact List.forall_mem_cons.mpr ⟨request, (by rintro _ ⟨⟩)⟩
  have same := standing.stays rfl rfl rfl rfl quiet
  unfold dispatch
  rw [if_neg request]
  by_cases ack : p.code = CONFACK
  · rw [if_pos ack]
    exact rconfack_keeps standing quiet
  rw [if_neg ack]
  by_cases nak : p.code = CONFNAK
  · rw [if_pos nak]
    exact rconfnak_keeps standing quiet
  rw [if_neg nak]
  by_cases reject : p.code = CONFREJ
  · rw [if_pos reject]
    exact rconfrej_keeps standing quiet (accepted reject)
  rw [if_neg reject]
  split
  · exact rtermreq_keeps standing quiet
  split
  · exact rtermack_keeps standing quiet
  split
  · exact same
  split
  · exact rprotrej_keeps standing quiet _
  split
  · exact echo_keeps standing quiet
  split
  · exact same
  · have rejected : CODEREJ ≠ CONFREQ := by decide
    exact standing.stays rfl rfl rfl rfl (List.forall_mem_cons.mpr ⟨rejected, quiet⟩)

theorem input_keeps (standing : Standing acts f) (start : f.trace = []) {inpacket : List Byte}
    (accepted : ∀ p, parse inpacket = some p → p.code = CONFREJ → f.state ≠ .opened) :
    Keeps acts f.state (input answers f inpacket) := by
  have silent : ∀ a ∈ f.trace, Quiet a := by simp [start]
  unfold input
  cases parsed : parse inpacket with
  | none => exact standing.stays rfl rfl rfl rfl silent
  | some p =>
    have received : Standing acts (f.emit (.received p.code p.id)) := standing.congr rfl rfl rfl rfl
    have start : (f.emit (.received p.code p.id)).trace = [.received p.code p.id] :=
      congrArg _ start
    exact dispatch_keeps received start (accepted p parsed)

theorem step_keeps {event : Event} (standing : Standing acts f)
    (accepted : ∀ inpacket p, event = .input inpacket → parse inpacket = some p → p.code = CONFREJ →
      f.state ≠ .opened) :
    Keeps acts f.state (step answers f event) := by
  have fresh : Standing acts { f with trace := [] } := standing.congr rfl rfl rfl rfl
  cases event with
  | activeopen => exact activeopen_keeps fresh (by rintro _ ⟨⟩)
  | passiveopen => exact passiveopen_keeps fresh (by rintro _ ⟨⟩)
  | close => exact close_keeps fresh (by rintro _ ⟨⟩)
  | lowerup => exact lowerup_keeps fresh (by rintro _ ⟨⟩)
  | lowerdown => exact lowerdown_keeps fresh (by rintro _ ⟨⟩)
  | input inpacket => exact input_keeps fresh rfl fun p => accepted inpacket p rfl
  | expire =>
    dsimp only [step]
    split
    · exact fresh.stays rfl rfl rfl rfl (by rintro _ ⟨⟩)
    · rename_i pending
      have timed := standing.timed
      refine expired_keeps (f := { f with trace := [], timeouts := f.timeouts - 1 }) standing.lower
        ?_ (by rintro _ ⟨⟩)
      dsimp only at pending ⊢
      lia

end Handlers

section Runs

variable {f : Fsm} {records older : List Record}

def Idle (s : State) : Prop := s = .opened ∨ s = .listen ∨ s = .closed

instance (s : State) : Decidable (Idle s) := inferInstanceAs (Decidable (_ ∨ _))

/-- What has been exchanged since an idle state was last left, the latest first. -/
def exchanged : List Record → List Action
  | [] => []
  | r :: older => r.after.trace ++ if Idle r.before.state then [] else exchanged older

/-- All the calls of `up` and `down`, the latest first. -/
def allCalls (records : List Record) :
    List Action := (records.map fun r => calls r.after.trace).flatten

def Alternate (latest : List Action) : Prop := latest.IsChain (· ≠ ·) ∧ latest.getLast? ≠ some .down

/-- The timer of every state reached, `up` and `down` alternating, `down` called as often as the
link is left, and what has been exchanged whenever it opens. -/
structure Obeys (records : List Record) : Prop where
  timed : ∀ r ∈ records, r.after.timeouts = waits r.after.state
  alternate : Alternate (allCalls records)
  left : ∀ r ∈ records,
    r.after.trace.count .down = if r.before.state = .opened ∧ r.after.state ≠ .opened then 1 else 0
  opens : ∀ r older, r :: older <:+ records → r.before.state ≠ .opened → r.after.state = .opened →
    Answered (exchanged (r :: older)) ∧ Acked (exchanged (r :: older))

def RejectedOpen (r : Record) : Prop :=
  r.before.state = .opened ∧ ∃ inpacket p, r.event = .input inpacket ∧ parse inpacket = some p ∧
    p.code = CONFREJ

structure Course (f : Fsm) (records : List Record) : Prop where
  standing : Standing (exchanged records) f
  last : f.state = .opened ↔ (allCalls records).head? = some .up
  obeys : Obeys records

theorem Standing.idle {acts acts' : List Action} (standing : Standing acts f)
    (idle : Idle f.state) : Standing acts' f := by
  refine ⟨standing.lower, standing.timed, fun wrong => ?_, fun wrong => ?_, fun wrong => ?_⟩
  · rcases idle with state | state | state <;> simp [Negotiates, state] at wrong
  · rcases idle with state | state | state <;> simp [state] at wrong
  · rcases idle with state | state | state <;> simp [state] at wrong

theorem count_calls (trace : List Action) : (calls trace).count .down = trace.count .down :=
  List.count_filter (by simp)

theorem Alternate.cons {a : Action} {latest : List Action} (alternate : Alternate latest)
    (other : latest.head? ≠ some a) (first : latest = [] → a ≠ .down) :
      Alternate (a :: latest) := by
  cases latest with
  | nil => exact ⟨.singleton a, fun wrong => first rfl (Option.some.inj wrong)⟩
  | cons b latest =>
    refine ⟨.cons_cons (fun same => other (congrArg some same.symm)) alternate.1, ?_⟩
    rw [List.getLast?_cons_cons]
    exact alternate.2

theorem called_alternate {before after : State} {latest : List Action}
    (alternate : Alternate latest) (last : before = .opened ↔ latest.head? = some .up) :
    Alternate (called before after ++ latest) ∧
      (after = .opened ↔ (called before after ++ latest).head? = some .up) := by
  unfold called shut
  by_cases was : before = .opened
  · have up := last.mp was
    by_cases is : after = .opened
    · rw [if_neg (not_not.mpr is), if_pos was]
      exact ⟨alternate, fun _ => up, fun _ => is⟩
    · rw [if_pos is, if_pos was]
      refine ⟨alternate.cons (by simp [up]) fun none => ?_, fun wrong => absurd wrong is,
        fun wrong => ?_⟩
      · rw [none] at up
        cases up
      · cases wrong
  · have down := mt last.mpr was
    by_cases is : after = .opened
    · rw [if_neg (not_not.mpr is), if_neg was]
      exact ⟨alternate.cons down (by rintro _ ⟨⟩), fun _ => rfl, fun _ => is⟩
    · rw [if_pos is, if_neg was]
      exact ⟨alternate, fun wrong => absurd wrong is, fun wrong => absurd wrong down⟩

theorem Course.step {g : Fsm} {event : Event} (course : Course f records)
    (kept : Keeps (if Idle f.state then [] else exchanged records) f.state g) :
      Course g (⟨f, event, g⟩ :: records) := by
  obtain ⟨standing, told, opens⟩ := kept
  have all : allCalls (⟨f, event, g⟩ :: records) = called f.state g.state ++ allCalls records :=
    congrArg (· ++ _) told
  have next := @called_alternate f.state g.state _ course.obeys.alternate course.last
  rw [← all] at next
  refine ⟨standing, next.2, ?_, next.1, ?_, ?_⟩
  · exact List.forall_mem_cons.mpr ⟨standing.timed, course.obeys.timed⟩
  · refine List.forall_mem_cons.mpr ⟨?_, course.obeys.left⟩
    rw [← count_calls, told, called, shut]
    by_cases was : f.state = .opened
    · by_cases is : g.state = .opened
      · simp [was, is]
      · simp [was, is]
    · by_cases is : g.state = .opened
      · simp [was, is]
      · simp [was, is]
  · intro r older within shut opened
    rcases List.suffix_cons_iff.mp within with same | earlier
    · cases same
      exact opens shut opened
    · exact course.obeys.opens r older earlier shut opened

theorem runs_append (events : List (Answers × Event)) (e : Answers × Event) :
    runs f (events ++ [e]) =
    (step e.1 (runs f events).1 e.2, ⟨(runs f events).1, e.2, step e.1 (runs f events).1 e.2⟩ ::
      (runs f events).2) := by
  rw [runs, List.foldl_append]
  rfl

theorem Course.start (f : Fsm) : Course f.init [] where
  standing :=
    ⟨fun wrong => absurd rfl wrong, rfl,
    fun wrong => by simp [Negotiates, Fsm.init] at wrong, (by rintro ⟨⟩), (by rintro ⟨⟩)⟩
  last := by simp [Fsm.init, allCalls]
  obeys := by
    refine ⟨fun r wrong => absurd wrong List.not_mem_nil, ⟨.nil, (by rintro ⟨⟩)⟩,
      fun r wrong => absurd wrong List.not_mem_nil, ?_⟩
    intro r older within
    cases List.suffix_nil.mp within

theorem runs_course (f : Fsm) (events : List (Answers × Event))
    (accepted : ∀ r ∈ (runs f.init events).2, ¬ RejectedOpen r) :
    Course (runs f.init events).1 (runs f.init events).2 := by
  induction events using List.reverseRecOn with
  | nil => exact .start f
  | append_singleton events e ih =>
    rw [runs_append] at accepted ⊢
    obtain ⟨latest, before⟩ := List.forall_mem_cons.mp accepted
    have course := ih before
    refine course.step (step_keeps ?_ fun inpacket p here parsed reject opened => ?_)
    · split
      · exact course.standing.idle ‹_›
      · exact course.standing
    · exact latest ⟨opened, inpacket, p, here, parsed, reject⟩

theorem runs_records (f : Fsm) (events : List (Answers × Event)) :
    ∀ r ∈ (runs f events).2, ∃ answers, r.after = step answers r.before r.event := by
  induction events using List.reverseRecOn with
  | nil => exact fun r wrong => absurd wrong List.not_mem_nil
  | append_singleton events e ih =>
    rw [runs_append]
    exact List.forall_mem_cons.mpr ⟨⟨e.1, rfl⟩, ih⟩

theorem rejected_silent {answers : Answers} {inpacket : List Byte} {p : Packet}
    (opened : f.state = .opened) (parsed : parse inpacket = some p) (reject : p.code = CONFREJ) :
    (step answers f (.input inpacket)).state ≠ .opened ∧
      (step answers f (.input inpacket)).trace.count .down = 0 := by
  have others : CONFREJ ≠ CONFREQ ∧ CONFREJ ≠ CONFACK ∧ CONFREJ ≠ CONFNAK := by decide
  simp only [step, input, parsed]
  rw [dispatch, reject, if_neg others.1, if_neg others.2.1, if_neg others.2.2, if_pos rfl, rconfrej]
  simp only [Fsm.emit, opened, if_pos]
  simp only [activeopen, Fsm.clearPending]
  cases up : f.lowerup <;> simp [Fsm.timeout, Fsm.sconfreq, Fsm.emit]

/-- The automaton obeys in just the runs in which no open link is rejected its options. -/
theorem fsm_obeys_iff (f : Fsm) (events : List (Answers × Event)) :
    Obeys (runs f.init events).2 ↔ ∀ r ∈ (runs f.init events).2, ¬ RejectedOpen r := by
  constructor
  · intro obeys r member ⟨opened, inpacket, p, here, parsed, reject⟩
    obtain ⟨answers, after⟩ := runs_records f.init events r member
    have silent := @rejected_silent r.before answers inpacket p opened parsed reject
    rw [← here, ← after] at silent
    have left := obeys.left r member
    rw [silent.2, if_pos ⟨opened, silent.1⟩] at left
    cases left
  · exact fun accepted => (runs_course f events accepted).obeys

/-- The link comes up, is acknowledged, acknowledges, and is rejected. -/
theorem fsm_rejected_open : ¬ ∀ (f : Fsm) (events : List (Answers × Event)),
    Obeys (runs f.init events).2 := by
  intro all
  let f : Fsm := ⟨LCP, .closed, false, false, false, 0, 0, 10, 0, 10, 0, 10, 0, []⟩
  let answers : Answers := ⟨[], true, .ack, []⟩
  let events : List (Answers × Event) :=
    [(answers, .lowerup), (answers, .activeopen), (answers, .input [2, 1, 0, 4]),
      (answers, .input [1, 7, 0, 4]), (answers, .input [4, 2, 0, 4])]
  have left := (all f events).left _ List.mem_cons_self
  revert left
  decide

end Runs

end FreeBsd.Pppd
