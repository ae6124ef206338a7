import FreeBsd.Lib.Latest

/-! `pppd/fsm.c`: the automaton that negotiates the options of a protocol. The option callbacks
answer as they like; what an event sends and calls is recorded. -/
namespace FreeBsd.Pppd

abbrev Byte := BitVec 8

section Constants

def CONFREQ : Byte := 1
def CONFACK : Byte := 2
def CONFNAK : Byte := 3
def CONFREJ : Byte := 4
def TERMREQ : Byte := 5
def TERMACK : Byte := 6
def CODEREJ : Byte := 7
def PROTREJ : Byte := 8
def ECHOREQ : Byte := 9
def ECHOREP : Byte := 10
def DISCREQ : Byte := 11
def HEADERLEN : Nat := 4
def LCP : Nat := 0xc021
def MTU : Nat := 1500

end Constants

section Automaton

inductive State where
  | closed | listen | reqsent | acksent | ackrcvd | opened | termsent
  deriving DecidableEq, Repr

inductive Action where
  | received (code id : Byte)
  | output (code id : Byte) (data : List Byte)
  | ackci (id : Byte) (good : Bool)
  | up
  | down
  | closed
  | demuxprotrej (prot : Nat)
  deriving DecidableEq, Repr

/-- `timeouts` are the pending calls of `fsm_timeout`, the trace has the latest action first. -/
structure Fsm where
  protocol : Nat
  state : State
  lowerup : Bool
  aopending : Bool
  popending : Bool
  id : Byte
  reqid : Byte
  maxconfreqtransmits : Int
  retransmits : Int
  maxtermtransmits : Int
  nakloops : Int
  maxnakloops : Int
  timeouts : Nat
  trace : List Action

inductive Reply where
  | ack | nak | rej
  deriving DecidableEq, Repr

def Reply.code : Reply → Byte
  | ack => CONFACK
  | nak => CONFNAK
  | rej => CONFREJ

structure Answers where
  addci : List Byte
  ackci : Bool
  reqci : Reply × List Byte

namespace Fsm

def init (f : Fsm) : Fsm :=
  { f with state := .closed, lowerup := false, aopending := false, popending := false, id := 0,
           timeouts := 0, trace := [] }

def emit (f : Fsm) (a : Action) : Fsm := { f with trace := a :: f.trace }

def timeout (f : Fsm) : Fsm := { f with timeouts := f.timeouts + 1 }

/-- `untimeout` removes the first that matches, if there is one. -/
def untimeout (f : Fsm) : Fsm := { f with timeouts := f.timeouts - 1 }

def clearPending (f : Fsm) : Fsm := { f with aopending := false, popending := false }

def sdata (f : Fsm) (code id : Byte) (data : List Byte) :
    Fsm := f.emit (.output code id (data.take (MTU - HEADERLEN)))

def stermreq (f : Fsm) :
    Fsm := { f with id := f.id + 1, reqid := f.id + 1 }.sdata TERMREQ (f.id + 1) []

def sconfreq (f : Fsm) (answers : Answers) : Fsm :=
  { f with id := f.id + 1, reqid := f.id + 1 }.emit (.output CONFREQ (f.id + 1) answers.addci)

end Fsm

end Automaton

section Events

variable (answers : Answers)

def activeopen (f : Fsm) : Fsm :=
  let f := f.clearPending
  if f.state = .reqsent ∨ f.state = .ackrcvd ∨ f.state = .acksent ∨ f.state = .opened then f
  else if f.state = .termsent ∨ f.lowerup = false then { f with aopending := true }
  else { (f.sconfreq answers).timeout with state := .reqsent, retransmits := 0, nakloops := 0 }

def passiveopen (f : Fsm) : Fsm :=
  let f := f.clearPending
  if f.state = .listen ∨ f.state = .opened then f
  else if f.state = .reqsent ∨ f.state = .ackrcvd ∨ f.state = .acksent ∨ f.state = .termsent ∨
    f.lowerup = false then
    { f with popending := true }
  else { f with state := .listen, retransmits := 0, nakloops := 0 }

def close (f : Fsm) : Fsm :=
  let f := f.clearPending
  if f.state = .closed ∨ f.state = .termsent then f
  else
    let f := if f.state = .reqsent ∨ f.state = .ackrcvd ∨ f.state = .acksent then f.untimeout else f
    let f := if f.state = .opened then f.emit .down else f
    if f.state = .acksent ∨ f.state = .opened then { f.stermreq.timeout with state := .termsent,
                                                                             retransmits := 0 }
    else { f with state := .closed }.emit .closed

def expired (f : Fsm) : Fsm :=
  match f.state with
  | .reqsent | .ackrcvd | .acksent =>
    if f.popending then passiveopen { f with state := .closed }
    else if f.retransmits > f.maxconfreqtransmits then close f
    else { (f.sconfreq answers).timeout with state := .reqsent, retransmits := f.retransmits + 1,
                                             nakloops := 0 }
  | .termsent =>
    if f.popending then passiveopen { f with state := .closed }
    else if f.retransmits + 1 > f.maxtermtransmits then
      { f with retransmits := f.retransmits + 1, state := .closed }.emit .closed
    else { f.stermreq.timeout with retransmits := f.retransmits + 1 + 1 }
  | .closed | .listen | .opened => f

def lowerup (f : Fsm) : Fsm :=
  let f := { f with lowerup := true }
  if f.aopending then activeopen answers f
  else if f.popending then passiveopen f
  else f

def lowerdown (f : Fsm) : Fsm :=
  let f := { f with lowerup := false }
  let f :=
    if f.state = .reqsent ∨ f.state = .ackrcvd ∨ f.state = .acksent ∨ f.state = .termsent then
      f.untimeout
    else f
  let f := if f.state = .opened then f.emit .down else f
  { f with state := .closed }.emit .closed

def rerequest (f : Fsm) : Fsm :=
  let f := if f.state = .opened then f.emit .down else f
  if f.state = .opened ∨ f.state = .listen then (f.sconfreq answers).timeout else f

def reply (f : Fsm) (id : Byte) : Fsm :=
  let f := f.emit (.output answers.reqci.1.code id answers.reqci.2)
  if answers.reqci.1 = .ack then
    if f.state = .ackrcvd then { f.untimeout.emit .up with state := .opened }
    else { f with state := .acksent }
  else if f.state ≠ .ackrcvd then { f with state := .reqsent }
  else f

def rconfreq (f : Fsm) (id : Byte) : Fsm :=
  if f.state = .termsent then f
  else if f.state = .closed then f.sdata TERMACK id []
  else reply answers (rerequest answers f) id

def rconfack (f : Fsm) (id : Byte) : Fsm :=
  match f.state with
  | .listen | .closed => f.sdata TERMACK id []
  | .ackrcvd | .reqsent =>
    if id = f.reqid then
      { f.emit (.ackci id answers.ackci) with
        state := if answers.ackci then .ackrcvd else .reqsent }
    else f
  | .acksent =>
    if id = f.reqid then
      let f := f.emit (.ackci id answers.ackci)
      if answers.ackci then { f.untimeout.emit .up with state := .opened }
      else { f with state := .reqsent }
    else f
  | .opened => activeopen answers { f.emit .down with state := .closed }
  | .termsent => f

/-- What `fsm_rconfnak` and `fsm_rconfrej` do before the link is open. -/
def reconfigure (f : Fsm) (id : Byte) : Fsm :=
  match f.state with
  | .listen | .closed => f.sdata TERMACK id []
  | .reqsent | .acksent =>
    if id = f.reqid then
      let f := { f with nakloops := f.nakloops + 1 }
      if f.nakloops > f.maxnakloops then f
      else { (f.untimeout.sconfreq answers).timeout with retransmits := f.retransmits + 1 }
    else f
  | .ackrcvd => { f with state := .reqsent }
  | .opened | .termsent => f

def rconfnak (f : Fsm) (id : Byte) : Fsm :=
  if f.state = .opened then activeopen answers { f.emit .down with state := .closed }
  else reconfigure answers f id

def rconfrej (f : Fsm) (id : Byte) : Fsm :=
  if f.state = .opened then activeopen answers { f with state := .closed }
  else reconfigure answers f id

def rtermreq (f : Fsm) (id : Byte) : Fsm :=
  let f := f.sdata TERMACK id []
  match f.state with
  | .ackrcvd | .acksent => { f with state := .reqsent }
  | .opened => { f.emit .down with state := .closed }.emit .closed
  | .closed | .listen | .reqsent | .termsent => f

def rtermack (f : Fsm) : Fsm :=
  match f.state with
  | .opened => { f.emit .down with state := .closed }.emit .closed
  | .termsent => { f.untimeout with state := .closed }.emit .closed
  | .closed | .listen | .reqsent | .acksent | .ackrcvd => f

def rprotrej (f : Fsm) : List Byte → Fsm
  | high :: low :: _ =>
    if f.protocol = LCP then f.emit (.demuxprotrej (high.toNat * 256 + low.toNat)) else f
  | _ => f

structure Packet where
  code : Byte
  id : Byte
  data : List Byte
  deriving DecidableEq, Repr

/-- The header of a packet, whose length may be less than what has come. -/
def parse : List Byte → Option Packet
  | code :: id :: high :: low :: rest =>
    let len := high.toNat * 256 + low.toNat
    if len < HEADERLEN ∨ len > rest.length + HEADERLEN then none else some ⟨code, id,
      rest.take (len - HEADERLEN)⟩
  | _ => none

def dispatch (f : Fsm) (inpacket : List Byte) (p : Packet) : Fsm :=
  if p.code = CONFREQ then rconfreq answers f p.id
  else if p.code = CONFACK then rconfack answers f p.id
  else if p.code = CONFNAK then rconfnak answers f p.id
  else if p.code = CONFREJ then rconfrej answers f p.id
  else if p.code = TERMREQ then rtermreq f p.id
  else if p.code = TERMACK then rtermack f
  else if p.code = CODEREJ then f
  else if p.code = PROTREJ then rprotrej f p.data
  else if p.code = ECHOREQ then
    match f.state with
    | .closed | .listen => f.sdata TERMACK p.id []
    | .opened => f.emit (.output ECHOREP p.id p.data)
    | .reqsent | .acksent | .ackrcvd | .termsent => f
  else if p.code = ECHOREP ∨ p.code = DISCREQ then f
  else { f with id := f.id + 1 }.sdata CODEREJ (f.id + 1)
    (inpacket.take (p.data.length + HEADERLEN))

def input (f : Fsm) (inpacket : List Byte) : Fsm :=
  match parse inpacket with
  | none => f
  | some p => dispatch answers (f.emit (.received p.code p.id)) inpacket p

inductive Event where
  | activeopen | passiveopen | close | lowerup | lowerdown | expire
  | input (inpacket : List Byte)

/-- An event, its actions recorded from nothing on. A timeout expires only where one is pending. -/
def step (f : Fsm) (event : Event) : Fsm :=
  let f := { f with trace := [] }
  match event with
  | .activeopen => activeopen answers f
  | .passiveopen => passiveopen f
  | .close => close f
  | .lowerup => lowerup answers f
  | .lowerdown => lowerdown f
  | .expire => if f.timeouts = 0 then f else expired answers { f with timeouts := f.timeouts - 1 }
  | .input inpacket => input answers f inpacket

structure Record where
  before : Fsm
  event : Event
  after : Fsm

/-- The automaton after the events, and what they did, the latest first. -/
def runs (f : Fsm) (events : List (Answers × Event)) : Fsm × List Record :=
  events.foldl (fun s e => (step e.1 s.1 e.2, ⟨s.1, e.2, step e.1 s.1 e.2⟩ :: s.2)) (f, [])

end Events

end FreeBsd.Pppd
