import FreeBsd.Lib.Tally
import FreeBsd.Lib.Trace

/-! `vm/kern_lock.c`: the sleep lock on one processor, where `lock_wait_time` is 0 and the lock can
sleep. Threads are numbered; each step of one is what it does while it has the interlock. -/
namespace FreeBsd.Vm

section Lock

/-- A hold for reading, or for writing by `want_write`, by `want_upgrade`, or by a level of
recursion. -/
inductive Hold where
  | read | write | upgrade | deep
  deriving DecidableEq, Repr

inductive Phase where
  | running | lockWrite | drain | lockRead
  | upgrade (trying : Bool)
  deriving DecidableEq, Repr

structure Thread where
  holds : List Hold
  phase : Phase
  asleep : Bool
  /-- It has called `lock_set_recursive`, and not yet `lock_clear_recursive`. -/
  recursive : Bool
  deriving DecidableEq, Repr

structure Lock where
  wantWrite : Bool
  wantUpgrade : Bool
  waiting : Bool
  readCount : Int
  thread : Option Nat
  recursionDepth : Nat
  deriving DecidableEq, Repr

def lockInit : Lock := ⟨false, false, false, 0, none, 0⟩

structure LockState where
  lock : Lock
  threads : List Thread
  panicked : Bool
  deriving DecidableEq, Repr

namespace LockState

/-- `n` threads, and a lock that has just been initialized. -/
def start (n : Nat) : LockState := ⟨lockInit, List.replicate n ⟨[], .running, false, false⟩, false⟩

def put (s : LockState) (l : Lock) (t : Nat) (th : Thread) : LockState :=
  { s with lock := l, threads := s.threads.set t th }

def sleep (s : LockState) (t : Nat) (th : Thread) : LockState :=
  s.put { s.lock with waiting := true } t { th with asleep := true }

def wakeup (s : LockState) : LockState :=
  if s.lock.waiting then
    { s with lock := { s.lock with waiting := false },
             threads := s.threads.map fun th => { th with asleep := false } }
  else s

end LockState

end Lock

section Routines

abbrev LockResult := LockState × Option Bool

variable (s : LockState) (t : Nat) (th : Thread)

def Thread.takes (h : Hold) :
    Thread := { th with phase := .running, asleep := false, holds := h :: th.holds }

def drain : LockResult :=
  if s.lock.readCount ≠ 0 ∨ s.lock.wantUpgrade then (s.sleep t { th with phase := .drain }, none)
  else (s.put s.lock t (th.takes .write), none)

def waitWrite : LockResult :=
  if s.lock.wantWrite then (s.sleep t { th with phase := .lockWrite }, none)
  else drain { s with lock := { s.lock with wantWrite := true } } t th

def waitRead : LockResult :=
  if s.lock.wantWrite ∨ s.lock.wantUpgrade then (s.sleep t { th with phase := .lockRead }, none)
  else (s.put { s.lock with readCount := s.lock.readCount + 1 } t (th.takes .read), none)

/-- The loop of an upgrade, of `lock_try_read_to_write` or of `lock_read_to_write`. -/
def waitUpgrade (trying : Bool) : LockResult :=
  if s.lock.readCount ≠ 0 then (s.sleep t { th with phase := .upgrade trying }, none)
  else (s.put s.lock t (th.takes .upgrade), some trying)

def resume : LockResult :=
  match th.phase with
  | .running => (s, none)
  | .lockWrite => waitWrite s t th
  | .drain => drain s t th
  | .lockRead => waitRead s t th
  | .upgrade trying => waitUpgrade s t th trying

def lockWrite : LockResult :=
  if s.lock.thread = some t then
    (s.put { s.lock with recursionDepth := s.lock.recursionDepth + 1 } t (th.takes .deep), none)
  else waitWrite s t th

def lockRead : LockResult :=
  if s.lock.thread = some t then
    (s.put { s.lock with readCount := s.lock.readCount + 1 } t (th.takes .read), none)
  else waitRead s t th

def Lock.release (l : Lock) : Lock :=
  if l.recursionDepth ≠ 0 then { l with recursionDepth := l.recursionDepth - 1 }
  else if l.wantUpgrade then { l with wantUpgrade := false }
  else { l with wantWrite := false }

def lockDone : LockResult :=
  let l :=
    if s.lock.readCount ≠ 0 then { s.lock with readCount := s.lock.readCount - 1 }
    else s.lock.release
  ((s.put l t { th with holds := th.holds.tail }).wakeup, none)

def lockReadToWrite : LockResult :=
  let l := { s.lock with readCount := s.lock.readCount - 1 }
  let th := { th with holds := th.holds.tail }
  if l.thread = some t then
    (s.put { l with recursionDepth := l.recursionDepth + 1 } t (th.takes .deep),
    some false)
  else if l.wantUpgrade then ((s.put l t th).wakeup, some true)
  else waitUpgrade { s with lock := { l with wantUpgrade := true } } t th false

def lockWriteToRead : LockResult :=
  let l := { s.lock with readCount := s.lock.readCount + 1 }
  ((s.put l.release t { th with holds := .read :: th.holds.tail }).wakeup, none)

def lockTryWrite : LockResult :=
  if s.lock.thread = some t then
    (s.put { s.lock with recursionDepth := s.lock.recursionDepth + 1 } t (th.takes .deep),
      some true)
  else if s.lock.wantWrite ∨ s.lock.wantUpgrade ∨ s.lock.readCount ≠ 0 then (s, some false)
  else (s.put { s.lock with wantWrite := true } t (th.takes .write), some true)

def lockTryRead : LockResult :=
  if s.lock.thread = some t then
    (s.put { s.lock with readCount := s.lock.readCount + 1 } t (th.takes .read),
    some true)
  else if s.lock.wantWrite ∨ s.lock.wantUpgrade then (s, some false)
  else (s.put { s.lock with readCount := s.lock.readCount + 1 } t (th.takes .read), some true)

def lockTryReadToWrite : LockResult :=
  let l := { s.lock with readCount := s.lock.readCount - 1 }
  if l.thread = some t then
    (s.put { l with recursionDepth := l.recursionDepth + 1 }
      t ({ th with holds := th.holds.tail }.takes .deep), some true)
  else if l.wantUpgrade then (s, some false)
  else waitUpgrade { s with lock := { l with wantUpgrade := true } }
    t { th with holds := th.holds.tail } true

def lockSetRecursive : LockResult :=
  if s.lock.wantWrite = false then ({ s with panicked := true }, none)
  else (s.put { s.lock with thread := some t } t { th with recursive := true }, none)

def lockClearRecursive : LockResult :=
  if s.lock.thread ≠ some t then ({ s with panicked := true }, none)
  else
    let l := if s.lock.recursionDepth = 0 then { s.lock with thread := none } else s.lock
    (s.put l t { th with recursive := false }, none)

end Routines

section Steps

inductive LockOp where
  | lockWrite | lockRead | lockDone | lockReadToWrite | lockWriteToRead
  | lockTryWrite | lockTryRead | lockTryReadToWrite
  | lockSetRecursive | lockClearRecursive
  deriving DecidableEq, Repr

inductive LockEvent where
  | call (t : Nat) (op : LockOp)
  | resume (t : Nat)
  deriving DecidableEq, Repr

def Thread.writes (th : Thread) : Prop := ∃ h ∈ th.holds, h ≠ .read

instance (th : Thread) : Decidable th.writes :=
  inferInstanceAs (Decidable (∃ h ∈ th.holds, h ≠ .read))

/-- What a thread may call: it releases the last hold it got, is not recursive any more when it
releases the last one it has, and asks for writing in recursive mode only if it writes. -/
def Thread.permits (th : Thread) : LockOp → Prop
  | .lockWrite | .lockTryWrite => th.recursive → th.writes
  | .lockRead | .lockTryRead => True
  | .lockDone => th.holds ≠ [] ∧ (th.holds.length = 1 → th.recursive = false)
  | .lockReadToWrite | .lockTryReadToWrite => th.holds.head? = some .read ∧
    (th.recursive → th.writes)
  | .lockWriteToRead => ∃ h ∈ th.holds.head?, h ≠ .read
  | .lockSetRecursive => .write ∈ th.holds
  | .lockClearRecursive => th.recursive

instance (th : Thread) : (op : LockOp) → Decidable (th.permits op)
  | .lockWrite | .lockTryWrite => inferInstanceAs (Decidable (_ → _))
  | .lockRead | .lockTryRead => inferInstanceAs (Decidable True)
  | .lockDone => inferInstanceAs (Decidable (_ ∧ (_ → _)))
  | .lockReadToWrite | .lockTryReadToWrite => inferInstanceAs (Decidable (_ ∧ (_ → _)))
  | .lockWriteToRead => inferInstanceAs (Decidable (∃ h ∈ th.holds.head?, h ≠ .read))
  | .lockSetRecursive => inferInstanceAs (Decidable (_ ∈ _))
  | .lockClearRecursive => inferInstanceAs (Decidable (_ = true))

def lockCall (s : LockState) (t : Nat) (th : Thread) : LockOp → LockResult
  | .lockWrite => lockWrite s t th
  | .lockRead => lockRead s t th
  | .lockDone => lockDone s t th
  | .lockReadToWrite => lockReadToWrite s t th
  | .lockWriteToRead => lockWriteToRead s t th
  | .lockTryWrite => lockTryWrite s t th
  | .lockTryRead => lockTryRead s t th
  | .lockTryReadToWrite => lockTryReadToWrite s t th
  | .lockSetRecursive => lockSetRecursive s t th
  | .lockClearRecursive => lockClearRecursive s t th

/-- A thread that is running calls what it may, one that waits and is awake goes on. -/
def lockStep (s : LockState) : LockEvent → Option LockResult
  | .call t op =>
    match s.threads[t]? with
    | none => none
    | some th => if th.phase = .running ∧ th.permits op then some (lockCall s t th op) else none
  | .resume t =>
    match s.threads[t]? with
    | none => none
    | some th => if th.phase ≠ .running ∧ th.asleep = false then some (resume s t th) else none

end Steps

end FreeBsd.Vm
