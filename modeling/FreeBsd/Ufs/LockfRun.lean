import FreeBsd.Lib.Trace
import FreeBsd.Ufs.LockfList

/-! `lf_advlock` and the blocking loop of `lf_setlock`, as steps of a system: the lock
list of one file, and the processes asleep in a request for it. A sleeping process
takes its next step when `tsleep` returns, with 0 after a `wakeup` on its request, or
with an error at any time. Here the `MALLOC` of `lf_split` does not sleep. Addresses are never
used twice. -/
namespace FreeBsd.Ufs

open FreeBsd.Lib (wrap32)

/-- The `id` of a lock: the process for `fcntl` locks, the open file for `flock`. -/
inductive Owner where
  | proc (p : Nat)
  | file (f : Nat)
  deriving DecidableEq, Repr

inductive Errno where
  | eagain | edeadlk | einval | eintr | erestart
  deriving DecidableEq, Repr

inductive Op where
  | setlk | unlck | getlk | other
  deriving DecidableEq, Repr

inductive Whence where
  | set | cur | fromEnd | other
  deriving DecidableEq, Repr

/-- The fields of `struct flock` that `lf_advlock` reads. -/
structure Flock where
  type : LockType
  whence : Whence
  start : Int
  len : Int
  deriving DecidableEq, Repr

/-- The arguments of `lf_advlock`, and the process that makes the call. -/
structure Call where
  proc : Nat
  id : Owner
  wait : Bool
  op : Op
  fl : Flock
  size : Nat
  deriving DecidableEq, Repr

/-- `F_POSIX` requests are made by their owner, as in `fcntl` and `closef`. -/
def Call.Proper (c : Call) : Prop := ∀ p, c.id = .proc p → p = c.proc

def Owner.flags (id : Owner) (wait : Bool) : LockFlags :=
  match id with
  | .proc _ => ⟨wait, false, true⟩
  | .file _ => ⟨wait, true, false⟩

/-- A process in `tsleep` on its request; `blocker` is the request's `lf_next`. -/
structure Waiter where
  proc : Nat
  lock : Lockf Owner
  blocker : Nat
  woken : Bool
  deriving DecidableEq, Repr

structure State where
  locks : List (Lockf Owner)
  waiters : List Waiter
  fresh : Nat
  deriving DecidableEq, Repr

/-- What the call or the pass through the loop of `lf_setlock` ends with. `found` is the
answer of `lf_getlock`: type, start, length and the process, if there is one. -/
inductive Result where
  | done
  | failed (error : Errno)
  | asleep
  | found (block : Option (LockType × Int × Int × Option Nat))
  deriving DecidableEq, Repr

/-- What the deadlock search can read that this file does not determine: the locks of
other files that a process waits for, and memory that has been freed. Each is the
`F_POSIX` flag and the owner of a lock. -/
structure Outside where
  waits : Nat → Option (Bool × Owner)
  freed : Nat → Bool × Owner

def State.init : State := ⟨[], [], 0⟩

/-- `wakeup` on the requests that `lf_wakelock` has taken off their chain. -/
def State.wakeup (s : State) (woken : List Nat) : List Waiter :=
  s.waiters.map fun w => if w.lock.addr ∈ woken then { w with woken := true } else w

def State.edit (s : State) (e : Edit Owner) : State := ⟨e.list, s.wakeup e.woken, s.fresh + 1⟩

/-- `lf_addblock`: the request goes to the end of the chain. -/
def addBlock (block request : Nat) (locks : List (Lockf Owner)) : List (Lockf Owner) :=
  locks.map fun lf => if lf.addr = block then { lf with block := lf.block ++ [request] } else lf

def State.waitblock (s : State) (out : Outside) (wproc : Nat) : Option (Bool × Owner) :=
  match s.waiters.find? fun w => w.proc = wproc ∧ w.woken = false with
  | none => out.waits wproc
  | some w =>
    match s.locks.find? fun lf => lf.addr = w.blocker with
    | some lf => some (lf.flags.posix, lf.id)
    | none => some (out.freed w.blocker)

def maxlockdepth : Nat := 50

/-- The search for a cycle of wait channels that involves the requester. -/
def State.deadlock (s : State) (out : Outside) (id : Owner) : Nat → Owner → Bool
  | 0, _ => false
  | _ + 1, .file _ => false
  | i + 1, .proc wproc =>
    match s.waitblock out wproc with
    | none | some (false, _) => false
    | some (true, owner) => if owner = id then true else s.deadlock out id i owner

/-- The request joins the chain of the lock that blocks it and its process sleeps. -/
def State.sleep (s : State) (proc : Nat) (lock block : Lockf Owner) : State :=
  { s with locks := addBlock block.addr lock.addr s.locks,
           waiters := s.waiters ++ [⟨proc, lock, block.addr, false⟩] }

/-- One pass through `lf_setlock`, from `lf_getblock` to a return or to `tsleep`. -/
def setLock (s : State) (out : Outside) (proc : Nat) (lock : Lockf Owner) :
    Option (State × Result) :=
  match getBlock lock s.locks with
  | none => (insertLock s.fresh lock s.locks).map fun e => (s.edit e, .done)
  | some block =>
    if lock.flags.wait = false then some (s, .failed .eagain)
    else if lock.flags.posix ∧ block.flags.posix ∧ s.deadlock out lock.id maxlockdepth block.id then
      some (s, .failed .edeadlk)
    else if lock.flags.flock ∧ lock.type = .wrlck then
      (clearLock s.fresh lock s.locks).map fun e => ((s.edit e).sleep proc lock block, .asleep)
    else some (s.sleep proc lock block, .asleep)

def getLock (lock : Lockf Owner) (locks : List (Lockf Owner)) :
    Option (LockType × Int × Int × Option Nat) :=
  (getBlock lock locks).map fun block =>
    (block.type, block.start,
      if block.last = -1 then 0 else wrap32 (block.last - block.start + 1),
      match block.id with
      | .proc p => if block.flags.posix then some p else none
      | .file _ => none)

/-- The start of the range; `none` for an unknown `l_whence`. -/
def Call.start (c : Call) : Option Int :=
  match c.fl.whence with
  | .set | .cur => some c.fl.start
  | .fromEnd => some (wrap32 (c.size + c.fl.start))
  | .other => none

def Call.last (c : Call) (start : Int) : Int :=
  if c.fl.len = 0 then -1 else wrap32 (start + c.fl.len - 1)

def Call.lock (c : Call) (addr : Nat) (start : Int) : Lockf Owner :=
  ⟨addr, c.id.flags c.wait, c.fl.type, start, c.last start, c.id, []⟩

def advlock (s : State) (out : Outside) (c : Call) : Option (State × Result) :=
  if s.locks = [] ∧ c.op ≠ .setlk then some (s, .done)
  else
    match c.start with
    | none => some (s, .failed .einval)
    | some start =>
      if start < 0 then some (s, .failed .einval)
      else
        let lock := c.lock s.fresh start
        let s := { s with fresh := s.fresh + 1 }
        match c.op with
        | .setlk => setLock s out c.proc lock
        | .unlck => (clearLock s.fresh lock s.locks).map fun e => (s.edit e, .done)
        | .getlk => some (s, .found (getLock lock s.locks))
        | .other => some (s, .failed .einval)

inductive Event where
  | call (c : Call) (result : Result)
  | resume (request : Nat) (result : Result)
  | interrupt (request : Nat) (error : Errno)
  deriving DecidableEq, Repr

/-- A process calls `lf_advlock`, or comes back from `tsleep`: with 0, to look for a
blocking lock again, or with an error, to clear the range and give up. -/
inductive Step : State → Event → State → Prop where
  | call {s s' : State} {out : Outside} {c : Call} {result : Result} :
      c.Proper → (∀ w ∈ s.waiters, w.proc ≠ c.proc) → advlock s out c = some (s', result) →
      Step s (.call c result) s'
  | resume {s s' : State} {out : Outside} {w : Waiter} {before after : List Waiter}
      {result : Result} : s.waiters = before ++ w :: after → w.woken = true →
      setLock { s with waiters := before ++ after } out w.proc w.lock = some (s', result) →
      Step s (.resume w.lock.addr result) s'
  | interrupt {s : State} {w : Waiter} {before after : List Waiter} {error : Errno}
      {e : Edit Owner} : s.waiters = before ++ w :: after → error = .eintr ∨ error = .erestart →
      clearLock s.fresh w.lock s.locks = some e →
      Step s (.interrupt w.lock.addr error) ({ s with waiters := before ++ after }.edit e)

theorem setLock_cases {s s' : State} {out : Outside} {proc : Nat} {lock : Lockf Owner}
    {result : Result} (pass : setLock s out proc lock = some (s', result)) :
    (∃ e, getBlock lock s.locks = none ∧ insertLock s.fresh lock s.locks = some e ∧
      s' = s.edit e ∧ result = .done) ∨
    (∃ block error, getBlock lock s.locks = some block ∧ (error = .eagain ∨ error = .edeadlk) ∧
      s' = s ∧ result = .failed error) ∨
    (∃ block e, getBlock lock s.locks = some block ∧ lock.flags.flock = true ∧
      clearLock s.fresh lock s.locks = some e ∧ s' = (s.edit e).sleep proc lock block ∧
      result = .asleep) ∨
    (∃ block, getBlock lock s.locks = some block ∧ s' = s.sleep proc lock block ∧
      result = .asleep) := by
  unfold setLock at pass
  cases search : getBlock lock s.locks with
  | none =>
    simp only [search, Option.map_eq_some_iff, Prod.mk.injEq] at pass
    obtain ⟨e, insert, rfl, rfl⟩ := pass
    exact .inl ⟨e, rfl, insert, rfl, rfl⟩
  | some block =>
    simp only [search] at pass
    split_ifs at pass with wait cycle exclusive
    · cases pass
      exact .inr (.inl ⟨block, .eagain, rfl, .inl rfl, rfl, rfl⟩)
    · cases pass
      exact .inr (.inl ⟨block, .edeadlk, rfl, .inr rfl, rfl, rfl⟩)
    · rw [Option.map_eq_some_iff] at pass
      obtain ⟨e, clear, same⟩ := pass
      cases same
      exact .inr (.inr (.inl ⟨block, e, rfl, exclusive.1, clear, rfl, rfl⟩))
    · cases pass
      exact .inr (.inr (.inr ⟨block, rfl, rfl, rfl⟩))

/-- Everything a call can do; `{ s with fresh := s.fresh + 1 }` is the state once the
request has been allocated. -/
theorem advlock_cases {s s' : State} {out : Outside} {c : Call} {result : Result}
    (call : advlock s out c = some (s', result)) :
    (s'.locks = s.locks ∧ s'.waiters = s.waiters ∧ s.fresh ≤ s'.fresh ∧ result ≠ .asleep ∧
      (c.op = .setlk → result ≠ .done)) ∨
    (∃ start, c.start = some start ∧ 0 ≤ start ∧ c.op = .setlk ∧
      setLock { s with fresh := s.fresh + 1 } out c.proc (c.lock s.fresh start) =
        some (s', result)) ∨
    (∃ start e, c.start = some start ∧ 0 ≤ start ∧ c.op = .unlck ∧
      clearLock (s.fresh + 1) (c.lock s.fresh start) s.locks = some e ∧
      s' = { s with fresh := s.fresh + 1 }.edit e ∧ result = .done) := by
  unfold advlock at call
  split_ifs at call with empty
  · cases call
    exact .inl ⟨rfl, rfl, le_refl _, by simp, fun set => absurd set empty.2⟩
  · cases found : c.start with
    | none =>
      simp only [found] at call
      cases call
      exact .inl ⟨rfl, rfl, le_refl _, by simp, by simp⟩
    | some start =>
      simp only [found] at call
      split_ifs at call with negative
      · cases call
        exact .inl ⟨rfl, rfl, le_refl _, by simp, by simp⟩
      · cases op : c.op with
        | setlk =>
          simp only [op] at call
          exact .inr (.inl ⟨start, rfl, by omega, rfl, call⟩)
        | unlck =>
          simp only [op, Option.map_eq_some_iff] at call
          obtain ⟨e, clear, same⟩ := call
          cases same
          exact .inr (.inr ⟨start, e, rfl, by omega, rfl, clear, rfl, rfl⟩)
        | getlk =>
          simp only [op] at call
          cases call
          exact .inl ⟨rfl, rfl, Nat.le_succ _, by simp, by simp⟩
        | other =>
          simp only [op] at call
          cases call
          exact .inl ⟨rfl, rfl, Nat.le_succ _, by simp, by simp⟩

end FreeBsd.Ufs
