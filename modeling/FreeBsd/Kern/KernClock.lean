import FreeBsd.Lib.Trace
import Mathlib.Data.BitVec
import Mathlib.Data.List.Perm.Basic

/-! The callout queue of `kern/kern_clock.c`. Each entry holds the ticks that are left
after the entry before it, a 32-bit `int`, and the entries at the front that are due hold
0 or less. The queue is compared with a list of absolute deadlines. -/
namespace FreeBsd.Kern.KernClock

open FreeBsd.Lib

variable {F A : Type}

structure Callout (F A : Type) where
  func : F
  arg : A
  time : BitVec 32
  deriving DecidableEq

/-- `calltodo`, the number of entries on `callfree`, and the calls `(*func)(arg, a)` that
`softclock` has made. -/
structure Clock (F A : Type) where
  todo : List (Callout F A)
  free : Nat
  ran : List (Callout F A)

inductive Event (F A : Type) where
  | tick
  | timeout (func : F) (arg : A) (t : BitVec 32)
  | untimeout (func : F) (arg : A)
  | soft

def hardclock : List (Callout F A) → List (Callout F A)
  | [] => []
  | p1 :: rest =>
    let p1 := { p1 with time := p1.time - 1 }
    if p1.time.toInt > 0 then p1 :: rest
    else if p1.time = 0 then p1 :: rest
    else p1 :: hardclock rest

def enqueue (func : F) (arg : A) : BitVec 32 → List (Callout F A) → List (Callout F A)
  | t, [] => [⟨func, arg, t⟩]
  | t, p2 :: rest =>
    if p2.time.toInt < t.toInt then
      p2 :: enqueue func arg (if p2.time.toInt > 0 then t - p2.time else t) rest
    else ⟨func, arg, t⟩ :: { p2 with time := p2.time - t } :: rest

/-- A full table is `panic("timeout table overflow")`. -/
def timeout (s : Clock F A) (func : F) (arg : A) (t : BitVec 32) : Option (Clock F A) :=
  match s.free with
  | 0 => none
  | free + 1 =>
    some { s with free := free, todo := enqueue func arg (if t.toInt ≤ 0 then 1 else t) s.todo }

/-- `c_time` of a removed entry goes to the next one. -/
def passOn (time : BitVec 32) : List (Callout F A) → List (Callout F A)
  | [] => []
  | p :: rest => { p with time := p.time + time } :: rest

def dequeue [DecidableEq F] [DecidableEq A] (func : F) (arg : A) :
    List (Callout F A) → Option (List (Callout F A))
  | [] => none
  | p2 :: rest =>
    if p2.func = func ∧ p2.arg = arg then
      some (if p2.time.toInt > 0 then passOn p2.time rest else rest)
    else (dequeue func arg rest).map (p2 :: ·)

def untimeout [DecidableEq F] [DecidableEq A] (s : Clock F A) (func : F) (arg : A) : Clock F A :=
  match dequeue func arg s.todo with
  | none => s
  | some todo => { s with todo := todo, free := s.free + 1 }

/-- One turn of the loop of `softclock`; `none` is the `break`. -/
def softclock (s : Clock F A) : Option (Clock F A) :=
  match s.todo with
  | [] => none
  | p1 :: rest =>
    if p1.time.toInt > 0 then none
    else some { todo := rest, free := s.free + 1, ran := s.ran ++ [p1] }

def step [DecidableEq F] [DecidableEq A] (s : Clock F A) : Event F A → Option (Clock F A)
  | .tick => some { s with todo := hardclock s.todo }
  | .timeout func arg t => timeout s func arg t
  | .untimeout func arg => some (untimeout s func arg)
  | .soft => some ((softclock s).getD s)

section Deadlines

/-- A pending call: which call of `timeout` made it and the tick at which it is due. -/
structure Entry (F A : Type) where
  call : Nat
  due : Int
  func : F
  arg : A
  deriving DecidableEq

/-- The purpose of the queue: calls with absolute deadlines, earliest first. `ran` holds
the entries that were run, with the tick at which they were. -/
structure Deadlines (F A : Type) where
  now : Int
  calls : Nat
  pending : List (Entry F A)
  ran : List (Entry F A × Int)
  cancelled : List (Entry F A)

def Deadlines.init : Deadlines F A := ⟨0, 0, [], [], []⟩

def insertDue (e : Entry F A) : List (Entry F A) → List (Entry F A)
  | [] => [e]
  | x :: rest => if x.due < e.due then x :: insertDue e rest else e :: x :: rest

def wanted [DecidableEq F] [DecidableEq A] (func : F) (arg : A) (e : Entry F A) : Bool :=
  e.func = func ∧ e.arg = arg

def Deadlines.step [DecidableEq F] [DecidableEq A] (d : Deadlines F A) : Event F A → Deadlines F A
  | .tick => { d with now := d.now + 1 }
  | .timeout func arg t =>
    { d with calls := d.calls + 1,
             pending := insertDue ⟨d.calls, d.now + max t.toInt 1, func, arg⟩ d.pending }
  | .untimeout func arg =>
    { d with pending := d.pending.eraseP (wanted func arg),
             cancelled := d.cancelled ++ (d.pending.find? (wanted func arg)).toList }
  | .soft =>
    match d.pending with
    | [] => d
    | e :: rest =>
      if e.due ≤ d.now then { d with pending := rest, ran := d.ran ++ [(e, d.now)] } else d

def Deadlines.run [DecidableEq F] [DecidableEq A] (d : Deadlines F A) (events : List (Event F A)) :
    Deadlines F A :=
  events.foldl Deadlines.step d

/-- The calls of `timeout` among some events, with the deadlines they imply. -/
def asked (now : Int) (calls : Nat) : List (Event F A) → List (Entry F A)
  | [] => []
  | .tick :: rest => asked (now + 1) calls rest
  | .timeout func arg t :: rest =>
    ⟨calls, now + max t.toInt 1, func, arg⟩ :: asked now (calls + 1) rest
  | .untimeout _ _ :: rest => asked now calls rest
  | .soft :: rest => asked now calls rest

/-- The deadlines as the queue keeps them, behind an entry due at `base`. -/
def deltas (now : Int) : Int → List (Entry F A) → List (Callout F A)
  | _, [] => []
  | base, e :: rest =>
    if e.due ≤ now then ⟨e.func, e.arg, BitVec.ofInt 32 (e.due - now)⟩ :: deltas now now rest
    else ⟨e.func, e.arg, BitVec.ofInt 32 (e.due - base)⟩ :: deltas now e.due rest

/-- The ticks at which the entries of a queue become due, as computed from `c_time`. -/
def dueAt (now : Int) : Int → List (Callout F A) → List Int
  | _, [] => []
  | base, p :: rest =>
    if p.time.toInt < 0 then (now + p.time.toInt) :: dueAt now base rest
    else (base + p.time.toInt) :: dueAt now (base + p.time.toInt) rest

end Deadlines

section Arithmetic

def Small (x : Int) : Prop := -2 ^ 31 ≤ x ∧ x < 2 ^ 31

theorem toInt_small {x : Int} (small : Small x) : (BitVec.ofInt 32 x).toInt = x :=
  BitVec.toInt_ofInt_eq_self (by decide) small.1 small.2

theorem ofInt_sub (x y : Int) :
    BitVec.ofInt 32 x - BitVec.ofInt 32 y = BitVec.ofInt 32 (x - y) := by
  rw [Int.sub_eq_add_neg, BitVec.ofInt_add, BitVec.ofInt_neg, BitVec.sub_eq_add_neg]

end Arithmetic

section Lists

variable {now base : Int} {pending : List (Entry F A)}

def Ordered (pending : List (Entry F A)) : Prop := pending.Pairwise fun x y => x.due ≤ y.due

/-- What the queue can represent: the entries are in order, due or not before `base`, and
no time is too long for an `int`. -/
structure Fits (now base : Int) (pending : List (Entry F A)) : Prop where
  ordered : Ordered pending
  before : now ≤ base
  later : ∀ e ∈ pending, base ≤ e.due ∨ base = now
  small : ∀ e ∈ pending, Small (e.due - now)

theorem Fits.due {e : Entry F A} {rest : List (Entry F A)} (fits : Fits now base (e :: rest))
    (due : e.due ≤ now) : base = now ∧ Fits now now rest := by
  constructor
  · have before := fits.before
    rcases fits.later e List.mem_cons_self with above | same
    · omega
    · exact same
  · exact ⟨(List.pairwise_cons.mp fits.ordered).2, le_refl _, fun _ _ => .inr rfl,
      fun x member => fits.small x (List.mem_cons_of_mem _ member)⟩

theorem Fits.ahead {e : Entry F A} {rest : List (Entry F A)} (fits : Fits now base (e :: rest))
    (ahead : ¬ e.due ≤ now) : base ≤ e.due ∧ Fits now e.due rest := by
  constructor
  · rcases fits.later e List.mem_cons_self with above | same
    · exact above
    · omega
  · obtain ⟨first, tail⟩ := List.pairwise_cons.mp fits.ordered
    exact ⟨tail, by omega, fun x member => .inl (first x member),
      fun x member => fits.small x (List.mem_cons_of_mem _ member)⟩

theorem Fits.time {e : Entry F A} {rest : List (Entry F A)} (fits : Fits now base (e :: rest))
    (ahead : ¬ e.due ≤ now) : (BitVec.ofInt 32 (e.due - base)).toInt = e.due - base := by
  have above := (fits.ahead ahead).1
  have before := fits.before
  have small := (fits.small e List.mem_cons_self).2
  exact toInt_small ⟨by lia, by lia⟩

theorem deltas_later_cons {e : Entry F A} {rest : List (Entry F A)} (before : now ≤ base)
    (later : base ≤ e.due) :
    deltas now base (e :: rest) =
      ⟨e.func, e.arg, BitVec.ofInt 32 (e.due - base)⟩ :: deltas now e.due rest := by
  rw [deltas]
  split
  · have same : e.due = now := by lia
    have same' : base = now := by lia
    rw [same, same']
  · rfl

theorem deltas_later (now' : Int) (ordered : Ordered pending) (later : ∀ e ∈ pending, base ≤ e.due)
    (before : now ≤ base) (before' : now' ≤ base) :
    deltas now base pending = deltas now' base pending := by
  induction pending generalizing base with
  | nil => rfl
  | cons e rest ih =>
    obtain ⟨first, tail⟩ := List.pairwise_cons.mp ordered
    have here := later e List.mem_cons_self
    rw [deltas_later_cons before here, deltas_later_cons before' here,
      ih tail first (by omega) (by omega)]

theorem mem_insertDue {e x : Entry F A} :
    x ∈ insertDue e pending ↔ x = e ∨ x ∈ pending := by
  induction pending with
  | nil => simp [insertDue]
  | cons y rest ih =>
    rw [insertDue]
    split
    · rw [List.mem_cons, ih, List.mem_cons]
      tauto
    · rw [List.mem_cons]

theorem ordered_insertDue {e : Entry F A} (ordered : Ordered pending) :
    Ordered (insertDue e pending) := by
  induction pending with
  | nil => exact List.pairwise_singleton _ _
  | cons x rest ih =>
    obtain ⟨first, tail⟩ := List.pairwise_cons.mp ordered
    rw [insertDue]
    split
    · rename_i earlier
      refine List.pairwise_cons.mpr ⟨fun y member => ?_, ih tail⟩
      rcases mem_insertDue.mp member with rfl | member
      · exact earlier.le
      · exact first y member
    · rename_i later
      refine List.pairwise_cons.mpr ⟨fun y member => ?_, ordered⟩
      rcases List.mem_cons.mp member with rfl | member
      · omega
      · exact (Int.not_lt.mp later).trans (first y member)

/-- A new deadline goes in behind the earlier ones, and the next entry gives up its time. -/
theorem enqueue_deltas {e : Entry F A} (fits : Fits now base pending) (ahead : base < e.due)
    (room : Small (e.due - now)) :
    enqueue e.func e.arg (BitVec.ofInt 32 (e.due - base)) (deltas now base pending) =
      deltas now base (insertDue e pending) := by
  have before := fits.before
  have later : ¬ e.due ≤ now := by lia
  induction pending generalizing base with
  | nil => simp only [deltas, enqueue, insertDue, if_neg later]
  | cons x rest ih =>
    have time : (BitVec.ofInt 32 (e.due - base)).toInt = e.due - base :=
      toInt_small ⟨by lia, by have := room.2; lia⟩
    by_cases due : x.due ≤ now
    · obtain ⟨rfl, tail⟩ := fits.due due
      have earlier : x.due < e.due := by lia
      simp only [deltas, if_pos due, enqueue, time, toInt_small (fits.small x List.mem_cons_self),
        insertDue, if_pos earlier]
      rw [if_pos (by lia), if_neg (by lia), ih tail ahead (le_refl _)]
    · obtain ⟨above, tail⟩ := fits.ahead due
      simp only [deltas, if_neg due, enqueue, time, fits.time due, insertDue]
      by_cases earlier : x.due < e.due
      · have left :
            (if x.due - base > 0 then BitVec.ofInt 32 (e.due - base) - BitVec.ofInt 32
            (x.due - base)
            else BitVec.ofInt 32 (e.due - base)) = BitVec.ofInt 32 (e.due - x.due) := by
          split
          · rw [ofInt_sub]
            congr 1
            lia
          · congr 1
            lia
        rw [if_pos (by lia), left, ih tail earlier (by lia), if_pos earlier]
        simp only [deltas, if_neg due]
      · rw [if_neg (by lia), if_neg earlier, ofInt_sub]
        simp only [deltas, if_neg later, if_neg due]
        congr 4
        lia

theorem passOn_deltas {x : Int} (fits : Fits now x pending) (ahead : now < x) (base : Int) :
    passOn (BitVec.ofInt 32 (x - base)) (deltas now x pending) = deltas now base pending := by
  cases pending with
  | nil => rfl
  | cons e rest =>
    have due : ¬ e.due ≤ now := by
      rcases fits.later e List.mem_cons_self with above | same <;> lia
    simp only [deltas, if_neg due, passOn, ← BitVec.ofInt_add]
    congr 3
    lia

theorem dequeue_deltas [DecidableEq F] [DecidableEq A] (func : F) (arg : A)
    (fits : Fits now base pending) :
    dequeue func arg (deltas now base pending) =
      if pending.any (wanted func arg) then
        some (deltas now base (pending.eraseP (wanted func arg)))
      else none := by
  induction pending generalizing base with
  | nil => rfl
  | cons e rest ih =>
    by_cases here : e.func = func ∧ e.arg = arg
    · have found : wanted func arg e = true := decide_eq_true here
      rw [List.eraseP_cons_of_pos found, List.any_cons, found, Bool.true_or, if_pos rfl]
      by_cases due : e.due ≤ now
      · obtain ⟨rfl, _⟩ := fits.due due
        simp only [deltas, if_pos due, dequeue, if_pos here,
          toInt_small (fits.small e List.mem_cons_self)]
        rw [if_neg (by lia)]
      · obtain ⟨above, tail⟩ := fits.ahead due
        simp only [deltas, if_neg due, dequeue, if_pos here, fits.time due]
        by_cases more : e.due - base > 0
        · rw [if_pos more, passOn_deltas tail (by lia)]
        · have same : e.due = base := by lia
          rw [if_neg more, same]
    · have other : ¬ wanted func arg e = true := fun found => here (of_decide_eq_true found)
      rw [List.eraseP_cons_of_neg other, List.any_cons, Bool.eq_false_iff.mpr other, Bool.false_or]
      by_cases due : e.due ≤ now
      · obtain ⟨rfl, tail⟩ := fits.due due
        simp only [deltas, if_pos due, dequeue, if_neg here, ih tail]
        split <;> rfl
      · obtain ⟨_, tail⟩ := fits.ahead due
        simp only [deltas, if_neg due, dequeue, if_neg here, ih tail]
        split <;> rfl

theorem hardclock_deltas (fits : Fits now now pending)
    (room : ∀ e ∈ pending, e.due - now ≠ -2 ^ 31) :
    hardclock (deltas now now pending) = deltas (now + 1) (now + 1) pending := by
  induction pending with
  | nil => rfl
  | cons e rest ih =>
    have one : BitVec.ofInt 32 (e.due - now) - 1 = BitVec.ofInt 32 (e.due - (now + 1)) := by
      rw [show (1 : BitVec 32) = BitVec.ofInt 32 1 from rfl, ofInt_sub]
      congr 1
      lia
    have first := room e List.mem_cons_self
    have small := fits.small e List.mem_cons_self
    have time : (BitVec.ofInt 32 (e.due - (now + 1))).toInt = e.due - (now + 1) :=
      toInt_small ⟨by have := small.1; lia, by have := small.2; lia⟩
    by_cases due : e.due ≤ now
    · obtain ⟨_, tail⟩ := fits.due due
      have nonzero : BitVec.ofInt 32 (e.due - (now + 1)) ≠ 0 := by
        intro zero
        rw [zero] at time
        have value : (0 : BitVec 32).toInt = 0 := rfl
        lia
      simp only [deltas, if_pos due, hardclock, one, time, if_neg nonzero]
      rw [if_neg (by lia), if_pos (by lia),
        ih tail (fun x member => room x (List.mem_cons_of_mem _ member))]
    · obtain ⟨_, tail⟩ := fits.ahead due
      have above : ∀ x ∈ rest, e.due ≤ x.due := (List.pairwise_cons.mp fits.ordered).1
      simp only [deltas, if_neg due, hardclock, one, time]
      by_cases next : e.due = now + 1
      · have zero : BitVec.ofInt 32 (e.due - (now + 1)) = 0 := by
          rw [next, Int.sub_self]
          rfl
        rw [if_neg (by lia), if_pos zero, if_pos (by lia), next,
          deltas_later (now + 1) tail.ordered (by rwa [← next]) (by lia) (le_refl _)]
      · rw [if_pos (by lia), if_neg (by lia),
          deltas_later (now + 1) tail.ordered above (by lia) (by lia)]

theorem dueAt_deltas (fits : Fits now base pending) :
    dueAt now base (deltas now base pending) = pending.map Entry.due := by
  induction pending generalizing base with
  | nil => rfl
  | cons e rest ih =>
    rw [List.map_cons]
    by_cases due : e.due ≤ now
    · obtain ⟨rfl, tail⟩ := fits.due due
      simp only [deltas, if_pos due, dueAt, toInt_small (fits.small e List.mem_cons_self),
        add_sub_cancel, ih tail]
      split
      · rfl
      · have same : e.due = base := by omega
        rw [same, ih tail]
    · obtain ⟨above, tail⟩ := fits.ahead due
      simp only [deltas, if_neg due, dueAt, fits.time due, add_sub_cancel, ih tail]
      rw [if_neg (by omega)]

theorem mem_deltas {e : Entry F A}
    (fits : Fits now now pending) (member : e ∈ pending) (due : e.due ≤ now) :
    ⟨e.func, e.arg, BitVec.ofInt 32 (e.due - now)⟩ ∈ deltas now now pending := by
  induction pending with
  | nil => contradiction
  | cons x rest ih =>
    have first : x.due ≤ now := by
      rcases List.mem_cons.mp member with rfl | later
      · exact due
      · exact ((List.pairwise_cons.mp fits.ordered).1 e later).trans due
    rw [deltas, if_pos first]
    rcases List.mem_cons.mp member with rfl | later
    · exact List.mem_cons_self
    · exact List.mem_cons_of_mem _ (ih (fits.due first).2 later)

end Lists

section Account

def Deadlines.all (d : Deadlines F A) : List (Entry F A) :=
  d.ran.map Prod.fst ++ d.pending ++ d.cancelled

theorem insertDue_perm (e : Entry F A) (pending : List (Entry F A)) :
    (insertDue e pending).Perm (e :: pending) := by
  induction pending with
  | nil => exact .refl _
  | cons x rest ih =>
    rw [insertDue]
    split
    · exact (ih.cons x).trans (.swap e x rest)
    · exact .refl _

theorem eraseP_perm (p : Entry F A → Bool) (pending : List (Entry F A)) :
    (pending.eraseP p ++ (pending.find? p).toList).Perm pending := by
  induction pending with
  | nil => exact .refl _
  | cons x rest ih =>
    by_cases here : p x = true
    · rw [List.eraseP_cons_of_pos here, List.find?_cons_of_pos here]
      exact List.perm_append_singleton x rest
    · rw [List.eraseP_cons_of_neg here, List.find?_cons_of_neg here]
      exact ih.cons x

variable [DecidableEq F] [DecidableEq A]

theorem Deadlines.step_all (d : Deadlines F A) (event : Event F A) (rest : List (Event F A)) :
    ((d.step event).all ++ asked (d.step event).now (d.step event).calls rest).Perm
      (d.all ++ asked d.now d.calls (event :: rest)) := by
  unfold Deadlines.all
  cases event with
  | tick => exact .refl _
  | timeout func arg t =>
    have new := insertDue_perm ⟨d.calls, d.now + max t.toInt 1, func, arg⟩ d.pending
    simp only [Deadlines.step, asked, List.append_assoc]
    refine (List.Perm.append_left _ (new.append_right _)).trans ?_
    refine List.Perm.append_left _ ?_
    rw [List.cons_append, ← List.append_assoc, ← List.append_assoc]
    exact List.perm_middle.symm
  | untimeout func arg =>
    have kept := eraseP_perm (wanted func arg) d.pending
    simp only [Deadlines.step, asked, List.append_assoc]
    refine List.Perm.append_left _ ?_
    refine (List.Perm.append_left _ (List.perm_append_comm_assoc _ _ _)).trans ?_
    rw [← List.append_assoc]
    exact kept.append_right _
  | soft =>
    unfold Deadlines.step
    cases pending : d.pending with
    | nil => simp [pending, asked]
    | cons e later =>
      dsimp only
      split
      · simp [asked]
      · simp [pending, asked]

theorem Deadlines.run_all (events : List (Event F A)) (d : Deadlines F A) :
    (d.run events).all.Perm (d.all ++ asked d.now d.calls events) := by
  induction events generalizing d with
  | nil => simp [Deadlines.run, asked]
  | cons event rest ih => exact (ih (d.step event)).trans (d.step_all event rest)

end Account

section Refinement

variable [DecidableEq F] [DecidableEq A]

/-- The queue stands for the deadlines, and the calls made for the entries run. -/
structure Refines (s : Clock F A) (d : Deadlines F A) : Prop where
  todo : s.todo = deltas d.now d.now d.pending
  fits : Fits d.now d.now d.pending
  ran : s.ran = d.ran.map fun r => ⟨r.1.func, r.1.arg, BitVec.ofInt 32 (r.1.due - r.2)⟩

/-- What was run was due, in the order of the deadlines, and nothing pending was due
before it. -/
structure Deadlines.Good (d : Deadlines F A) : Prop where
  reached : ∀ r ∈ d.ran, r.1.due ≤ r.2 ∧ r.2 ≤ d.now
  order : d.ran.Pairwise fun x y => x.1.due ≤ y.1.due
  first : ∀ r ∈ d.ran, ∀ e ∈ d.pending, r.1.due ≤ e.due

/-- An entry that has been due for 2^31 ticks has no room for another one. -/
def Room (s : Clock F A) (event : Event F A) : Prop :=
  event = .tick → ∀ p ∈ s.todo, p.time ≠ BitVec.intMin 32

def Step (s : Clock F A) (event : Event F A) (t : Clock F A) : Prop :=
  Room s event ∧ step s event = some t

variable {s t : Clock F A} {d : Deadlines F A} {event : Event F A}

theorem Refines.tick (refines : Refines s d) (room : Room s .tick) :
    Refines { s with todo := hardclock s.todo } (d.step .tick) := by
  have inside : ∀ e ∈ d.pending, e.due - d.now ≠ -2 ^ 31 := by
    intro e member least
    have due : e.due ≤ d.now := by lia
    have there := mem_deltas refines.fits member due
    rw [← refines.todo, least] at there
    have value : BitVec.ofInt 32 (-2 ^ 31) = BitVec.intMin 32 := by decide
    exact room rfl _ there value
  refine ⟨?_, ⟨refines.fits.ordered, le_refl _, fun _ _ => .inr rfl, fun e member => ?_⟩,
    refines.ran⟩
  · rw [refines.todo, hardclock_deltas refines.fits inside]
    rfl
  · have small := refines.fits.small e member
    have least := inside e member
    unfold Small at *
    change _ ≤ e.due - (d.now + 1) ∧ e.due - (d.now + 1) < _
    lia

theorem Refines.timeout {func : F} {arg : A} {time : BitVec 32} (refines : Refines s d)
    (done : timeout s func arg time = some t) : Refines t (d.step (.timeout func arg time)) := by
  unfold KernClock.timeout at done
  split at done
  · contradiction
  · cases done
    have below : time.toInt < 2 ^ 31 := by
      have bound := BitVec.toInt_lt (x := time)
      lia
    have ticks : (if time.toInt ≤ 0 then 1 else time) =
        BitVec.ofInt 32 (d.now + max time.toInt 1 - d.now) := by
      rw [add_sub_cancel_left]
      split
      · rw [max_eq_right (by lia)]
        rfl
      · rw [max_eq_left (by lia), BitVec.ofInt_toInt]
    have room : Small (d.now + max time.toInt 1 - d.now) := by
      unfold Small
      lia
    refine ⟨?_, ⟨ordered_insertDue refines.fits.ordered, le_refl _, fun _ _ => .inr rfl, ?_⟩,
      refines.ran⟩
    · have added := enqueue_deltas (e := ⟨d.calls, d.now + max time.toInt 1, func, arg⟩)
        refines.fits
        (by dsimp only; lia) room
      rw [← refines.todo] at added
      rw [ticks]
      exact added
    · intro e member
      rcases mem_insertDue.mp member with rfl | member
      · exact room
      · exact refines.fits.small e member

theorem Refines.untimeout (refines : Refines s d) (func : F) (arg : A) :
    Refines (untimeout s func arg) (d.step (.untimeout func arg)) := by
  have fits : Fits d.now d.now (d.pending.eraseP (wanted func arg)) :=
    ⟨refines.fits.ordered.sublist List.eraseP_sublist, le_refl _, fun _ _ => .inr rfl,
      fun e member => refines.fits.small e (List.mem_of_mem_eraseP member)⟩
  unfold KernClock.untimeout
  rw [refines.todo, dequeue_deltas func arg refines.fits]
  by_cases found : d.pending.any (wanted func arg) = true
  · rw [if_pos found]
    exact ⟨rfl, fits, refines.ran⟩
  · have same : d.pending.eraseP (wanted func arg) = d.pending := by
      refine List.eraseP_of_forall_not fun e member here => found ?_
      exact List.any_eq_true.mpr ⟨e, member, here⟩
    rw [if_neg found]
    refine ⟨?_, fits, refines.ran⟩
    rw [refines.todo]
    exact congrArg _ same.symm

/-- The loop of `softclock` goes on just while the first deadline has been reached. -/
theorem Refines.soft (refines : Refines s d) :
    Refines ((softclock s).getD s) (d.step .soft) ∧
      (softclock s = none ↔ ∀ e ∈ d.pending, d.now < e.due) := by
  unfold softclock Deadlines.step
  rw [refines.todo]
  cases pending : d.pending with
  | nil =>
    refine ⟨?_, by simp [deltas]⟩
    exact refines
  | cons e rest =>
    have fits := refines.fits
    rw [pending] at fits
    by_cases due : e.due ≤ d.now
    · have time := toInt_small (fits.small e List.mem_cons_self)
      simp only [deltas, if_pos due, time]
      rw [if_neg (by lia)]
      refine ⟨⟨rfl, (fits.due due).2, ?_⟩, iff_of_false (by simp) ?_⟩
      · simp [refines.ran]
      · exact fun later => absurd (later e List.mem_cons_self) (by lia)
    · have time := fits.time due
      simp only [deltas, if_neg due, time]
      rw [if_pos (by lia)]
      refine ⟨refines, iff_of_true rfl fun x member => ?_⟩
      rcases List.mem_cons.mp member with rfl | later
      · lia
      · have above := (List.pairwise_cons.mp fits.ordered).1 x later
        lia

theorem Refines.step (refines : Refines s d) (moved : Step s event t) :
    Refines t (d.step event) := by
  obtain ⟨room, done⟩ := moved
  cases event with
  | tick =>
    cases done
    exact refines.tick room
  | timeout func arg time => exact refines.timeout done
  | untimeout func arg =>
    cases done
    exact refines.untimeout func arg
  | soft =>
    cases done
    exact refines.soft.1

theorem Deadlines.Good.step (good : d.Good) (ordered : Ordered d.pending) (event : Event F A) :
    (d.step event).Good := by
  obtain ⟨reached, order, first⟩ := good
  cases event with
  | tick =>
    refine ⟨fun r member => ⟨(reached r member).1, ?_⟩, order, first⟩
    exact (reached r member).2.trans (Int.le_add_one (le_refl _))
  | timeout func arg t =>
    refine ⟨reached, order, fun r member e pending => ?_⟩
    rcases mem_insertDue.mp pending with rfl | pending
    · have past := reached r member
      dsimp only
      omega
    · exact first r member e pending
  | untimeout func arg =>
    exact ⟨reached, order, fun r member e kept => first r member e (List.mem_of_mem_eraseP kept)⟩
  | soft =>
    unfold Deadlines.step
    cases pending : d.pending with
    | nil => exact ⟨reached, order, first⟩
    | cons e rest =>
      dsimp only
      split
      · rename_i due
        rw [pending] at ordered first
        refine ⟨fun r member => ?_, ?_, fun r member x later => ?_⟩
        · rcases List.mem_append.mp member with before | here
          · exact reached r before
          · rw [List.mem_singleton.mp here]
            exact ⟨due, le_refl _⟩
        · refine List.pairwise_append.mpr ⟨order, List.pairwise_singleton _ _,
            fun r before x here => ?_⟩
          rw [List.mem_singleton.mp here]
          exact first r before e List.mem_cons_self
        · rcases List.mem_append.mp member with before | here
          · exact first r before x (List.mem_cons_of_mem _ later)
          · rw [List.mem_singleton.mp here]
            exact (List.pairwise_cons.mp ordered).1 x later
      · exact ⟨reached, order, first⟩

theorem Refines.run {events : List (Event F A)} (run : Run Step s events t) (refines : Refines s d)
    (good : d.Good) : Refines t (d.run events) ∧ (d.run events).Good := by
  induction run generalizing d with
  | nil s => exact ⟨refines, good⟩
  | cons moved rest ih => exact ih (refines.step moved) (good.step refines.fits.ordered _)

omit [DecidableEq F] [DecidableEq A] in
theorem refines_init (n : Nat) : Refines (⟨[], n, []⟩ : Clock F A) .init :=
  ⟨rfl, ⟨List.Pairwise.nil, le_refl _, fun _ _ => .inr rfl, fun _ member => by contradiction⟩, rfl⟩

/-- After any events from an empty queue on, the queue holds the deadlines that the calls
of `timeout` implied, each of which is pending, cancelled or was run once; what was run
was due and in the order of the deadlines; `softclock` goes on while a deadline has been
reached; and `untimeout` takes the first match. -/
theorem callouts_keep_deadlines {n : Nat} {events : List (Event F A)}
    (run : Run Step ⟨[], n, []⟩ events s) :
    s.todo = deltas (Deadlines.init.run events).now (Deadlines.init.run events).now
        (Deadlines.init.run events).pending ∧
      dueAt (Deadlines.init.run events).now (Deadlines.init.run events).now s.todo =
        (Deadlines.init.run events).pending.map Entry.due ∧
      (Deadlines.init.run events).all.Perm (asked 0 0 events) ∧
      s.ran = (Deadlines.init.run events).ran.map
        (fun r => ⟨r.1.func, r.1.arg, BitVec.ofInt 32 (r.1.due - r.2)⟩) ∧
      (∀ r ∈ (Deadlines.init.run events).ran, r.1.due ≤ r.2) ∧
      (Deadlines.init.run events).ran.Pairwise (fun x y => x.1.due ≤ y.1.due) ∧
      (softclock s = none ↔
        ∀ e ∈ (Deadlines.init.run events).pending, (Deadlines.init.run events).now < e.due) ∧
      ∀ func arg, (untimeout s func arg).todo =
        deltas (Deadlines.init.run events).now (Deadlines.init.run events).now
          ((Deadlines.init.run events).pending.eraseP (wanted func arg)) := by
  have start : (Deadlines.init : Deadlines F A).Good :=
    ⟨fun _ member => by contradiction, List.Pairwise.nil, fun _ member => by contradiction⟩
  obtain ⟨refines, good⟩ := Refines.run run (refines_init n) start
  refine ⟨refines.todo, ?_, Deadlines.run_all events .init, refines.ran,
    fun r member => (good.reached r member).1, good.order, refines.soft.2, fun func arg => ?_⟩
  · rw [refines.todo]
    exact dueAt_deltas refines.fits
  · exact (refines.untimeout func arg).todo

def fewCallouts : List (Event Bool Nat) :=
  [.timeout true 0 3, .timeout false 0 2, .timeout true 1 2, .tick, .untimeout false 0, .tick,
    .tick, .soft]

theorem fewCallouts_run :
    Run Step ⟨[], 3, []⟩ fewCallouts ⟨[⟨true, 0, 0⟩], 2, [⟨true, 1, -1⟩]⟩ := by
  have other {s : Clock Bool Nat} {event : Event Bool Nat} (differ : event ≠ .tick) :
      Room s event :=
    fun same => absurd same differ
  refine .cons ⟨other nofun, rfl⟩ (.cons ⟨other nofun, rfl⟩ (.cons ⟨other nofun, rfl⟩ ?_))
  refine .cons ⟨fun _ => by decide, rfl⟩ (.cons ⟨other nofun, rfl⟩ ?_)
  exact .cons ⟨fun _ => by decide, rfl⟩ (.cons ⟨fun _ => by decide, rfl⟩ (.cons ⟨other nofun,
    rfl⟩ (.nil _)))

theorem callouts_keep_deadlines_late : ∃ s : Clock Bool Nat, Run Step ⟨[], 3, []⟩ fewCallouts s ∧
    s.ran = [⟨true, 1, -1⟩] ∧ dueAt 3 3 s.todo = [3] ∧ softclock s ≠ none := by
  obtain ⟨-, due, -, ran, -, -, soft, -⟩ := callouts_keep_deadlines fewCallouts_run
  refine ⟨_, fewCallouts_run, ran, due, fun idle => ?_⟩
  exact absurd (soft.mp idle) (by decide)

/-- With no turn of `softclock`, the time of a single entry goes down with every tick. -/
theorem ticks_run {func : F} {arg : A} {free : Nat} (n : Nat) (time : BitVec 32) :
    Run (fun (s : Clock F A) event t => step s event = some t) ⟨[⟨func, arg, time⟩], free, []⟩
      (List.replicate n .tick) ⟨[⟨func, arg, time - BitVec.ofNat 32 n⟩], free, []⟩ := by
  induction n generalizing time with
  | zero => simpa using Run.nil _
  | succ n ih =>
    have next : time - 1 - BitVec.ofNat 32 n = time - BitVec.ofNat 32 (n + 1) := by
      rw [Nat.add_comm, BitVec.ofNat_add]
      exact sub_sub _ _ _
    refine .cons ?_ (next ▸ ih (time - 1))
    simp only [step, hardclock]
    split
    · rfl
    · split <;> rfl

theorem ticks_deadlines (n : Nat) (d : Deadlines F A) :
    d.run (List.replicate n .tick) = { d with now := d.now + n } := by
  induction n generalizing d with
  | zero => simp [Deadlines.run]
  | succ n ih =>
    refine (ih (d.step .tick)).trans ?_
    simp only [Deadlines.step, Nat.cast_add, Nat.cast_one]
    congr 1
    omega

theorem overdue (n : Nat) : ∃ s : Clock Unit Unit,
    Run (fun s event t => step s event = some t) ⟨[], 1, []⟩
      (.timeout () () 1 :: List.replicate n .tick) s ∧
    s.todo = [⟨(), (), 1 - BitVec.ofNat 32 n⟩] ∧
    ((Deadlines.init : Deadlines Unit Unit).run
      (.timeout () () 1 :: List.replicate n .tick)).pending =
      [⟨0, 1, (), ()⟩] ∧
    ((Deadlines.init : Deadlines Unit Unit).run (.timeout () () 1 :: List.replicate n .tick)).now =
      n := by
  have after := ticks_deadlines n ((Deadlines.init : Deadlines Unit Unit).step (.timeout () () 1))
  have events :
      (Deadlines.init : Deadlines Unit Unit).run (.timeout () () 1 :: List.replicate n .tick) =
      (Deadlines.init.step (.timeout () () 1)).run (List.replicate n .tick) := rfl
  refine ⟨_, .cons rfl (ticks_run n 1), rfl, ?_, ?_⟩
  · rw [events, after]
    rfl
  · rw [events, after]
    exact Int.zero_add _

/-- A call that `softclock` does not get to for more than 2^31 ticks is not due any more. -/
theorem callouts_lose_overdue : ∃ (events : List (Event Unit Unit)) (s : Clock Unit Unit),
    Run (fun s event t => step s event = some t) ⟨[], 1, []⟩ events s ∧ softclock s = none ∧
      ∃ e ∈ (Deadlines.init.run events).pending, e.due ≤ (Deadlines.init.run events).now := by
  obtain ⟨s, run, todo, pending, now⟩ := overdue (2 ^ 31 + 2)
  have ahead : (1 - BitVec.ofNat 32 (2 ^ 31 + 2)).toInt > 0 := by decide
  refine ⟨_, s, run, ?_, ⟨0, 1, (), ()⟩, ?_, ?_⟩
  · rw [softclock, todo]
    exact if_pos ahead
  · rw [pending]
    exact List.mem_cons_self
  · rw [now]
    decide

end Refinement

end FreeBsd.Kern.KernClock
