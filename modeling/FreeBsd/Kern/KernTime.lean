import Mathlib.Order.Interval.Set.Nat
import Mathlib.Tactic.Ring

/-! The interval timers of `kern/kern_time.c`: `itimerfix`, and `itimerdecr` at every tick of the
clock. -/
namespace FreeBsd.Kern.KernTime

/-- `struct timeval`, two fields that stay far inside a `long`. -/
structure Timeval where
  tv_sec : Int
  tv_usec : Int
  deriving DecidableEq

structure Itimerval where
  it_interval : Timeval
  it_value : Timeval
  deriving DecidableEq

def timerisset (tv : Timeval) : Prop := tv.tv_sec ≠ 0 ∨ tv.tv_usec ≠ 0

instance (tv : Timeval) : Decidable (timerisset tv) := inferInstanceAs (Decidable (_ ∨ _))

def EINVAL : Nat := 22

def itimerfix (tick : Int) (tv : Timeval) : Except Nat Timeval :=
  if tv.tv_sec < 0 ∨ tv.tv_sec > 100000000 ∨ tv.tv_usec < 0 ∨ tv.tv_usec ≥ 1000000 then
    .error EINVAL
  else if tv.tv_sec = 0 ∧ tv.tv_usec ≠ 0 ∧ tv.tv_usec < tick then .ok { tv with tv_usec := tick }
  else .ok tv

def expire (itp : Itimerval) (usec : Int) : Itimerval :=
  if timerisset itp.it_interval then
    let it_value := { itp.it_interval with tv_usec := itp.it_interval.tv_usec - usec }
    if it_value.tv_usec < 0 then
      { itp with it_value := ⟨it_value.tv_sec - 1, it_value.tv_usec + 1000000⟩ }
    else { itp with it_value }
  else { itp with it_value := { itp.it_value with tv_usec := 0 } }

def itimerdecr (itp : Itimerval) (usec : Int) : Itimerval × Nat :=
  if itp.it_value.tv_usec < usec ∧ itp.it_value.tv_sec = 0 then
    (expire itp (usec - itp.it_value.tv_usec), 0)
  else
    let it_value := if itp.it_value.tv_usec < usec then
      ⟨itp.it_value.tv_sec - 1, itp.it_value.tv_usec + 1000000⟩ else itp.it_value
    let itp := { itp with it_value := { it_value with tv_usec := it_value.tv_usec - usec } }
    if timerisset itp.it_value then (itp, 1) else (expire itp 0, 0)

/-- The timer after a number of calls, and which of them returned 0. A timer that is not set is not
called for. -/
def calls (tick : Int) (itp : Itimerval) : Nat → Option (Itimerval × List Nat)
  | 0 => some (itp, [])
  | k + 1 => (calls tick itp k).bind fun (itp, due) =>
    if timerisset itp.it_value then
      let (itp, ret) := itimerdecr itp tick
      some (itp, if ret = 0 then due ++ [k + 1] else due)
    else none

namespace Timeval

def micros (tv : Timeval) : Int := tv.tv_sec * 1000000 + tv.tv_usec

structure Normal (tv : Timeval) : Prop where
  sec : 0 ≤ tv.tv_sec
  low : 0 ≤ tv.tv_usec
  high : tv.tv_usec < 1000000

theorem Normal.nonneg {tv : Timeval} (normal : tv.Normal) : 0 ≤ tv.micros := by
  obtain ⟨sec, low, high⟩ := normal
  unfold micros
  omega

theorem Normal.isset {tv : Timeval} (normal : tv.Normal) : timerisset tv ↔ 0 < tv.micros := by
  obtain ⟨sec, low, high⟩ := normal
  unfold timerisset micros
  lia

theorem Normal.zero {tv : Timeval} (normal : tv.Normal) (zero : tv.micros = 0) :
    tv.tv_sec = 0 ∧ tv.tv_usec = 0 := by
  obtain ⟨sec, low, high⟩ := normal
  unfold micros at zero
  omega

end Timeval

open Timeval

variable {tick V I usec : Int} {k j : Nat} {itp : Itimerval} {due : List Nat}

theorem itimerfix_fixed {tv fixed : Timeval} (some_tick : 1 ≤ tick) (short : tick < 1000000)
    (accepted : itimerfix tick tv = .ok fixed) :
      fixed.Normal ∧ (fixed.micros = 0 ∨ tick ≤ fixed.micros) := by
  unfold itimerfix at accepted
  split at accepted
  · cases accepted
  · rename_i range
    split at accepted
    · rename_i small
      cases accepted
      refine ⟨⟨?_, ?_, ?_⟩, .inr ?_⟩ <;> try unfold micros
      all_goals dsimp only; lia
    · rename_i large
      cases accepted
      unfold micros
      exact ⟨⟨by lia, by lia, by lia⟩, by lia⟩

theorem expire_spec (itp : Itimerval) (interval : itp.it_interval.Normal)
    (value : itp.it_value.tv_sec = 0) (low : 0 ≤ usec) (below : usec < 1000000)
    (less : itp.it_interval.micros = 0 ∨ usec ≤ itp.it_interval.micros) :
    (expire itp usec).it_interval = itp.it_interval ∧ (expire itp usec).it_value.Normal ∧
      (expire itp usec).it_value.micros =
        if itp.it_interval.micros = 0 then 0 else itp.it_interval.micros - usec := by
  unfold expire
  split
  · rename_i isset
    have more := interval.isset.mp isset
    obtain ⟨sec, low', high⟩ := interval
    rw [if_neg more.ne']
    unfold micros at *
    dsimp only
    split
    · refine ⟨rfl, ⟨?_, ?_, ?_⟩, ?_⟩ <;> dsimp only <;> lia
    · refine ⟨rfl, ⟨?_, ?_, ?_⟩, ?_⟩ <;> dsimp only <;> lia
  · rename_i unset
    rw [interval.isset] at unset
    have zero := le_antisymm (not_lt.mp unset) interval.nonneg
    rw [if_pos zero]
    refine ⟨rfl, ⟨?_, ?_, ?_⟩, ?_⟩ <;> simp [micros, value]

/-- The value less `usec`, by a borrow from the seconds where the microseconds do not reach. -/
def less (value : Timeval) (usec : Int) : Timeval :=
  let value := if value.tv_usec < usec then ⟨value.tv_sec - 1, value.tv_usec + 1000000⟩ else value
  { value with tv_usec := value.tv_usec - usec }

theorem less_spec {value : Timeval} (normal : value.Normal) (low : 1 ≤ usec)
    (below : usec < 1000000) (early : ¬ (value.tv_usec < usec ∧ value.tv_sec = 0)) :
    (less value usec).Normal ∧ (less value usec).micros = value.micros - usec := by
  obtain ⟨sec, low', high⟩ := normal
  unfold less micros
  split
  · exact ⟨⟨by dsimp only; lia, by dsimp only; lia, by dsimp only; lia⟩, by dsimp only; lia⟩
  · exact ⟨⟨by dsimp only; lia, by dsimp only; lia, by dsimp only; lia⟩, by dsimp only; lia⟩

theorem itimerdecr_early (early : ¬ (itp.it_value.tv_usec < usec ∧ itp.it_value.tv_sec = 0)) :
    itimerdecr itp usec =
      if timerisset (less itp.it_value usec) then ({ itp with it_value := less itp.it_value usec },
      1)
      else (expire { itp with it_value := less itp.it_value usec } 0, 0) :=
  if_neg early

/-- A call takes `usec` off the value, or reports the deadline and reloads the value. -/
theorem itimerdecr_spec (interval : itp.it_interval.Normal) (value : itp.it_value.Normal)
    (set : 0 < itp.it_value.micros) (low : 1 ≤ usec) (below : usec < 1000000)
    (long : itp.it_interval.micros = 0 ∨ usec ≤ itp.it_interval.micros) :
    (itimerdecr itp usec).1.it_interval = itp.it_interval ∧
      (itimerdecr itp usec).1.it_value.Normal ∧
      ((itimerdecr itp usec).2 = 0 ↔ itp.it_value.micros ≤ usec) ∧
      (itimerdecr itp usec).1.it_value.micros =
        if usec < itp.it_value.micros then itp.it_value.micros - usec
        else if itp.it_interval.micros = 0 then 0
        else itp.it_interval.micros - (usec - itp.it_value.micros) := by
  by_cases late : itp.it_value.tv_usec < usec ∧ itp.it_value.tv_sec = 0
  · -- expired, and already in the next interval
    have left : itp.it_value.micros = itp.it_value.tv_usec := by simp [micros, late.2]
    have := value.low
    obtain ⟨same, normal, eq⟩ :=
      expire_spec itp interval late.2 (by lia : 0 ≤ usec - itp.it_value.tv_usec) (by lia) (by lia)
    unfold itimerdecr
    rw [if_pos late, left, if_neg (by lia)]
    exact ⟨same, normal, ⟨fun _ => by lia, fun _ => rfl⟩, eq⟩
  · obtain ⟨normal, micros⟩ := less_spec value low below late
    rw [itimerdecr_early late]
    split
    · rename_i isset
      have more := normal.isset.mp isset
      rw [if_pos (by lia)]
      exact ⟨rfl, normal, ⟨fun one => absurd one Nat.one_ne_zero, fun _ => by lia⟩, micros⟩
    · -- expired, exactly at the end of the interval
      rename_i unset
      rw [normal.isset] at unset
      have zero := le_antisymm (not_lt.mp unset) normal.nonneg
      obtain ⟨same, normal', eq⟩ := expire_spec { itp with it_value := less itp.it_value usec }
        interval (normal.zero zero).1
        (le_refl 0) (by lia) (interval.nonneg.eq_or_lt.imp Eq.symm le_of_lt)
      rw [if_neg (by lia), show usec - itp.it_value.micros = 0 by lia]
      exact ⟨same, normal', ⟨fun _ => by lia, fun _ => rfl⟩, eq⟩

/-- The deadlines that are not after `t`. Without an interval there is one deadline. -/
def deadlines (V I t : Int) : Set Nat := {j | (j = 0 ∨ I ≠ 0) ∧ V + j * I ≤ t}

theorem deadlines_eq {t : Int} (nonneg : 0 ≤ I) (before : ∀ j < k, j ∈ deadlines V I t)
    (after : k = 0 ∨ I ≠ 0 → t < V + k * I) : deadlines V I t = Set.Iio k := by
  refine Set.Subset.antisymm (fun j reached => ?_) before
  by_contra past
  have order : (k : Int) * I ≤ j * I := Int.mul_le_mul_of_nonneg_right (by simpa using past) nonneg
  have := after (reached.1.imp_left fun zero => by simp_all)
  have := reached.2
  omega

/-- What the first `k` calls leave: one report for each deadline, by the first call that reaches it,
and the time to the next deadline. -/
structure Timing (tick V : Int) (interval : Timeval) (k : Nat) (itp : Itimerval) (due : List Nat) :
    Prop where
  kept : itp.it_interval = interval
  normal : itp.it_value.Normal
  counted : deadlines V interval.micros (k * tick) = Set.Iio due.length
  first : ∀ j n : Nat, due[j]? = some n → IsLeast {m : Nat | V + j * interval.micros ≤ m * tick} n
  next : itp.it_value.micros =
    if interval.micros = 0 ∧ due ≠ [] then 0 else V + due.length * interval.micros - k * tick

namespace Timing

variable {interval : Timeval} {itp' : Itimerval}

theorem ahead (timing : Timing tick V interval k itp due) (set : 0 < itp.it_value.micros) :
    itp.it_value.micros = V + due.length * interval.micros - k * tick ∧
      (interval.micros = 0 → due = []) := by
  have next := timing.next
  split at next
  · omega
  · rename_i more
    exact ⟨next, fun zero => by_contra fun due => more ⟨zero, due⟩⟩

theorem passed (timing : Timing tick V interval k itp due) (positive : 0 < tick) (j : Nat)
    (before : j < due.length) :
    j ∈ deadlines V interval.micros ((k + 1 : Nat) * tick) := by
  obtain ⟨only, reached⟩ := timing.counted.symm.subset before
  refine ⟨only, reached.trans ?_⟩
  rw [Nat.cast_add_one, add_one_mul]
  omega

theorem quiet (timing : Timing tick V interval k itp due) (positive : 0 < tick)
    (nonneg : 0 ≤ interval.micros) (early : tick < itp.it_value.micros)
    (same : itp'.it_interval = interval) (normal : itp'.it_value.Normal)
    (value : itp'.it_value.micros = itp.it_value.micros - tick) :
    Timing tick V interval (k + 1) itp' due := by
  obtain ⟨next, once⟩ := timing.ahead (positive.trans early)
  have later : ((k + 1 : Nat) : Int) * tick = k * tick + tick := by
    rw [Nat.cast_add_one, add_one_mul]
  refine ⟨same, normal, deadlines_eq nonneg (timing.passed positive) fun _ => ?_, timing.first, ?_⟩
  · omega
  · rw [if_neg fun done => done.2 (once done.1), value, next, later]
    ring

theorem reach (timing : Timing tick V interval k itp due) (positive : 0 < tick)
    (nonneg : 0 ≤ interval.micros) (set : 0 < itp.it_value.micros)
    (late : itp.it_value.micros ≤ tick) (long : interval.micros = 0 ∨ tick ≤ interval.micros)
    (same : itp'.it_interval = interval) (normal : itp'.it_value.Normal)
    (value : itp'.it_value.micros =
      if interval.micros = 0 then 0 else interval.micros - (tick - itp.it_value.micros)) :
    Timing tick V interval (k + 1) itp' (due ++ [k + 1]) := by
  obtain ⟨next, once⟩ := timing.ahead set
  have later : ((k + 1 : Nat) : Int) * tick = k * tick + tick := by
    rw [Nat.cast_add_one, add_one_mul]
  have after : ((due.length + 1 : Nat) : Int) * interval.micros =
      due.length * interval.micros + interval.micros := by
    rw [Nat.cast_add_one, add_one_mul]
  refine ⟨same, normal, ?_, fun j n reported => ?_, ?_⟩
  · rw [List.length_append, List.length_singleton]
    refine deadlines_eq nonneg (fun j before => ?_) fun more => ?_
    · rcases Nat.lt_succ_iff_lt_or_eq.mp before with old | rfl
      · exact timing.passed positive j old
      · refine ⟨or_iff_not_imp_right.mpr fun zero => ?_, by lia⟩
        rw [once (not_not.mp zero), List.length_nil]
    · lia
  · rcases List.getElem?_append .. ▸ reported with reported
    split at reported
    · exact timing.first j n reported
    · obtain ⟨rfl, rfl⟩ : j = due.length ∧ k + 1 = n := by
        rw [List.getElem?_singleton] at reported
        split at reported
        · exact ⟨by lia, Option.some.inj reported⟩
        · cases reported
      refine ⟨Set.mem_ofPred_eq ▸ by lia, fun m reached => ?_⟩
      -- an earlier call came before the deadline
      by_contra before
      have order : (m : Int) * tick ≤ k * tick :=
        Int.mul_le_mul_of_nonneg_right (by lia) positive.le
      have := Set.mem_ofPred_eq ▸ reached
      lia
  · rw [value, List.length_append, List.length_singleton, after, later]
    split
    · rename_i zero
      rw [if_pos ⟨zero, by simp⟩]
    · rename_i more
      rw [if_neg fun done => more done.1, next]
      ring

end Timing

variable {value interval value' interval' : Timeval}

theorem calls_timing (some_tick : 1 ≤ tick) (short : tick < 1000000)
    (accepted : itimerfix tick value = .ok value')
    (accepted' : itimerfix tick interval = .ok interval') (set : 0 < value'.micros)
    (run : calls tick ⟨interval', value'⟩ k = some (itp, due)) :
    Timing tick value'.micros interval' k itp due := by
  obtain ⟨normal, fixed⟩ := itimerfix_fixed some_tick short accepted
  obtain ⟨normal', fixed'⟩ := itimerfix_fixed some_tick short accepted'
  induction k generalizing itp due with
  | zero =>
    cases run
    refine ⟨rfl, normal, ?_, fun j n reported => absurd reported (by simp), by simp⟩
    exact deadlines_eq normal'.nonneg (fun j none => absurd none (by simp))
      fun _ => by simpa using set
  | succ k ih =>
    rw [calls, Option.bind_eq_some_iff] at run
    obtain ⟨⟨itp₀, due₀⟩, before, run⟩ := run
    have timing := ih before
    dsimp only at run
    split at run
    · rename_i isset
      have more := timing.normal.isset.mp isset
      have kept := timing.kept
      obtain ⟨same, next, ret, micros⟩ :=
        itimerdecr_spec (kept ▸ normal') timing.normal more some_tick short (kept ▸ fixed')
      cases run
      rw [kept] at same micros
      by_cases late : itp₀.it_value.micros ≤ tick
      · rw [if_neg (not_lt.mpr late)] at micros
        rw [if_pos (ret.mpr late)]
        exact timing.reach (by omega) normal'.nonneg more late fixed' same next micros
      · rw [if_pos (not_le.mp late)] at micros
        rw [if_neg fun zero => late (ret.mp zero)]
        exact timing.quiet (by omega) normal'.nonneg (not_le.mp late) same next micros
    · cases run

/-- A timer that has no interval is called for up to its deadline, and any other always. -/
theorem calls_isSome (some_tick : 1 ≤ tick) (short : tick < 1000000)
    (accepted : itimerfix tick value = .ok value')
    (accepted' : itimerfix tick interval = .ok interval') (set : 0 < value'.micros)
    (ahead : ∀ n < k, interval'.micros ≠ 0 ∨ n * tick < value'.micros) :
    (calls tick ⟨interval', value'⟩ k).isSome := by
  induction k with
  | zero => rfl
  | succ k ih =>
    obtain ⟨⟨itp, due⟩, before⟩ := Option.isSome_iff_exists.mp (ih fun n less => ahead n (by lia))
    have timing := calls_timing some_tick short accepted accepted' set before
    have isset : timerisset itp.it_value := by
      rw [timing.normal.isset, timing.next]
      have none : due.length ∉ deadlines value'.micros interval'.micros (k * tick) := by
        rw [timing.counted]
        exact lt_irrefl due.length
      split
      · rename_i done
        have first : 0 ∈ deadlines value'.micros interval'.micros (k * tick) := by
          rw [timing.counted]
          exact List.length_pos_of_ne_nil done.2
        have reached := first.2
        have := (ahead k (by lia)).resolve_left (not_not.mpr done.1)
        lia
      · rename_i more
        have only : due.length = 0 ∨ interval'.micros ≠ 0 := by
          rw [List.length_eq_zero_iff]
          tauto
        have := not_le.mp fun reached => none ⟨only, reached⟩
        lia
    rw [calls, before, Option.bind_some]
    dsimp only
    rw [if_pos isset]
    rfl

/-- The timers do not drift. -/
theorem itimerdecr_exact (some_tick : 1 ≤ tick) (short : tick < 1000000)
    (accepted : itimerfix tick value = .ok value')
    (accepted' : itimerfix tick interval = .ok interval') (set : 0 < value'.micros) (k : Nat) :
    (∀ itp due, calls tick ⟨interval', value'⟩ k = some (itp, due) →
      due.length = (deadlines value'.micros interval'.micros (k * tick)).ncard ∧
      (∀ j ∈ deadlines value'.micros interval'.micros (k * tick), ∃ n, due[j]? = some n ∧
        IsLeast {m : Nat | value'.micros + j * interval'.micros ≤ m * tick} n) ∧
      itp.it_interval = interval' ∧ itp.it_value.Normal ∧
      itp.it_value.micros = if interval'.micros = 0 ∧ due ≠ [] then 0
        else value'.micros + due.length * interval'.micros - k * tick) ∧
    ((∀ n < k, interval'.micros ≠ 0 ∨ n * tick < value'.micros) →
      (calls tick ⟨interval', value'⟩ k).isSome) := by
  refine ⟨fun itp due run => ?_, fun ahead => calls_isSome some_tick short accepted accepted' set
    ahead⟩
  have timing := calls_timing some_tick short accepted accepted' set run
  refine ⟨?_, fun j reached => ?_, timing.kept, timing.normal, timing.next⟩
  · rw [timing.counted, Set.ncard_Iio_nat]
  · rw [timing.counted] at reached
    exact ⟨due[j], List.getElem?_eq_getElem reached,
      timing.first j _ (List.getElem?_eq_getElem reached)⟩

/-- Ticks of 10000, a timer of 25000 that is reloaded with 15000. -/
theorem itimerdecr_exact_four :
    (∀ itp due, calls 10000 ⟨⟨0, 15000⟩, ⟨0, 25000⟩⟩ 4 = some (itp, due) →
      due.length = (deadlines (micros ⟨0, 25000⟩) (micros ⟨0, 15000⟩) ((4 : Nat) * 10000)).ncard ∧
      (∀ j ∈ deadlines (micros ⟨0, 25000⟩) (micros ⟨0, 15000⟩) ((4 : Nat) * 10000), ∃ n, due[j]? =
        some n ∧
        IsLeast {m : Nat | micros ⟨0, 25000⟩ + j * micros ⟨0, 15000⟩ ≤ m * 10000} n) ∧
      itp.it_interval = ⟨0, 15000⟩ ∧ itp.it_value.Normal ∧
      itp.it_value.micros = if micros ⟨0, 15000⟩ = 0 ∧ due ≠ [] then 0
        else micros ⟨0, 25000⟩ + due.length * micros ⟨0, 15000⟩ - (4 : Nat) * 10000) ∧
    ((∀ n : Nat, n < 4 → micros ⟨0, 15000⟩ ≠ 0 ∨ (n : Int) * 10000 < micros ⟨0, 25000⟩) →
      (calls 10000 ⟨⟨0, 15000⟩, ⟨0, 25000⟩⟩ 4).isSome) :=
  @itimerdecr_exact 10000 ⟨0, 25000⟩ ⟨0, 15000⟩ ⟨0, 25000⟩ ⟨0, 15000⟩ (by decide) (by decide)
    (by decide) (by decide) (by decide) 4

example : calls 10000 ⟨⟨0, 15000⟩, ⟨0, 25000⟩⟩ 6 =
    some (⟨⟨0, 15000⟩, ⟨0, 10000⟩⟩, [3, 4, 6]) := by decide

end FreeBsd.Kern.KernTime
