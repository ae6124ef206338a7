import FreeBsd.Pcfs.PcfsAlloc
import Mathlib.Tactic.Ring

/-! Times of DOS and of Unix, and what `unix2dostime` and `dos2unixtime` remember of the last one.
-/
namespace FreeBsd.Pcfs

section Model

def regyear : List Nat := [31, 28, 31, 30, 31, 30, 31, 31, 30, 31, 30, 31]
def leapyear : List Nat := [31, 29, 31, 30, 31, 30, 31, 31, 30, 31, 30, 31]

/-- Seconds between 1970 and 1980, with 8 regular years and 2 leap years. -/
def SECONDSTO1980 : Nat := (8 * 365 + 2 * 366) * (24 * 60 * 60)

structure DosDate where
  day : Nat
  month : Nat
  year : Nat
  deriving DecidableEq

structure DosTime where
  seconds2 : Nat
  minutes : Nat
  hours : Nat
  deriving DecidableEq

def yearDays (year : Nat) : Nat := if year % 4 ≠ 0 then 365 else 366
def months (year : Nat) : List Nat := if year % 4 ≠ 0 then regyear else leapyear

/-- The loop over the years, and the days that are left: each year takes some of them. -/
def yearLoop : (fuel year days : Nat) → Nat × Nat
  | 0, year, days => (year, days)
  | fuel + 1, year, days =>
    if days < yearDays year then (year, days) else yearLoop fuel (year + 1) (days - yearDays year)

def monthLoop : (table : List Nat) → (month days : Nat) → Nat × Nat
  | [], month, days => (month, days)
  | m :: table, month, days => if days < m then (month, days) else monthLoop table (month + 1)
    (days - m)

/-- The date of a day after 1970, in the bits of a `DosDate`. -/
def dateOf (days : Nat) : DosDate :=
  let (year, days) := yearLoop days 1970 days
  let (month, days) := monthLoop (months year) 0 days
  { day := (days + 1) % 2 ^ 5
    month := (month + 1) % 2 ^ 4
    year := (if year < 1980 then 0 else year - 1980) % 2 ^ 7 }

def timeOf (time : Nat) : DosTime where
  seconds2 := (time % 60 / 2) % 2 ^ 5
  minutes := (time / 60 % 60) % 2 ^ 6
  hours := (time / (60 * 60) % 24) % 2 ^ 5

/-- `lasttime`, `lastday`, `lastddate` and `lastdtime`. -/
structure LastDos where
  time : Nat
  day : Nat
  ddate : DosDate
  dtime : DosTime

def localTime (tz : Int) (sec : Nat) : Nat := ulong (sec - tz * 60)

def unix2dostime (tz : Int) (s : LastDos) (sec : Nat) : (DosDate × DosTime) × LastDos :=
  if s.time ≠ sec then
    let time := localTime tz sec
    let days := time / (24 * 60 * 60)
    let s := { s with time, dtime := timeOf time }
    let s := if days ≠ s.day then { s with day := days, ddate := dateOf days } else s
    ((s.ddate, s.dtime), s)
  else ((s.ddate, s.dtime), s)

structure LastUnix where
  dosdate : DosDate
  seconds : Nat

def daysBefore : (year : Nat) → Nat
  | 0 => 0
  | year + 1 => daysBefore year + yearDays year

/-- The days of the months before `month`; `past` is what lies behind the tables. -/
def monthsBefore (past : Nat → Nat) (year : Nat) : (month : Nat) → Nat
  | 0 => 0
  | month + 1 => monthsBefore past year month + (months year).getD month (past month)

/-- The seconds from 1970 to the day of a date, as an `u_long`. -/
def secondsOf (past : Nat → Nat) (d : DosDate) : Nat :=
  let month := if d.month = 0 then 1 else d.month
  let days : Int := daysBefore d.year + monthsBefore past d.year (month - 1) + ((d.day : Int) - 1)
  ulong (days * 24 * 60 * 60 + SECONDSTO1980)

def dos2unixtime (past : Nat → Nat) (tz : Int) (s : LastUnix) (d : DosDate) (time : DosTime) :
    Nat × LastUnix :=
  let seconds := time.seconds2 * 2 + time.minutes * 60 + time.hours * 60 * 60
  let s := if s.dosdate ≠ d then { dosdate := d, seconds := secondsOf past d } else s
  (ulong (seconds + s.seconds + tz * 60), s)

def lastDos (tz : Int) (calls : List Nat) : LastDos :=
  calls.foldl (fun s sec => (unix2dostime tz s sec).2) ⟨0, 0, ⟨0, 0, 0⟩, ⟨0, 0, 0⟩⟩

def lastUnix (past : Nat → Nat) (tz : Int) (calls : List (DosDate × DosTime)) : LastUnix :=
  calls.foldl (fun s c => (dos2unixtime past tz s c.1 c.2).2) ⟨⟨0, 0, 0⟩, 0⟩

/-- After these calls, a time is converted to what its local time says, and back, whatever was
converted back before. -/
structure Converts (past : Nat → Nat) (tz : Int) (calls : List Nat) (sec : Nat) : Prop where
  dos : (unix2dostime tz (lastDos tz calls) sec).1 =
    (dateOf (localTime tz sec / (24 * 60 * 60)), timeOf (localTime tz sec))
  unix : ∀ others : List (DosDate × DosTime),
    (dos2unixtime past tz (lastUnix past tz others) (unix2dostime tz (lastDos tz calls) sec).1.1
      (unix2dostime tz (lastDos tz calls) sec).1.2).1 = sec - sec % 2

end Model

section Calendar

variable {past : Nat → Nat} {fuel year days month n : Nat} {table : List Nat}

def daysTo (n : Nat) : Nat := ((List.range n).map fun k => yearDays (1970 + k)).sum

theorem daysTo_succ (n : Nat) : daysTo (n + 1) = daysTo n + yearDays (1970 + n) := by
  rw [daysTo, List.range_succ, List.map_append, List.sum_append]
  simp [daysTo]

theorem yearDays_le (year : Nat) : 365 ≤ yearDays year ∧ yearDays year ≤ 366 := by
  unfold yearDays
  split <;> omega

theorem yearLoop_spec (enough : days ≤ fuel) :
    ∃ m left, yearLoop fuel (1970 + n) days = (1970 + (n + m), left) ∧
    left < yearDays (1970 + (n + m)) ∧ daysTo n + days = daysTo (n + m) + left := by
  induction fuel generalizing n days with
  | zero =>
    have positive := yearDays_le (1970 + n)
    exact ⟨0, days, rfl, by rw [Nat.add_zero]; lia, rfl⟩
  | succ fuel ih =>
    have positive := yearDays_le (1970 + n)
    rw [yearLoop]
    by_cases here : days < yearDays (1970 + n)
    · rw [if_pos here]
      exact ⟨0, days, rfl, here, rfl⟩
    · rw [if_neg here]
      obtain ⟨m, left, runs, inside, sum⟩ := @ih (days - yearDays (1970 + n)) (n + 1) (by lia)
      rw [daysTo_succ] at sum
      rw [show n + 1 + m = n + (m + 1) by lia] at runs inside sum
      exact ⟨m + 1, left, runs, inside, by lia⟩

theorem monthLoop_spec (inside : days < table.sum) :
    ∃ j left, monthLoop table month days = (month + j, left) ∧
    j < table.length ∧ left < table.getD j 0 ∧ days = (table.take j).sum + left := by
  induction table generalizing month days with
  | nil => simp at inside
  | cons m table ih =>
    rw [List.sum_cons] at inside
    rw [monthLoop]
    by_cases here : days < m
    · rw [if_pos here]
      exact ⟨0, days, rfl, Nat.succ_pos _, here, by simp⟩
    · rw [if_neg here]
      obtain ⟨j, left, runs, below, least, sum⟩ := @ih (days - m) (month + 1) (by lia)
      refine ⟨j + 1, left, by rw [runs]; congr 1; lia, Nat.succ_lt_succ below, least, ?_⟩
      rw [List.take_succ_cons, List.sum_cons]
      lia

theorem months_sum (year : Nat) : (months year).sum = yearDays year ∧
    (months year).length = 12 := by
  unfold months yearDays
  split <;> exact ⟨rfl, rfl⟩

theorem months_le (year : Nat) {j : Nat} (inside : j < 12) : (months year).getD j 0 ≤ 31 := by
  have each : ∀ j < 12, regyear.getD j 0 ≤ 31 ∧ leapyear.getD j 0 ≤ 31 := by decide
  unfold months
  split
  · exact (each j inside).1
  · exact (each j inside).2

theorem monthsBefore_eq (past : Nat → Nat) (year : Nat) {j : Nat} (inside : j ≤ 12) :
    monthsBefore past year j = ((months year).take j).sum := by
  induction j with
  | zero => simp [monthsBefore]
  | succ j ih =>
    have length := (months_sum year).2
    have here : (months year)[j]? = some (months year)[j] := List.getElem?_eq_getElem (by omega)
    rw [monthsBefore, ih (by omega), List.take_add_one, List.sum_append, List.getD, here]
    simp

theorem daysBefore_eq (m : Nat) : daysTo (10 + m) = 3652 + daysBefore m := by
  induction m with
  | zero => decide
  | succ m ih =>
    have same : yearDays (1970 + (10 + m)) = yearDays m := by
      unfold yearDays
      rw [show (1970 + (10 + m)) % 4 = m % 4 by lia]
    rw [← Nat.add_assoc, daysTo_succ, ih, same, daysBefore, Nat.add_assoc]

theorem daysTo_mono {m : Nat} (le : n ≤ m) : daysTo n ≤ daysTo m := by
  induction le with
  | refl => exact le_refl _
  | step _ ih => exact ih.trans (by rw [daysTo_succ]; exact Nat.le_add_right _ _)

theorem daysBefore_le (m : Nat) : 365 * m ≤ daysBefore m := by
  induction m with
  | zero => exact Nat.zero_le _
  | succ m ih =>
    have := (yearDays_le m).1
    rw [daysBefore]
    omega

theorem dateOf_spec (days : Nat) :
    ∃ n j left, days = daysTo n + ((months (1970 + n)).take j).sum + left ∧
    j < 12 ∧ left < 31 ∧ ((months (1970 + n)).take j).sum + left < yearDays (1970 + n) ∧
    dateOf days = ⟨left + 1, j + 1, (if 1970 + n < 1980 then 0 else 1970 + n - 1980) % 2 ^ 7⟩ := by
  obtain ⟨n, inYear, years, below, sum⟩ := @yearLoop_spec days days 0 (le_refl _)
  rw [Nat.zero_add] at years below sum
  have total := months_sum (1970 + n)
  obtain ⟨j, left, loops, inside, least, parts⟩ := @monthLoop_spec inYear 0 (months (1970 + n))
    (by rw [total.1]; exact below)
  rw [total.2] at inside
  have short := months_le (1970 + n) inside
  refine ⟨n, j, left, ?_, inside, by lia, by lia, ?_⟩
  · have start : daysTo 0 = 0 := rfl
    lia
  · unfold dateOf
    rw [years]
    dsimp only
    rw [loops, Nat.zero_add, Nat.mod_eq_of_lt (by lia), Nat.mod_eq_of_lt (by lia)]

theorem dateOf_month (days : Nat) : dateOf days ≠ ⟨0, 0, 0⟩ := by
  obtain ⟨n, j, left, -, -, -, -, date⟩ := dateOf_spec days
  rw [date]
  intro same
  cases (DosDate.mk.inj same).1

theorem secondsOf_late (past : Nat → Nat) (late : 3652 ≤ days) (soon : days ≤ 49710) :
    secondsOf past (dateOf days) = days * (24 * 60 * 60) := by
  obtain ⟨n, j, left, sum, inside, short, inYear, date⟩ := dateOf_spec days
  have ten : daysTo 10 = 3652 := by decide
  have after : 10 ≤ n := by
    by_contra early
    have next := @daysTo_mono (n + 1) 10 (by lia)
    rw [daysTo_succ] at next
    lia
  obtain ⟨m, rfl⟩ := Nat.exists_eq_add_of_le after
  have before := daysBefore_eq m
  have least := daysBefore_le m
  have table : months (1970 + (10 + m)) = months m := by
    unfold months
    rw [show (1970 + (10 + m)) % 4 = m % 4 by lia]
  rw [table] at sum
  rw [date, if_neg (by lia), show 1970 + (10 + m) - 1980 = m by lia, Nat.mod_eq_of_lt (by lia)]
  unfold secondsOf
  dsimp only
  rw [if_neg (Nat.succ_ne_zero j), Nat.add_sub_cancel, monthsBefore_eq past m (by lia)]
  unfold SECONDSTO1980 ulong
  omega

theorem secondsOf_early (past : Nat → Nat) (early : days < 3652) :
    SECONDSTO1980 ≤ secondsOf past (dateOf days) ∧
      secondsOf past (dateOf days) + 24 * 60 * 60 < 2 ^ 32 := by
  obtain ⟨n, j, left, sum, inside, short, inYear, date⟩ := dateOf_spec days
  have before : n < 10 := by
    by_contra after
    have next := @daysTo_mono 10 n (by lia)
    have ten : daysTo 10 = 3652 := by decide
    lia
  have taken : ((months 0).take j).sum ≤ 366 := by
    have each : ∀ j < 12, ((months 0).take j).sum ≤ 366 := by decide
    exact each j inside
  rw [date, if_pos (by lia), Nat.zero_mod]
  unfold secondsOf
  dsimp only
  rw [if_neg (Nat.succ_ne_zero j), Nat.add_sub_cancel, monthsBefore_eq past 0 (by lia), daysBefore]
  generalize ((months 0).take j).sum = total at taken ⊢
  have value : (((0 : Nat) : Int) + (total : Int) + (((left + 1 : Nat) : Int) - 1)) * 24 * 60 * 60 +
      (SECONDSTO1980 : Int) =
      (((total + left) * (24 * 60 * 60) + SECONDSTO1980 : Nat) : Int) := by
    push_cast
    ring
  rw [value, ulong_eq (by unfold SECONDSTO1980; lia)]
  unfold SECONDSTO1980
  omega

theorem timeOf_spec (time : Nat) :
    (timeOf time).seconds2 * 2 + (timeOf time).minutes * 60 + (timeOf time).hours * 60 * 60 +
      time % 2 =
      time % (24 * 60 * 60) := by
  unfold timeOf
  dsimp only
  lia

end Calendar

section Memory

variable {past : Nat → Nat} {tz : Int} {sec x : Nat} {s : LastDos} {u : LastUnix}

/-- What is remembered of a conversion to DOS is right, but for the date that is there at first. -/
structure LastDos.Right (s : LastDos) : Prop where
  day : s.day = s.time / (24 * 60 * 60)
  dtime : s.dtime = timeOf s.time
  ddate : s.day ≠ 0 → s.ddate = dateOf s.day

theorem unix2dostime_right (right : s.Right) (tz : Int) (sec : Nat) :
    (unix2dostime tz s sec).2.Right := by
  unfold unix2dostime
  by_cases same : s.time = sec
  · rw [if_neg (not_not_intro same)]
    exact right
  · rw [if_pos same]
    dsimp only
    by_cases day : localTime tz sec / (24 * 60 * 60) = s.day
    · rw [if_neg (not_not_intro day)]
      exact ⟨day.symm, rfl, right.ddate⟩
    · rw [if_pos day]
      exact ⟨rfl, rfl, fun _ => rfl⟩

theorem lastDos_right (tz : Int) (calls : List Nat) : (lastDos tz calls).Right := by
  unfold lastDos
  have start : (⟨0, 0, ⟨0, 0, 0⟩, ⟨0, 0, 0⟩⟩ : LastDos).Right :=
    ⟨rfl, rfl, fun other => absurd rfl other⟩
  generalize (⟨0, 0, ⟨0, 0, 0⟩, ⟨0, 0, 0⟩⟩ : LastDos) = s at start
  induction calls generalizing s with
  | nil => exact start
  | cons sec calls ih => exact ih _ (unix2dostime_right start tz sec)

/-- What is remembered of a conversion to Unix is right, but for what is there at first. -/
def LastUnix.Right (past : Nat → Nat) (u : LastUnix) : Prop :=
  u.dosdate ≠ ⟨0, 0, 0⟩ → u.seconds = secondsOf past u.dosdate

theorem lastUnix_right (past : Nat → Nat) (tz : Int) (calls : List (DosDate × DosTime)) :
    (lastUnix past tz calls).Right past := by
  unfold lastUnix
  have start : (⟨⟨0, 0, 0⟩, 0⟩ : LastUnix).Right past := fun other => absurd rfl other
  generalize (⟨⟨0, 0, 0⟩, 0⟩ : LastUnix) = u at start
  induction calls generalizing u with
  | nil => exact start
  | cons c calls ih =>
    refine ih _ ?_
    unfold dos2unixtime
    dsimp only
    split
    · exact fun _ => rfl
    · exact start

theorem dos2unixtime_right (right : u.Right past) {d : DosDate} (other : d ≠ ⟨0, 0, 0⟩)
    (time : DosTime) :
    (dos2unixtime past tz u d time).1 =
      ulong ((time.seconds2 * 2 + time.minutes * 60 + time.hours * 60 * 60 : Nat) +
        secondsOf past d + tz * 60) := by
  unfold dos2unixtime
  dsimp only
  by_cases same : u.dosdate = d
  · subst same
    rw [if_neg (not_not_intro rfl), right other]
  · rw [if_pos same]

theorem localTime_lt (tz : Int) (sec : Nat) : localTime tz sec < 2 ^ 32 := by
  unfold localTime ulong
  omega

def backOf (past : Nat → Nat) (tz : Int) (time : Nat) : Nat :=
  ulong (((timeOf time).seconds2 * 2 + (timeOf time).minutes * 60 +
      (timeOf time).hours * 60 * 60 : Nat) +
    secondsOf past (dateOf (time / (24 * 60 * 60))) + tz * 60)

theorem backOf_late (past : Nat → Nat) (late : SECONDSTO1980 ≤ x) (fits : x < 2 ^ 32) :
    backOf past tz x = ulong ((x - x % 2 : Nat) + tz * 60) := by
  have clock := timeOf_spec x
  unfold SECONDSTO1980 at late
  rw [backOf, secondsOf_late past (by lia) (by lia)]
  congr 1
  lia

theorem backOf_early (past : Nat → Nat) (early : x < SECONDSTO1980) :
    ∃ y, SECONDSTO1980 ≤ y ∧ y < 2 ^ 32 ∧ backOf past tz x = ulong (y + tz * 60) := by
  have clock := timeOf_spec x
  have day : x / (24 * 60 * 60) < 3652 := by
    unfold SECONDSTO1980 at early
    lia
  obtain ⟨least, most⟩ := secondsOf_early past day
  exact ⟨_, Nat.le_add_left_of_le least, by lia, rfl⟩

/-- A conversion is that of the time itself where it was the last one, and of the local time
elsewhere. -/
theorem unix2dostime_out (right : s.Right) {time : Nat}
    (which : time = if s.time ≠ sec then localTime tz sec else sec)
    (later : time / (24 * 60 * 60) ≠ 0) :
    (unix2dostime tz s sec).1 = (dateOf (time / (24 * 60 * 60)), timeOf time) := by
  unfold unix2dostime
  by_cases same : s.time = sec
  · rw [if_neg (not_not_intro same)] at which ⊢
    rw [which, ← same] at later
    rw [which, ← same, right.dtime, right.ddate (by rw [right.day]; exact later), right.day]
  · rw [if_pos same] at which ⊢
    rw [← which]
    dsimp only
    by_cases day : time / (24 * 60 * 60) = s.day
    · rw [if_neg (not_not_intro day)]
      dsimp only
      rw [right.ddate (by rw [← day]; exact later), day]
    · rw [if_pos day]

theorem late_day (late : SECONDSTO1980 ≤ x) : x / (24 * 60 * 60) ≠ 0 := by
  unfold SECONDSTO1980 at late
  omega

theorem localTime_eq (tz : Int) (sec : Nat) : ∃ k :
    Int, (localTime tz sec : Int) = sec - tz * 60 + 2 ^ 32 * k := by
  refine ⟨-((sec - tz * 60) / 2 ^ 32), ?_⟩
  have parts := Int.emod_add_mul_ediv ((sec : Int) - tz * 60) (2 ^ 32)
  have positive := Int.emod_nonneg ((sec : Int) - tz * 60) (b := 2 ^ 32) (by decide)
  unfold localTime ulong
  rw [Int.toNat_of_nonneg positive]
  omega

theorem ulong_back (tz : Int) (fits : sec < 2 ^ 32) :
    ulong ((localTime tz sec - localTime tz sec % 2 : Nat) + tz * 60) = sec - sec % 2 := by
  obtain ⟨k, is⟩ := localTime_eq tz sec
  generalize localTime tz sec = time at is ⊢
  have parity : time % 2 = sec % 2 := by lia
  have value : ((time - time % 2 : Nat) : Int) + tz * 60 = ((sec - sec % 2 : Nat) : Int) +
      2 ^ 32 * k := by lia
  unfold ulong
  rw [value, Int.add_mul_emod_self_left, Int.emod_eq_of_lt (by lia) (by lia), Int.toNat_natCast]

/-- Times are converted there and back where the local time is in 1980 or later and the time itself
is not that of the last conversion, but for a zone without an offset. -/
theorem converts_iff (past : Nat → Nat) (tz : Int) (calls : List Nat) (late : SECONDSTO1980 ≤ sec)
    (fits : sec < 2 ^ 32) :
    Converts past tz calls sec ↔
      SECONDSTO1980 ≤ localTime tz sec ∧ ((lastDos tz calls).time ≠ sec ∨ tz % 2 ^ 30 = 0) := by
  have right := lastDos_right tz calls
  have back (time : Nat) (others : List (DosDate × DosTime)) :
      (dos2unixtime past tz (lastUnix past tz others) (dateOf (time / (24 * 60 * 60)))
        (timeOf time)).1 =
        backOf past tz time :=
    dos2unixtime_right (lastUnix_right past tz others) (dateOf_month _) (timeOf time)
  constructor
  · rintro ⟨dos, unix⟩
    have unixLocal := unix []
    rw [dos, back] at unixLocal
    have after : SECONDSTO1980 ≤ localTime tz sec := by
      by_contra early
      obtain ⟨y, least, most, is⟩ := @backOf_early tz (localTime tz sec) past (by omega)
      rw [is] at unixLocal
      obtain ⟨k, zone⟩ := localTime_eq tz sec
      have below := localTime_lt tz sec
      generalize localTime tz sec = time at early zone below
      unfold ulong at unixLocal
      -- what comes back is that much too late
      have value : (y : Int) + tz * 60 = (sec + y - time : Int) + 2 ^ 32 * k := by omega
      rw [value, Int.add_mul_emod_self_left] at unixLocal
      omega
    refine ⟨after, ?_⟩
    by_cases same : (lastDos tz calls).time = sec
    · have stale := @unix2dostime_out tz sec _ right sec (by rw [if_neg (not_not_intro same)])
        (late_day late)
      have unixStale := unix []
      rw [stale, back, backOf_late past late fits] at unixStale
      refine .inr ?_
      unfold ulong at unixStale
      omega
    · exact .inl same
  · rintro ⟨after, fresh⟩
    have which : localTime tz sec =
      if (lastDos tz calls).time ≠ sec then localTime tz sec else sec := by
      by_cases same : (lastDos tz calls).time = sec
      · rw [if_neg (not_not_intro same)]
        have zone := fresh.resolve_left (not_not_intro same)
        unfold localTime ulong
        omega
      · rw [if_pos same]
    have dos := unix2dostime_out right which (late_day after)
    refine ⟨dos, fun others => ?_⟩
    rw [dos, back, backOf_late past after (localTime_lt tz sec), ulong_back tz fits]

theorem converts_leap : Converts (fun _ => 0) 480 [1000000000, 951827696] 951827696 :=
  (converts_iff (fun _ => 0) 480 [1000000000, 951827696] (by decide) (by decide)).mpr
    ⟨by decide, .inl (by decide)⟩

/-- An hour west of Greenwich, a time is asked for whose local time has been asked for an hour
before. -/
theorem converts_stale : (unix2dostime 60 (lastDos 60 []) 1000000000).1 =
      (⟨9, 9, 21⟩, ⟨20, 46, 0⟩) ∧
    (unix2dostime 60 (lastDos 60 [1000003600]) 1000000000).1 = (⟨9, 9, 21⟩, ⟨20, 46, 1⟩) ∧
    ¬ Converts (fun _ => 0) 60 [1000003600] 1000000000 := by
  refine ⟨by decide +kernel, by decide +kernel, fun converts => ?_⟩
  have same := converts.dos
  revert same
  decide +kernel

end Memory

end FreeBsd.Pcfs
