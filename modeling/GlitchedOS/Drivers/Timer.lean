/-
The calendar of the timer: `to_unix_timestamp` counts the days of whole years and months,
and `to_datetime` takes them off again.
-/
import GlitchedOS.Lib.Spans

namespace GlitchedOS

/-- `datetime_t` -/
structure Datetime where
  second : Nat
  minute : Nat
  hour : Nat
  day : Nat
  month : Nat
  year : Nat
deriving DecidableEq, Repr

def isLeap (year : Nat) : Bool := year % 4 == 0 && (year % 100 != 0 || year % 400 == 0)

def daysInYear (year : Nat) : Nat := if isLeap year then 366 else 365

def mdays : List Nat := [31, 28, 31, 30, 31, 30, 31, 31, 30, 31, 30, 31]

/-- The days of a month, counted from zero.  There is no result behind the array. -/
def daysInMonth (year month : Nat) : Option Nat :=
  mdays[month]?.map fun n => if month == 1 && isLeap year then n + 1 else n

/-- `to_unix_timestamp`.  The counter of the years is an `int`, and without a result when it
overflows; the sums are taken on a `uint64_t` and `day - 1` on a `uint32_t`. -/
def toUnixTimestamp (dt : Datetime) : Option Nat :=
  if 2 ^ 31 ≤ dt.year then none
  else do
    let days := (List.range (dt.year - 1970)).foldl (fun days i => days + daysInYear (1970 + i)) 0
    let days ← (List.range (dt.month - 1)).foldlM
      (fun days m => (daysInMonth dt.year m).map (days + ·)) days
    let days := days + (dt.day + 2 ^ 32 - 1) % 2 ^ 32
    return (days * 86400 + dt.hour * 3600 + dt.minute * 60 + dt.second) % 2 ^ 64

/-- A round of the loop over the years, whose counter is an `int`. -/
def yearRound : Nat × Nat → Option (Nat × Nat ⊕ Nat × Nat) :=
  spanRound fun year => if year < 2 ^ 31 then some (daysInYear year) else none

/-- A round of the loop over the months. -/
def monthRound (year : Nat) : Nat × Nat → Option (Nat × Nat ⊕ Nat × Nat) :=
  spanRound (daysInMonth year)

/-- `to_datetime`, with both loops for at most so many rounds. -/
def toDatetime (fuel timestamp : Nat) : Option Datetime := do
  let days := timestamp / 86400
  let seconds := timestamp % 86400
  let (days, year) ← runLoop yearRound fuel (days, 1970)
  let (days, month) ← runLoop (monthRound year) fuel (days, 0)
  return {
    hour := seconds / 3600
    minute := seconds % 3600 / 60
    second := seconds % 3600 % 60
    year := year
    month := month + 1
    day := days + 1 }

/-- The days of a month, counted from zero, in a calendar that goes on with empty months. -/
def monthLength (year month : Nat) : Nat := (daysInMonth year month).getD 31

def daysBefore (year : Nat) : Nat := Spans.start daysInYear 1970 (year - 1970)

def daysBeforeMonth (year month : Nat) : Nat := Spans.start (monthLength year) 0 (month - 1)

/-- A leap year of the civil calendar. -/
def LeapYear (year : Nat) : Prop := 4 ∣ year ∧ (¬ 100 ∣ year ∨ 400 ∣ year)

instance (year : Nat) : Decidable (LeapYear year) := inferInstanceAs (Decidable (_ ∧ _))

/-- The days of a month of the civil calendar, counted from one. -/
def civilDays (year month : Nat) : Nat :=
  if month = 2 then if LeapYear year then 29 else 28
  else if month = 4 ∨ month = 6 ∨ month = 9 ∨ month = 11 then 30 else 31

namespace Datetime

/-- A date and a time of the civil calendar, from 1970 on. -/
structure Civil (dt : Datetime) : Prop where
  second : dt.second < 60
  minute : dt.minute < 60
  hour : dt.hour < 24
  day : 1 ≤ dt.day ∧ dt.day ≤ civilDays dt.year dt.month
  month : 1 ≤ dt.month ∧ dt.month ≤ 12
  year : 1970 ≤ dt.year

def seconds (dt : Datetime) : Nat :=
  (daysBefore dt.year + daysBeforeMonth dt.year dt.month + (dt.day - 1)) * 86400 +
    dt.hour * 3600 + dt.minute * 60 + dt.second

end Datetime

theorem daysInYear_bounds (year : Nat) : 365 ≤ daysInYear year ∧ daysInYear year ≤ 366 := by
  unfold daysInYear
  split <;> omega

theorem daysInMonth_eq (year : Nat) {month : Nat} (hmonth : month < 12) :
    daysInMonth year month = some (monthLength year month) := by
  obtain ⟨n, hn⟩ : ∃ n, mdays[month]? = some n := ⟨_, List.getElem?_eq_getElem hmonth⟩
  rw [monthLength, daysInMonth, hn]
  rfl

theorem monthLength_bounds (year month : Nat) :
    28 ≤ monthLength year month ∧ monthLength year month ≤ 31 := by
  unfold monthLength daysInMonth
  rcases Nat.lt_or_ge month 12 with hmonth | hmonth
  · generalize isLeap year = leap
    have hall : ∀ (m : Fin 12) (leap : Bool),
        28 ≤ (mdays[m.1]?.map fun n => if m.1 == 1 && leap then n + 1 else n).getD 31 ∧
          (mdays[m.1]?.map fun n => if m.1 == 1 && leap then n + 1 else n).getD 31 ≤ 31 := by
      decide
    exact hall ⟨month, hmonth⟩ leap
  · rw [List.getElem?_eq_none hmonth]
    exact ⟨show 28 ≤ 31 by decide, Nat.le_refl 31⟩

theorem isLeap_iff (year : Nat) : isLeap year = true ↔ LeapYear year := by
  simp [isLeap, LeapYear, Nat.dvd_iff_mod_eq_zero]

/-- The array has the months of the civil calendar. -/
theorem monthLength_eq (year : Nat) {month : Nat} (hmonth : month < 12) :
    monthLength year month = civilDays year (month + 1) := by
  have hall : ∀ (m : Fin 12) (leap : Bool),
      (mdays[m.1]?.map fun n => if m.1 == 1 && leap then n + 1 else n).getD 31 =
        if m.1 + 1 = 2 then if leap = true then 29 else 28
        else if m.1 + 1 = 4 ∨ m.1 + 1 = 6 ∨ m.1 + 1 = 9 ∨ m.1 + 1 = 11 then 30 else 31 := by
    decide
  have hmonth := hall ⟨month, hmonth⟩ (isLeap year)
  simp only [isLeap_iff] at hmonth
  rw [monthLength, daysInMonth, civilDays, ← hmonth]

theorem start_monthLength (year : Nat) :
    Spans.start (monthLength year) 0 12 = daysInYear year := by
  unfold Spans.start monthLength daysInMonth daysInYear
  generalize isLeap year = leap
  cases leap <;> rfl

theorem foldl_daysInYear (first n : Nat) :
    (List.range n).foldl (fun days i => days + daysInYear (first + i)) 0 =
      Spans.start daysInYear first n := by
  induction n with
  | zero => rfl
  | succ n ih =>
      rw [List.range_succ, List.foldl_append, ih, Spans.start_succ]
      rfl

theorem foldlM_daysInMonth (year days : Nat) {n : Nat} (hn : n ≤ 12) :
    (List.range n).foldlM (fun days m => (daysInMonth year m).map (days + ·)) days =
      some (days + Spans.start (monthLength year) 0 n) := by
  induction n with
  | zero => rfl
  | succ n ih =>
      rw [List.range_succ, List.foldlM_append, ih (Nat.le_of_succ_le hn), Spans.start_succ,
        Nat.zero_add, ← Nat.add_assoc]
      simp [daysInMonth_eq year hn]

namespace Datetime.Civil

variable {dt : Datetime}

theorem days (hdt : dt.Civil) :
    1 ≤ dt.day ∧ dt.day ≤ monthLength dt.year (dt.month - 1) := by
  obtain ⟨hmonth, hle⟩ := hdt.month
  rw [monthLength_eq dt.year (by omega), Nat.sub_add_cancel hmonth]
  exact hdt.day

theorem daysBeforeMonth_lt (hdt : dt.Civil) :
    daysBeforeMonth dt.year dt.month + (dt.day - 1) < daysInYear dt.year := by
  obtain ⟨hmonth, hle⟩ := hdt.month
  obtain ⟨hday, hlast⟩ := hdt.days
  have hnext : Spans.start (monthLength dt.year) 0 (dt.month - 1 + 1) =
      Spans.start (monthLength dt.year) 0 (dt.month - 1) +
        monthLength dt.year (0 + (dt.month - 1)) := Spans.start_succ
  have hmono : Spans.start (monthLength dt.year) 0 (dt.month - 1 + 1) ≤
      Spans.start (monthLength dt.year) 0 12 := Spans.start_mono (by omega)
  rw [start_monthLength] at hmono
  rw [Nat.zero_add] at hnext
  unfold daysBeforeMonth
  omega

/-- `to_unix_timestamp` of a civil date is its number of seconds. -/
theorem toUnixTimestamp_eq (hdt : dt.Civil) (hyear : dt.year < 2 ^ 31) :
    toUnixTimestamp dt = some dt.seconds := by
  have hmonths := foldlM_daysInMonth dt.year (daysBefore dt.year)
    (show dt.month - 1 ≤ 12 by have hmonth := hdt.month; omega)
  have hday : (dt.day + 2 ^ 32 - 1) % 2 ^ 32 = dt.day - 1 := by
    have hday := hdt.days
    have hmax := (monthLength_bounds dt.year (dt.month - 1)).2
    omega
  have hwrap : dt.seconds < 2 ^ 64 := by
    have hyears : daysBefore dt.year ≤ (dt.year - 1970) * 366 :=
      Spans.start_le_mul fun i => (daysInYear_bounds i).2
    have hmonths := hdt.daysBeforeMonth_lt
    have hmost := (daysInYear_bounds dt.year).2
    have hsecond := hdt.second
    have hminute := hdt.minute
    have hhour := hdt.hour
    unfold seconds
    omega
  rw [toUnixTimestamp, if_neg (Nat.not_le.mpr hyear), foldl_daysInYear, ← daysBefore]
  simp only [hmonths, hday, Option.bind_eq_bind, Option.bind_some]
  exact congrArg some (Nat.mod_eq_of_lt hwrap)

/-- `to_datetime` finds the civil date with the number of seconds. -/
theorem toDatetime_seconds (hdt : dt.Civil) (hyear : dt.year < 2 ^ 31) :
    ∃ fuel, toDatetime fuel dt.seconds = some dt := by
  have hmonths := hdt.daysBeforeMonth_lt
  have hsecond := hdt.second
  have hminute := hdt.minute
  have hhour := hdt.hour
  have hday := hdt.days
  have hmonth := hdt.month
  have hfirst := hdt.year
  have hplace : 1970 + (dt.year - 1970) = dt.year := Nat.add_sub_cancel' hfirst
  have hyears : Loop.Ends yearRound
      (daysBefore dt.year + (daysBeforeMonth dt.year dt.month + (dt.day - 1)), 1970)
      (daysBeforeMonth dt.year dt.month + (dt.day - 1), 1970 + (dt.year - 1970)) :=
    Spans.ends (fun i hi => if_pos (by omega)) (by rwa [hplace])
  rw [hplace] at hyears
  have hdays : Loop.Ends (monthRound dt.year)
      (daysBeforeMonth dt.year dt.month + (dt.day - 1), 0)
      (dt.day - 1, 0 + (dt.month - 1)) :=
    Spans.ends (fun i hi => daysInMonth_eq dt.year (by omega)) (by rw [Nat.zero_add]; omega)
  rw [Nat.zero_add] at hdays
  obtain ⟨fuel, hrun⟩ := hyears
  obtain ⟨fuel', hrun'⟩ := hdays
  refine ⟨max fuel fuel', ?_⟩
  have hquot : dt.seconds / 86400 =
      daysBefore dt.year + (daysBeforeMonth dt.year dt.month + (dt.day - 1)) := by
    unfold seconds
    omega
  have hrest : dt.seconds % 86400 = dt.hour * 3600 + dt.minute * 60 + dt.second := by
    unfold seconds
    omega
  have htime : (dt.hour * 3600 + dt.minute * 60 + dt.second) / 3600 = dt.hour ∧
      (dt.hour * 3600 + dt.minute * 60 + dt.second) % 3600 / 60 = dt.minute ∧
      (dt.hour * 3600 + dt.minute * 60 + dt.second) % 3600 % 60 = dt.second := by
    omega
  rw [toDatetime, hquot, hrest, htime.1, htime.2.1, htime.2.2]
  simp only [Option.bind_eq_bind, Loop.run_mono hrun (Nat.le_max_left fuel fuel'),
    Loop.run_mono hrun' (Nat.le_max_right fuel fuel'), Option.bind_some]
  rw [Nat.sub_add_cancel hmonth.1, Nat.sub_add_cancel hday.1]
  rfl

end Datetime.Civil

/-- Every number of seconds is the one of a civil date. -/
theorem exists_civil {t : Nat} (ht : t < 2 ^ 55) :
    ∃ dt : Datetime, dt.Civil ∧ dt.year < 2 ^ 31 ∧ dt.seconds = t := by
  have hyearpos : ∀ i, 0 < daysInYear i := fun i =>
    Nat.lt_of_lt_of_le (by decide) (daysInYear_bounds i).1
  obtain ⟨years, r, hdays, hr⟩ : ∃ n r, t / 86400 = Spans.start daysInYear 1970 n + r ∧
      r < daysInYear (1970 + n) := Spans.exists_eq hyearpos _
  have hmonthpos : ∀ i, 0 < monthLength (1970 + years) i := fun i =>
    Nat.lt_of_lt_of_le (by decide) (monthLength_bounds _ i).1
  obtain ⟨months, r', hrest, hr'⟩ : ∃ n r', r = Spans.start (monthLength (1970 + years)) 0 n + r' ∧
      r' < monthLength (1970 + years) (0 + n) := Spans.exists_eq hmonthpos r
  have hyears : years * 365 ≤ Spans.start daysInYear 1970 years :=
    Spans.mul_le_start fun i => (daysInYear_bounds i).1
  have hmonths : months < 12 := by
    by_contra hmore
    have hmono : Spans.start (monthLength (1970 + years)) 0 12 ≤
        Spans.start (monthLength (1970 + years)) 0 months := Spans.start_mono (by omega)
    rw [start_monthLength] at hmono
    omega
  rw [Nat.zero_add] at hr'
  let dt : Datetime := ⟨t % 86400 % 3600 % 60, t % 86400 % 3600 / 60, t % 86400 / 3600, r' + 1,
    months + 1, 1970 + years⟩
  have hdt : dt.Civil :=
    { second := Nat.mod_lt _ (by decide)
      minute := by change t % 86400 % 3600 / 60 < 60; omega
      hour := by change t % 86400 / 3600 < 24; omega
      day := ⟨Nat.succ_pos r', monthLength_eq (1970 + years) hmonths ▸ hr'⟩
      month := ⟨Nat.succ_pos months, hmonths⟩
      year := Nat.le_add_right 1970 years }
  refine ⟨dt, hdt, ?_, ?_⟩
  · change 1970 + years < 2 ^ 31
    omega
  · unfold Datetime.seconds daysBefore daysBeforeMonth
    dsimp only [dt]
    rw [Nat.add_sub_cancel, Nat.add_sub_cancel, Nat.add_sub_cancel_left]
    omega

end GlitchedOS
