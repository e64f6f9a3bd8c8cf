/-
FAT timestamps: a date and a time of sixteen bits each, with the year in seven bits and the
seconds in steps of two.
-/
import GlitchedOS.Drivers.Timer
import Mathlib.Data.Nat.Bitwise

namespace GlitchedOS

/-- `fat_timestamp_to_unix` -/
def fatTimestampToUnix (fatDate fatTime : Nat) : Option Nat :=
  toUnixTimestamp {
    year := ((fatDate >>> 9) &&& 0x7F) + 1980
    month := (fatDate >>> 5) &&& 0x0F
    day := fatDate &&& 0x1F
    hour := (fatTime >>> 11) &&& 0x1F
    minute := (fatTime >>> 5) &&& 0x3F
    second := (fatTime &&& 0x1F) * 2 }

/-- The date and the time of `unix_to_fat_timestamp`, as `uint16_t`s. -/
def packFat (dt : Datetime) : Nat × Nat :=
  let year := if dt.year < 1980 then 1980 else dt.year
  let yearSince1980 := year - 1980
  ((((yearSince1980 &&& 0x7F) <<< 9) ||| ((dt.month &&& 0x0F) <<< 5) ||| (dt.day &&& 0x1F)) %
      2 ^ 16,
    (((dt.hour &&& 0x1F) <<< 11) ||| ((dt.minute &&& 0x3F) <<< 5) |||
      ((dt.second / 2) &&& 0x1F)) % 2 ^ 16)

/-- `unix_to_fat_timestamp`, with the loops of `to_datetime` for at most so many rounds. -/
def unixToFatTimestamp (fuel timestamp : Nat) : Option (Nat × Nat) :=
  (toDatetime fuel timestamp).map packFat

theorem packed_eq {x y z i k : Nat} (hy : y < 2 ^ i) (hz : z < 2 ^ k) :
    (x <<< (i + k) ||| y <<< k ||| z) = (x * 2 ^ i + y) * 2 ^ k + z := by
  have hhigh : x <<< (i + k) ||| y <<< k = (x * 2 ^ i + y) <<< k := by
    rw [Nat.shiftLeft_add, ← Nat.shiftLeft_or_distrib, ← Nat.shiftLeft_add_eq_or_of_lt hy,
      Nat.shiftLeft_eq x i]
  rw [hhigh, ← Nat.shiftLeft_add_eq_or_of_lt hz, Nat.shiftLeft_eq]

theorem and_15 (n : Nat) : n &&& 0x0F = n % 2 ^ 4 := Nat.and_two_pow_sub_one_eq_mod n 4

theorem and_31 (n : Nat) : n &&& 0x1F = n % 2 ^ 5 := Nat.and_two_pow_sub_one_eq_mod n 5

theorem and_63 (n : Nat) : n &&& 0x3F = n % 2 ^ 6 := Nat.and_two_pow_sub_one_eq_mod n 6

theorem and_127 (n : Nat) : n &&& 0x7F = n % 2 ^ 7 := Nat.and_two_pow_sub_one_eq_mod n 7

namespace Datetime

/-- The date at the even second. -/
def even (dt : Datetime) : Datetime := { dt with second := dt.second / 2 * 2 }

variable {dt : Datetime}

theorem Civil.even (hdt : dt.Civil) : dt.even.Civil :=
  { hdt with
    second := by
      have hsecond := hdt.second
      change dt.second / 2 * 2 < 60
      omega }

theorem seconds_even : dt.even.seconds = dt.seconds - dt.seconds % 2 := by
  unfold seconds even
  dsimp only
  omega

theorem Civil.packFat_eq (hdt : dt.Civil) (hyear : 1980 ≤ dt.year ∧ dt.year ≤ 2107) :
    packFat dt = (((dt.year - 1980) * 2 ^ 4 + dt.month) * 2 ^ 5 + dt.day,
      (dt.hour * 2 ^ 6 + dt.minute) * 2 ^ 5 + dt.second / 2) := by
  have hmonth := hdt.month
  have hminute := hdt.minute
  have hhour := hdt.hour
  have hsecond := hdt.second
  have hday : dt.day < 2 ^ 5 := by
    have hday := hdt.days
    have hmost := (monthLength_bounds dt.year (dt.month - 1)).2
    omega
  have hdate : (dt.year - 1980) <<< 9 ||| dt.month <<< 5 ||| dt.day =
      ((dt.year - 1980) * 2 ^ 4 + dt.month) * 2 ^ 5 + dt.day :=
    packed_eq (i := 4) (k := 5) (by omega) hday
  have htime : dt.hour <<< 11 ||| dt.minute <<< 5 ||| dt.second / 2 =
      (dt.hour * 2 ^ 6 + dt.minute) * 2 ^ 5 + dt.second / 2 :=
    packed_eq (i := 6) (k := 5) (by omega) (by omega)
  unfold packFat
  dsimp only
  rw [if_neg (by omega)]
  simp only [and_15, and_31, and_63, and_127]
  rw [Nat.mod_eq_of_lt (show dt.year - 1980 < 2 ^ 7 by omega),
    Nat.mod_eq_of_lt (show dt.month < 2 ^ 4 by omega), Nat.mod_eq_of_lt hday,
    Nat.mod_eq_of_lt (show dt.hour < 2 ^ 5 by omega),
    Nat.mod_eq_of_lt (show dt.minute < 2 ^ 6 by omega),
    Nat.mod_eq_of_lt (show dt.second / 2 < 2 ^ 5 by omega), hdate, htime,
    Nat.mod_eq_of_lt (by omega), Nat.mod_eq_of_lt (by omega)]

theorem Civil.unpack (hdt : dt.Civil) (hyear : 1980 ≤ dt.year ∧ dt.year ≤ 2107) :
    fatTimestampToUnix (packFat dt).1 (packFat dt).2 = toUnixTimestamp dt.even := by
  have hmonth := hdt.month
  have hminute := hdt.minute
  have hhour := hdt.hour
  have hsecond := hdt.second
  have hday := hdt.days
  have hmost := (monthLength_bounds dt.year (dt.month - 1)).2
  rw [hdt.packFat_eq hyear, fatTimestampToUnix, Datetime.even]
  simp only [and_15, and_31, and_63, and_127, Nat.shiftRight_eq_div_pow]
  congr 1
  rw [Datetime.mk.injEq]
  omega

end Datetime

/-- The calendar conversions are inverse to each other, and FAT timestamps lose the last
bit of the seconds. -/
theorem calendar_inverse :
    (∀ t < 2 ^ 55, ∃ fuel dt, toDatetime fuel t = some dt ∧ dt.Civil ∧
      toUnixTimestamp dt = some t) ∧
    (∀ dt : Datetime, dt.Civil → dt.year < 2 ^ 30 →
      ∃ fuel t, toUnixTimestamp dt = some t ∧ toDatetime fuel t = some dt) ∧
    ∀ (t : Nat) (dt : Datetime), dt.Civil → toUnixTimestamp dt = some t →
      1980 ≤ dt.year ∧ dt.year ≤ 2107 →
      ∃ fuel date time, unixToFatTimestamp fuel t = some (date, time) ∧
        fatTimestampToUnix date time = some (t - t % 2) := by
  refine ⟨?_, ?_, ?_⟩
  · intro t ht
    obtain ⟨dt, hdt, hyear, rfl⟩ := exists_civil ht
    obtain ⟨fuel, hrun⟩ := hdt.toDatetime_seconds hyear
    exact ⟨fuel, dt, hrun, hdt, hdt.toUnixTimestamp_eq hyear⟩
  · intro dt hdt hyear
    have hyear : dt.year < 2 ^ 31 := Nat.lt_trans hyear (by decide)
    obtain ⟨fuel, hrun⟩ := hdt.toDatetime_seconds hyear
    exact ⟨fuel, dt.seconds, hdt.toUnixTimestamp_eq hyear, hrun⟩
  · intro t dt hdt ht hyear
    have hyear' : dt.year < 2 ^ 31 := Nat.lt_of_le_of_lt hyear.2 (by decide)
    obtain rfl := Option.some.inj ((hdt.toUnixTimestamp_eq hyear').symm.trans ht)
    obtain ⟨fuel, hrun⟩ := hdt.toDatetime_seconds hyear'
    refine ⟨fuel, (packFat dt).1, (packFat dt).2, by rw [unixToFatTimestamp, hrun]; rfl, ?_⟩
    rw [hdt.unpack hyear, hdt.even.toUnixTimestamp_eq hyear', Datetime.seconds_even]

/-- The last second of a leap day. -/
theorem calendar_leap_day :
    951868799 < 2 ^ 55 ∧ ∃ fuel dt, toDatetime fuel 951868799 = some dt ∧ dt.Civil ∧
      toUnixTimestamp dt = some 951868799 :=
  ⟨by decide, calendar_inverse.1 951868799 (by decide)⟩

end GlitchedOS
