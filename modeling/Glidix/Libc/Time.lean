import Mathlib.Algebra.Order.Ring.Int
import Mathlib.Data.List.Basic
import Mathlib.Tactic.IntervalCases
import Glidix.Lib.Calendar

/-!
# Calendar time of the kernel and of the C library

The kernel makes a time of the fields of the clock, `gmtime_r` makes the fields of a time, and `mktime` goes
back.  The library agrees with the calendar; the kernel counts one day too many in every leap year.
-/

namespace Glidix.Libc.Time

open Calendar

/-- A value in an `int` and in a `long`. -/
def int32 (v : ℤ) : ℤ := (v + 2 ^ 31) % 2 ^ 32 - 2 ^ 31

def int64 (v : ℤ) : ℤ := (v + 2 ^ 63) % 2 ^ 64 - 2 ^ 63

/-! ## The kernel -/

def SECONDS_PER_HOUR : ℤ := 3600
def SECONDS_PER_MINUTE : ℤ := 60
def SECONDS_PER_DAY : ℤ := 86400
def SECONDS_PER_NONLEAP_YEAR : ℤ := 31536000

def monthOffsets : List ℤ :=
  [0, 31, 31 + 28, 31 + 28 + 31, 31 + 28 + 31 + 30, 31 + 28 + 31 + 30 + 31, 31 + 28 + 31 + 30 + 31 + 30,
    31 + 28 + 31 + 30 + 31 + 30 + 31, 31 + 28 + 31 + 30 + 31 + 30 + 31 + 31,
    31 + 28 + 31 + 30 + 31 + 30 + 31 + 31 + 30, 31 + 28 + 31 + 30 + 31 + 30 + 31 + 31 + 30 + 31,
    31 + 28 + 31 + 30 + 31 + 30 + 31 + 31 + 30 + 31 + 30]

/-- `makeUnixTime`; `none` if the month is not one of `monthOffsets`. -/
def makeUnixTime (year month day hour minute second : ℤ) : Option ℤ :=
  if 1 ≤ month ∧ month ≤ 12 then
    let secondsToday := hour * SECONDS_PER_HOUR + minute * SECONDS_PER_MINUTE + second
    let dayOfYear := monthOffsets.getD (month - 1).toNat 0 + (day - 1)
    let dayOfYear := if year.tmod 4 = 0 ∧ month ≥ 3 then dayOfYear + 1 else dayOfYear
    let secondsThisYear := dayOfYear * SECONDS_PER_DAY + secondsToday
    let relativeYear := year - 1970
    let secondsBeforeThisYear :=
      relativeYear * SECONDS_PER_NONLEAP_YEAR + (relativeYear + 2).tdiv 4 * SECONDS_PER_DAY
    some (int64 (secondsBeforeThisYear + secondsThisYear))
  else none

/-! ## The library -/

def YEAR0 : ℤ := 1900
def SECS_DAY : ℤ := 86400
def TIME_MAX : ℤ := 9223372036854775807

def LEAPYEAR (year : ℤ) : Bool :=
  decide (year.tmod 4 = 0 ∧ (year.tmod 100 ≠ 0 ∨ year.tmod 400 = 0))

def YEARSIZE (year : ℤ) : ℕ := if LEAPYEAR year then 366 else 365

/-- A row of `_ytab`. -/
def ytab (leap : Bool) : List ℕ :=
  if leap then [31, 29, 31, 30, 31, 30, 31, 31, 30, 31, 30, 31]
  else [31, 28, 31, 30, 31, 30, 31, 31, 30, 31, 30, 31]

structure Tm where
  tm_sec : ℤ
  tm_min : ℤ
  tm_hour : ℤ
  tm_mday : ℤ
  tm_mon : ℤ
  tm_year : ℤ
  tm_wday : ℤ
  tm_yday : ℤ
  tm_isdst : ℤ
  deriving DecidableEq

theorem YEARSIZE_pos (year : ℤ) : 0 < YEARSIZE year := by
  unfold YEARSIZE
  split <;> decide

/-- The loop of `gmtime_r` over the years. -/
def yearLoop (dayno : ℕ) (year : ℤ) : ℕ × ℤ :=
  if dayno ≥ YEARSIZE year then yearLoop (dayno - YEARSIZE year) (int32 (year + 1)) else (dayno, year)
termination_by dayno
decreasing_by
  have := YEARSIZE_pos year
  omega

/-- The loop of `gmtime_r` over the months; `none` if it reads behind the row. -/
def monthLoop : (row : List ℕ) → (dayno : ℕ) → (mon : ℤ) → Option (ℕ × ℤ)
  | [], _, _ => none
  | len :: row, dayno, mon => if dayno ≥ len then monthLoop row (dayno - len) (mon + 1) else some (dayno, mon)

def gmtime_r (timer : ℤ) : Option Tm :=
  let time := (timer % 2 ^ 64).toNat
  let dayclock := time % (24 * 60 * 60)
  let dayno := time / (24 * 60 * 60)
  let years := yearLoop dayno 1970
  (monthLoop (ytab (LEAPYEAR years.2)) years.1 0).map fun months =>
    { tm_sec := (dayclock % 60 : ℕ)
      tm_min := (dayclock % 3600 / 60 : ℕ)
      tm_hour := (dayclock / 3600 : ℕ)
      tm_mday := months.1 + 1
      tm_mon := months.2
      tm_year := int32 (years.2 - 1900)
      tm_wday := ((dayno + 4) % 7 : ℕ)
      tm_yday := years.1
      tm_isdst := 0 }

/-- `a += b / n; b %= n;` and a unit of `a` less if `b` is negative. -/
def carry (a b n : ℤ) : ℤ × ℤ :=
  if b.tmod n < 0 then (int32 (int32 (a + b.tdiv n) - 1), b.tmod n + n) else (int32 (a + b.tdiv n), b.tmod n)

/-- The length of the month `mon` of the year `YEAR0 + year`. -/
def monthDays (year : ℤ) (mon : Fin 12) : ℕ := (ytab (LEAPYEAR (int32 (YEAR0 + year)))).getD mon 0

theorem monthDays_pos (year : ℤ) (mon : Fin 12) : 0 < monthDays year mon := by
  unfold monthDays
  generalize LEAPYEAR _ = leap
  revert leap mon
  decide

/-- `while (day < 0)`. -/
def borrow (day year : ℤ) (mon : Fin 12) : ℤ × ℤ × Fin 12 :=
  if day < 0 then
    if mon = 0 then borrow (day + monthDays (int32 (year - 1)) 11) (int32 (year - 1)) 11
    else borrow (day + monthDays year (mon - 1)) year (mon - 1)
  else (day, year, mon)
termination_by (-day).toNat
decreasing_by
  · have := monthDays_pos (int32 (year - 1)) 11
    omega
  · have := monthDays_pos year (mon - 1)
    omega

/-- `while (day >= _ytab[..][tm_mon])`. -/
def forward (day year : ℤ) (mon : Fin 12) : ℤ × ℤ × Fin 12 :=
  if day ≥ monthDays year mon then
    if mon = 11 then forward (day - monthDays year mon) (int32 (year + 1)) 0
    else forward (day - monthDays year mon) year (mon + 1)
  else (day, year, mon)
termination_by day.toNat
decreasing_by
  · have := monthDays_pos year mon
    omega
  · have := monthDays_pos year mon
    omega

/-- 1 if the last leap day of this kind is counted, since the remainder of the year has passed 0. -/
def passed (tm_year year n : ℤ) : ℤ :=
  if tm_year.tmod n ≠ 0 ∧ tm_year.tmod n < year.tmod n then 1 else 0

/-- The days since the first day of 1970. -/
def dayCount (tm_year : ℤ) : ℤ :=
  let year := 1970
  let day := (tm_year - year) * 365
  let day := day + ((tm_year - year).tdiv 4 + passed tm_year year 4)
  let day := day - ((tm_year - year).tdiv 100 + passed tm_year year 100)
  day + ((tm_year - year).tdiv 400 + passed tm_year year 400)

/-- The first part of `mktime`, which brings the fields into their ranges. -/
def normal (tm : Tm) : Tm :=
  let (tm_min, tm_sec) := carry tm.tm_min tm.tm_sec 60
  let (tm_hour, tm_min) := carry tm.tm_hour tm_min 60
  let day := if tm_hour.tmod 24 < 0 then tm_hour.tdiv 24 - 1 else tm_hour.tdiv 24
  let tm_hour := if tm_hour.tmod 24 < 0 then tm_hour.tmod 24 + 24 else tm_hour.tmod 24
  let (tm_year, tm_mon) := carry tm.tm_year tm.tm_mon 12
  let (day, tm_year, mon) := borrow (day + (tm.tm_mday - 1)) tm_year (Fin.ofNat 12 tm_mon.toNat)
  let (day, tm_year, mon) := forward day tm_year mon
  ⟨tm_sec, tm_min, tm_hour, int32 (day + 1), (mon : ℕ), tm_year, tm.tm_wday, tm.tm_yday, tm.tm_isdst⟩

/-- The second part: the seconds of the day and the days, with the zone. -/
def secondsOf (timezone dst tm_year day secondsToday : ℤ) : ℤ :=
  let seconds := int64 (secondsToday + day * SECS_DAY)
  let zoned := int64 (seconds + timezone)
  if TIME_MAX.tdiv 365 < tm_year - 1970 ∨
      TIME_MAX - (tm_year - 1970) * 365 < (tm_year - 1970).tdiv 4 + 1 ∨
      day < 0 ∨ (TIME_MAX - secondsToday).tdiv SECS_DAY < day ∨
      (timezone > 0 ∧ TIME_MAX - timezone < seconds ∨ timezone < 0 ∧ seconds < -timezone) ∨
      dst > zoned then -1
  else int64 (zoned - dst)

/-- `mktime`; its result and the fields that it leaves. -/
def mktime (timezone _dstbias : ℤ) (tm : Tm) : ℤ × Tm :=
  let tm := normal tm
  if tm.tm_year < 1970 - YEAR0 then (-1, tm)
  else
    let tm_year := int32 (tm.tm_year + YEAR0)
    let yday : ℤ := ((ytab (LEAPYEAR tm_year)).take tm.tm_mon.toNat).sum + (tm.tm_mday - 1)
    let day := dayCount tm_year + yday
    let dst := if tm.tm_isdst ≠ 0 then _dstbias else 0
    (secondsOf timezone dst tm_year day ((tm.tm_hour * 60 + tm.tm_min) * 60 + tm.tm_sec),
      { tm with tm_yday := yday, tm_wday := (day + 4).tmod 7 })

/-! ## Years and months -/

section Loops

variable {y : ℕ}

theorem LEAPYEAR_cast (y : ℕ) : LEAPYEAR (y : ℤ) = decide (IsLeap y) := by
  unfold LEAPYEAR IsLeap
  rw [Int.tmod_eq_emod_of_nonneg (by omega), Int.tmod_eq_emod_of_nonneg (by omega),
    Int.tmod_eq_emod_of_nonneg (by omega)]
  exact decide_eq_decide.2 (by omega)

theorem YEARSIZE_cast (y : ℕ) : YEARSIZE (y : ℤ) = yearLength y := by
  simp only [YEARSIZE, LEAPYEAR_cast, yearLength, decide_eq_true_eq]

theorem int32_of_range {v : ℤ} (hl : -2 ^ 31 ≤ v) (hu : v < 2 ^ 31) : int32 v = v := by
  unfold int32
  omega

theorem int64_of_range {v : ℤ} (hl : -2 ^ 63 ≤ v) (hu : v < 2 ^ 63) : int64 v = v := by
  unfold int64
  omega

theorem yearLength_ge (y : ℕ) : 365 ≤ yearLength y := by
  unfold yearLength
  split <;> decide

/-- The search for the year, as long as the year fits. -/
theorem yearLoop_spec (dayno y : ℕ) (h : y + dayno / 365 < 2 ^ 31) :
    ∃ y', yearLoop dayno y = (dayno + yearStart y - yearStart y', (y' : ℤ)) ∧ yearStart y' ≤ dayno + yearStart y ∧
      dayno + yearStart y - yearStart y' < yearLength y' ∧ y ≤ y' ∧ y' < 2 ^ 31 := by
  induction dayno using Nat.strong_induction_on generalizing y with
  | _ dayno ih =>
    have hlen := yearLength_ge y
    rw [yearLoop, YEARSIZE_cast]
    split_ifs with hge
    · rw [int32_of_range (by omega) (by omega)]
      obtain ⟨y', heq, hle, hlt, hyear, hfit⟩ := ih (dayno - yearLength y) (by omega) (y + 1) (by omega)
      have hsum : dayno - yearLength y + yearStart (y + 1) = dayno + yearStart y := by
        rw [yearStart]
        omega
      rw [hsum] at heq hle hlt
      exact ⟨y', heq, hle, hlt, by omega, hfit⟩
    · exact ⟨y, by rw [Nat.add_sub_cancel], by omega, by omega, le_rfl, by omega⟩

theorem monthLoop_spec {row : List ℕ} {dayno : ℕ} (mon : ℤ) (h : dayno < row.sum) :
    ∃ k r, monthLoop row dayno mon = some (r, mon + (k : ℕ)) ∧ (row.take k).sum + r = dayno ∧ k < row.length ∧
      r < row.getD k 0 := by
  induction row generalizing dayno mon with
  | nil => exact absurd h (Nat.not_lt_zero _)
  | cons len row ih =>
    rw [List.sum_cons] at h
    rw [monthLoop]
    split_ifs with hge
    · obtain ⟨k, r, heq, hsum, hk, hr⟩ := @ih (dayno - len) (mon + 1) (by omega)
      refine ⟨k + 1, r, ?_, ?_, Nat.succ_lt_succ hk, hr⟩
      · rw [heq]
        push_cast
        congr 2
        omega
      · rw [List.take_succ_cons, List.sum_cons]
        omega
    · exact ⟨0, dayno, by simp, by simp, Nat.succ_pos _, by simpa using hge⟩

theorem ytab_eq (y : ℕ) : ytab (decide (IsLeap y)) = (List.range 12).map fun k => monthLength y (k + 1) := by
  by_cases hleap : IsLeap y
  · simp [ytab, List.range, List.range.loop, monthLength, hleap]
  · simp [ytab, List.range, List.range.loop, monthLength, hleap]

theorem sum_take_ytab {k : ℕ} (hk : k ≤ 12) : ((ytab (decide (IsLeap y))).take k).sum = monthsLength y k := by
  rw [ytab_eq, ← List.map_take, List.take_range, Nat.min_eq_left hk]
  clear hk
  induction k with
  | zero => rfl
  | succ k ih =>
    rw [List.range_succ, List.map_append, List.sum_append, ih, monthsLength]
    simp

theorem getD_ytab {k : ℕ} (hk : k < 12) : (ytab (decide (IsLeap y))).getD k 0 = monthLength y (k + 1) := by
  rw [ytab_eq, List.getD_eq_getElem?_getD, List.getElem?_map, List.getElem?_range hk]
  rfl

end Loops

/-! ## `gmtime_r` -/

def epoch : Date := ⟨1970, 1, 1⟩

theorem epoch_valid : epoch.Valid := ⟨by decide, by decide, by decide, by decide⟩

theorem yearStart_epoch : yearStart 1970 = 719528 := by
  have := yearStart_eq 1970
  omega

theorem epoch_number : epoch.number = 719528 := by
  rw [Date.number, show epoch.year = 1970 from rfl, yearStart_epoch]
  rfl

/-- The fields of a date and a second of its day. -/
def tmOf (x : Date) (second : ℕ) : Tm :=
  ⟨(second % 60 : ℕ), (second % 3600 / 60 : ℕ), (second / 3600 : ℕ), x.day, x.month - 1, x.year - 1900,
    x.weekday, x.dayOfYear, 0⟩

/-- `gmtime_r` gives the date and the time of day. -/
theorem gmtime_r_eq {t : ℕ} (ht : t < 2 ^ 55) :
    gmtime_r t = some (tmOf (epoch.after (t / 86400)) (t % 86400)) := by
  have hmod : ((t : ℤ) % 2 ^ 64).toNat = t := by omega
  obtain ⟨y, hloop, hle, hlt, hyear, hfit⟩ := yearLoop_spec (t / 86400) 1970 (by omega)
  rw [yearStart_epoch] at hloop hle hlt
  generalize hd : t / 86400 + 719528 - yearStart y = yday at hloop hlt
  have hrow : yday < (ytab (decide (IsLeap y))).sum := by
    have hsum := @sum_take_ytab y 12 le_rfl
    rw [monthsLength_twelve, List.take_of_length_le (by unfold ytab; split <;> decide)] at hsum
    rwa [hsum]
  obtain ⟨k, r, hmonth, hsum, hk, hr⟩ := monthLoop_spec 0 hrow
  have hk : k < 12 := by
    have hlen : (ytab (decide (IsLeap y))).length = 12 := by unfold ytab; split <;> rfl
    omega
  rw [getD_ytab hk] at hr
  rw [sum_take_ytab hk.le] at hsum
  have hvalid : (⟨y, k + 1, r + 1⟩ : Date).Valid :=
    ⟨Nat.le_add_left 1 _, hk, Nat.le_add_left 1 _, hr⟩
  have hday : (⟨y, k + 1, r + 1⟩ : Date).dayOfYear = yday := hsum
  have hnumber : (⟨y, k + 1, r + 1⟩ : Date).number = epoch.number + t / 86400 := by
    rw [Date.number, hday, epoch_number]
    simp only
    omega
  have hafter := Date.after_eq epoch_valid hvalid hnumber
  have hwday : (⟨y, k + 1, r + 1⟩ : Date).weekday = (t / 86400 + 4) % 7 := by
    rw [Date.weekday, hnumber, epoch_number]
    omega
  rw [Nat.cast_ofNat] at hloop
  unfold gmtime_r
  simp only [hmod, Nat.reduceMul, hloop, LEAPYEAR_cast, hmonth, Option.map_some, hafter]
  rw [int32_of_range (by omega) (by omega), tmOf, hday, hwday]
  simp

/-! ## `mktime` -/

section Mktime

variable {x : Date} {y : ℕ}

theorem carry_of_range {a b n : ℤ} (hl : -2 ^ 31 ≤ a) (hu : a < 2 ^ 31) (hb : 0 ≤ b) (hn : b < n) :
    carry a b n = (a, b) := by
  unfold carry
  rw [Int.tmod_eq_of_lt hb hn, Int.tdiv_eq_zero_of_lt hb hn, if_neg (by omega), Int.add_zero,
    int32_of_range hl hu]

theorem borrow_of_nonneg {day year : ℤ} {mon : Fin 12} (h : 0 ≤ day) : borrow day year mon = (day, year, mon) := by
  rw [borrow, if_neg (by omega)]

theorem forward_of_lt {day year : ℤ} {mon : Fin 12} (h : day < monthDays year mon) :
    forward day year mon = (day, year, mon) := by
  rw [forward, if_neg (by omega)]

theorem monthDays_eq {k : ℕ} (hk : k < 12) (hy : y < 2 ^ 31) :
    monthDays (y - 1900) ⟨k, hk⟩ = monthLength y (k + 1) := by
  have hyear : YEAR0 + ((y : ℤ) - 1900) = y := by
    unfold YEAR0
    omega
  rw [monthDays, hyear, int32_of_range (by omega) (by omega), LEAPYEAR_cast, getD_ytab hk]

/-- The closed formula counts the days of the years. -/
theorem dayCount_eq (hy : 1970 ≤ y) : dayCount y = yearStart y - 719528 := by
  have hstart := yearStart_eq y
  have hdiv : ∀ n : ℤ, ((y : ℤ) - 1970).tdiv n = ((y : ℤ) - 1970) / n := fun n =>
    Int.tdiv_eq_ediv_of_nonneg (by omega)
  have hmod : ∀ n : ℤ, (y : ℤ).tmod n = y % n := fun n => Int.tmod_eq_emod_of_nonneg (by omega)
  have h4 : passed y 1970 4 = if (y : ℤ) % 4 = 1 then 1 else 0 := by
    rw [passed, hmod, show (1970 : ℤ).tmod 4 = 2 from rfl]
    exact if_congr (by omega) rfl rfl
  have h100 : passed y 1970 100 = if (y : ℤ) % 100 ≠ 0 ∧ (y : ℤ) % 100 < 70 then 1 else 0 := by
    rw [passed, hmod, show (1970 : ℤ).tmod 100 = 70 from rfl]
  have h400 : passed y 1970 400 = if (y : ℤ) % 400 ≠ 0 ∧ (y : ℤ) % 400 < 370 then 1 else 0 := by
    rw [passed, hmod, show (1970 : ℤ).tmod 400 = 370 from rfl]
  have q4 : ((y : ℤ) - 1970) / 4 + passed y 1970 4 = ((y : ℤ) + 3) / 4 - 493 := by
    rw [h4]
    split_ifs
    · omega
    · omega
  have q100 : ((y : ℤ) - 1970) / 100 + passed y 1970 100 = ((y : ℤ) + 99) / 100 - 20 := by
    rw [h100]
    split_ifs
    · omega
    · omega
  have q400 : ((y : ℤ) - 1970) / 400 + passed y 1970 400 = ((y : ℤ) + 399) / 400 - 5 := by
    rw [h400]
    split_ifs
    · omega
    · omega
  unfold dayCount
  simp only [hdiv, q4, q100, q400]
  omega

/-- Fields that are in their ranges, with the month. -/
structure InRange (tm : Tm) (month : Fin 12) : Prop where
  sec : 0 ≤ tm.tm_sec ∧ tm.tm_sec < 60
  min : 0 ≤ tm.tm_min ∧ tm.tm_min < 60
  hour : 0 ≤ tm.tm_hour ∧ tm.tm_hour < 24
  mon : tm.tm_mon = (month : ℕ)
  year : -2 ^ 31 ≤ tm.tm_year ∧ tm.tm_year < 2 ^ 31
  mday : 1 ≤ tm.tm_mday ∧ tm.tm_mday ≤ monthDays tm.tm_year month

theorem monthDays_le (year : ℤ) (mon : Fin 12) : monthDays year mon ≤ 31 := by
  unfold monthDays
  generalize LEAPYEAR _ = leap
  revert leap mon
  decide

theorem InRange.normal {tm : Tm} {month : Fin 12} (h : InRange tm month) : normal tm = tm := by
  obtain ⟨sec, min, hour, mday, mon, year, wday, yday, isdst⟩ := tm
  obtain ⟨⟨hsec, hsec'⟩, ⟨hmin, hmin'⟩, ⟨hhour, hhour'⟩, hmon, ⟨hyear, hyear'⟩, hmday, hmday'⟩ := h
  simp only at *
  have hlen := monthDays_le year month
  have hlt := month.isLt
  have h₁ : carry min sec 60 = (min, sec) := carry_of_range (by omega) (by omega) hsec hsec'
  have h₂ : carry hour min 60 = (hour, min) := carry_of_range (by omega) (by omega) hmin hmin'
  have h₃ : hour.tmod 24 = hour := Int.tmod_eq_of_lt hhour hhour'
  have h₄ : hour.tdiv 24 = 0 := Int.tdiv_eq_zero_of_lt hhour hhour'
  have h₅ : carry year mon 12 = (year, mon) := carry_of_range hyear hyear' (by omega) (by omega)
  have h₆ : Fin.ofNat 12 mon.toNat = month := by
    rw [hmon, Int.toNat_natCast]
    exact Fin.ext (Nat.mod_eq_of_lt hlt)
  have h₇ : borrow (0 + (mday - 1)) year month = (mday - 1, year, month) := by
    rw [Int.zero_add]
    exact borrow_of_nonneg (by omega)
  have h₈ : forward (mday - 1) year month = (mday - 1, year, month) := forward_of_lt (by omega)
  have h₉ : int32 (mday - 1 + 1) = mday := by
    rw [Int.sub_add_cancel]
    exact int32_of_range (by omega) (by omega)
  unfold Time.normal
  simp only [h₁, h₂, h₃, h₄, if_neg (not_lt.2 hhour), h₅, h₆, h₇, h₈, h₉]
  rw [hmon]

theorem inRange_tmOf {second : ℕ} (hx : x.Valid) (hhi : x.year < 2 ^ 31) (hs : second < 86400) :
    ∃ month : Fin 12, month.val = x.month - 1 ∧ InRange (tmOf x second) month := by
  obtain ⟨hpos, hle, hday, hlen⟩ := hx
  have hk : x.month - 1 < 12 := by omega
  have hmonth : x.month - 1 + 1 = x.month := by omega
  refine ⟨⟨x.month - 1, hk⟩, rfl, ⟨?_, ?_⟩, ⟨?_, ?_⟩, ⟨?_, ?_⟩, ?_, ⟨?_, ?_⟩, ?_, ?_⟩
  all_goals simp only [tmOf]
  case refine_11 =>
    rw [monthDays_eq hk hhi, hmonth]
    omega
  all_goals omega

/-- The seconds of a time in the years that fit. -/
theorem secondsOf_eq {tm_year day secondsToday : ℤ} (hlo : 1970 ≤ tm_year) (hhi : tm_year < 2 ^ 31)
    (hday : 0 ≤ day) (hs : 0 ≤ secondsToday) (hs' : secondsToday < 86400)
    (hfit : secondsToday + day * 86400 < 2 ^ 55) :
    secondsOf 0 0 tm_year day secondsToday = secondsToday + day * 86400 := by
  have hseconds : int64 (secondsToday + day * SECS_DAY) = secondsToday + day * 86400 :=
    int64_of_range (by unfold SECS_DAY; omega) (by unfold SECS_DAY; omega)
  have hdiv : TIME_MAX.tdiv 365 = TIME_MAX / 365 := Int.tdiv_eq_ediv_of_nonneg (by decide)
  have hdays : (TIME_MAX - secondsToday).tdiv SECS_DAY = (TIME_MAX - secondsToday) / 86400 :=
    Int.tdiv_eq_ediv_of_nonneg (by unfold TIME_MAX; omega)
  have hquarter : (tm_year - 1970).tdiv 4 = (tm_year - 1970) / 4 := Int.tdiv_eq_ediv_of_nonneg (by omega)
  have hnone : ¬(TIME_MAX.tdiv 365 < tm_year - 1970 ∨
      TIME_MAX - (tm_year - 1970) * 365 < (tm_year - 1970).tdiv 4 + 1 ∨
      day < 0 ∨ (TIME_MAX - secondsToday).tdiv SECS_DAY < day ∨
      ((0 : ℤ) > 0 ∧ TIME_MAX - 0 < secondsToday + day * 86400 ∨
        (0 : ℤ) < 0 ∧ secondsToday + day * 86400 < -0) ∨ 0 > secondsToday + day * 86400) := by
    rw [hdiv, hdays, hquarter]
    unfold TIME_MAX
    omega
  have hzoned : int64 (secondsToday + day * 86400) = secondsToday + day * 86400 :=
    int64_of_range (by omega) (by omega)
  unfold secondsOf
  simp only [hseconds, Int.add_zero, hzoned]
  exact (if_neg hnone).trans (by rw [Int.sub_zero, hzoned])

/-- `mktime` of the fields of a date. -/
theorem mktime_eq {second : ℕ} (hx : x.Valid) (hlo : 1970 ≤ x.year) (hhi : x.year < 2 ^ 31)
    (hs : second < 86400) (hfit : (x.number - 719528) * 86400 + second < 2 ^ 55) :
    (mktime 0 0 (tmOf x second)).1 = (((x.number - 719528) * 86400 + second : ℕ) : ℤ) := by
  obtain ⟨month, hmonth, hrange⟩ := inRange_tmOf hx hhi hs
  have hstart := yearStart_mono hlo
  rw [yearStart_epoch] at hstart
  have hnumber : x.number = yearStart x.year + (monthsLength x.year (x.month - 1) + (x.day - 1)) := rfl
  obtain ⟨hpos, hle, hday, hlen⟩ := hx
  have hyear : int32 ((tmOf x second).tm_year + YEAR0) = x.year := by
    simp only [tmOf, YEAR0]
    rw [Int.sub_add_cancel]
    exact int32_of_range (by omega) (by omega)
  have hlate : ¬(tmOf x second).tm_year < 1970 - YEAR0 := by
    simp only [tmOf, YEAR0]
    omega
  have hmon : (tmOf x second).tm_mon.toNat = x.month - 1 := by
    simp only [tmOf]
    omega
  have hdays : dayCount x.year + ((monthsLength x.year (x.month - 1) : ℕ) + ((tmOf x second).tm_mday - 1)) =
      ((x.number - 719528 : ℕ) : ℤ) := by
    rw [dayCount_eq hlo]
    simp only [tmOf]
    omega
  have htoday : ((tmOf x second).tm_hour * 60 + (tmOf x second).tm_min) * 60 + (tmOf x second).tm_sec = second := by
    simp only [tmOf]
    omega
  unfold mktime
  simp only [hrange.normal, if_neg hlate, hyear, LEAPYEAR_cast, hmon, sum_take_ytab (show x.month - 1 ≤ 12 by omega),
    hdays, htoday]
  rw [ite_self, secondsOf_eq (by omega) (by omega) (by omega) (by omega) (by omega) (by omega)]
  push_cast
  omega

end Mktime

/-! ## Both sides -/

/-- The fields show a date and a time of day. -/
structure Shows (tm : Tm) (x : Date) (hour minute second : ℕ) : Prop where
  sec : tm.tm_sec = second
  min : tm.tm_min = minute
  hour : tm.tm_hour = hour
  mday : tm.tm_mday = x.day
  mon : tm.tm_mon = x.month - 1
  year : tm.tm_year = x.year - 1900
  yday : tm.tm_yday = x.dayOfYear

section Both

variable {x : Date} {y hour minute second : ℕ}

theorem shows_tmOf (x : Date) (s : ℕ) : Shows (tmOf x s) x (s / 3600) (s % 3600 / 60) (s % 60) :=
  ⟨rfl, rfl, rfl, rfl, rfl, rfl, rfl⟩

/-- The fields of one date only. -/
theorem Shows.date_eq {tm : Tm} {x' : Date} {h m s : ℕ} (hx : x.Valid) (hx' : x'.Valid)
    (hs : Shows tm x hour minute second) (hs' : Shows tm x' h m s) : x = x' := by
  have hpos := hx.month_pos
  have hpos' := hx'.month_pos
  obtain ⟨y, m, d⟩ := x
  obtain ⟨y', m', d'⟩ := x'
  have hday := hs.mday.symm.trans hs'.mday
  have hmon := hs.mon.symm.trans hs'.mon
  have hyear := hs.year.symm.trans hs'.year
  simp only at *
  rw [show y = y' by omega, show m = m' by omega, show d = d' by omega]

theorem monthOffsets_eq {k : ℕ} (hk : k < 12) : monthOffsets.getD k 0 =
    (monthsLength y k : ℤ) - if IsLeap y ∧ 2 ≤ k then 1 else 0 := by
  by_cases hleap : IsLeap y
  · interval_cases k <;> simp [monthOffsets, monthsLength, monthLength, hleap]
  · interval_cases k <;> simp [monthOffsets, monthsLength, monthLength, hleap]

/-- The kernel's days before a year; in a leap year the leap day is among them. -/
theorem daysBefore_eq {y : ℕ} (hlo : 1970 ≤ y) (hhi : y ≤ 2099) :
    ((y : ℤ) - 1970) * 365 + ((y : ℤ) - 1970 + 2).tdiv 4 =
      (yearStart y : ℤ) - 719528 + if IsLeap y then 1 else 0 := by
  have hclosed : yearStart y + 15 = 365 * y + (y + 3) / 4 := by
    have hclosed := yearStart_eq y
    rcases Nat.lt_or_ge 2000 y with h | h
    · rw [show (y + 99) / 100 = 21 by omega, show (y + 399) / 400 = 6 by omega] at hclosed
      omega
    · rw [show (y + 99) / 100 = 20 by omega, show (y + 399) / 400 = 5 by omega] at hclosed
      omega
  rw [Int.tdiv_eq_ediv_of_nonneg (by omega)]
  by_cases hleap : IsLeap y
  · have hfour : y % 4 = 0 := hleap.1
    rw [if_pos hleap]
    omega
  · have hfour : y % 4 ≠ 0 := fun h => hleap ⟨h, by omega⟩
    rw [if_neg hleap]
    omega

/-- The kernel's day of the year. -/
theorem kernelDay_eq (hx : x.Valid) (hlo : 1970 ≤ x.year) (hhi : x.year ≤ 2099) :
    (if (x.year : ℤ).tmod 4 = 0 ∧ (x.month : ℤ) ≥ 3 then
      monthOffsets.getD ((x.month : ℤ) - 1).toNat 0 + ((x.day : ℤ) - 1) + 1
    else monthOffsets.getD ((x.month : ℤ) - 1).toNat 0 + ((x.day : ℤ) - 1)) = x.dayOfYear := by
  obtain ⟨hpos, hle, hday, -⟩ := hx
  have hindex : ((x.month : ℤ) - 1).toNat = x.month - 1 := by omega
  have hmod : (x.year : ℤ).tmod 4 = x.year % 4 := Int.tmod_eq_emod_of_nonneg (by omega)
  rw [hindex, hmod, monthOffsets_eq (by omega), Date.dayOfYear]
  by_cases hleap : IsLeap x.year
  · have hfour : x.year % 4 = 0 := hleap.1
    by_cases hmarch : 3 ≤ x.month
    · rw [if_pos (by omega), if_pos ⟨hleap, by omega⟩]
      omega
    · rw [if_neg (by omega), if_neg (by omega)]
      omega
  · have hfour : x.year % 4 ≠ 0 := fun h => hleap ⟨h, by omega⟩
    rw [if_neg (by omega), if_neg fun h => hleap h.1]
    omega

/-- The kernel counts a day too many in a leap year. -/
theorem makeUnixTime_eq (hx : x.Valid) (hlo : 1970 ≤ x.year) (hhi : x.year ≤ 2099) (hhour : hour < 24)
    (hminute : minute < 60) (hsecond : second < 60) :
    makeUnixTime x.year x.month x.day hour minute second =
      some (((x.number - 719528 + if IsLeap x.year then 1 else 0) * 86400 +
        (hour * 3600 + minute * 60 + second) : ℕ) : ℤ) := by
  have hstart := yearStart_mono hlo
  rw [yearStart_epoch] at hstart
  have hend : yearStart x.year ≤ yearStart 2099 := yearStart_mono hhi
  have hlast : yearStart 2099 ≤ 2 ^ 30 := by
    have := yearStart_eq 2099
    omega
  have hdays := daysBefore_eq hlo hhi
  have hkernel := kernelDay_eq hx hlo hhi
  have hyearDay := hx.dayOfYear_lt
  have hlength : yearLength x.year ≤ 366 := by
    unfold yearLength
    split <;> decide
  have hnumber : x.number = yearStart x.year + x.dayOfYear := rfl
  have hmonth : (1 : ℤ) ≤ x.month ∧ (x.month : ℤ) ≤ 12 := by
    obtain ⟨hpos, hle, -⟩ := hx
    omega
  have hcount : (x.number - 719528 + if IsLeap x.year then 1 else 0 : ℕ) =
      (((x.year : ℤ) - 1970) * 365 + ((x.year : ℤ) - 1970 + 2).tdiv 4) + x.dayOfYear := by
    rw [hdays, hnumber]
    split_ifs <;> omega
  unfold makeUnixTime SECONDS_PER_HOUR SECONDS_PER_MINUTE SECONDS_PER_DAY SECONDS_PER_NONLEAP_YEAR
  rw [if_pos hmonth]
  simp only [hkernel]
  generalize (x.number - 719528 + if IsLeap x.year then 1 else 0 : ℕ) = days at hcount ⊢
  generalize ((x.year : ℤ) - 1970 + 2).tdiv 4 = leaps at *
  rw [int64_of_range (by omega) (by omega)]
  congr 1
  omega

/-- `gmtime_r` of the kernel's time is the date, or in a leap year the next one. -/
theorem gmtime_r_makeUnixTime (hx : x.Valid) (hlo : 1970 ≤ x.year) (hhi : x.year ≤ 2099) (hhour : hour < 24)
    (hminute : minute < 60) (hsecond : second < 60) :
    (makeUnixTime x.year x.month x.day hour minute second).bind gmtime_r =
      some (tmOf (if IsLeap x.year then x.tomorrow else x) (hour * 3600 + minute * 60 + second)) := by
  have hstart := yearStart_mono hlo
  rw [yearStart_epoch] at hstart
  have hnumber : x.number = yearStart x.year + x.dayOfYear := rfl
  have hend := yearStart_mono (show x.year ≤ 2099 by omega)
  have hlast := yearStart_eq 2099
  have hyearDay := hx.dayOfYear_lt
  have hlength : yearLength x.year ≤ 366 := by
    unfold yearLength
    split <;> decide
  rw [makeUnixTime_eq hx hlo hhi hhour hminute hsecond, Option.bind_some]
  by_cases hleap : IsLeap x.year
  · rw [if_pos hleap, if_pos hleap, gmtime_r_eq (by omega)]
    have hday : ((x.number - 719528 + 1) * 86400 + (hour * 3600 + minute * 60 + second)) / 86400 =
        x.number - 719528 + 1 := by omega
    have hafter : epoch.after (x.number - 719528 + 1) = x.tomorrow :=
      Date.after_eq epoch_valid hx.tomorrow (by rw [hx.number_tomorrow, epoch_number]; omega)
    rw [hday, hafter]
    exact congrArg (fun s => some (tmOf _ s)) (by omega)
  · rw [if_neg hleap, if_neg hleap, gmtime_r_eq (by omega)]
    have hday : ((x.number - 719528 + 0) * 86400 + (hour * 3600 + minute * 60 + second)) / 86400 =
        x.number - 719528 := by omega
    have hafter : epoch.after (x.number - 719528) = x :=
      Date.after_eq epoch_valid hx (by rw [epoch_number]; omega)
    rw [hday, hafter]
    exact congrArg (fun s => some (tmOf _ s)) (by omega)

/-- `gmtime_r` of a time, and `mktime` back. -/
theorem mktime_gmtime_r {t : ℕ} (ht : t < 2 ^ 55) :
    gmtime_r t = some (tmOf (epoch.after (t / 86400)) (t % 86400)) ∧
      (mktime 0 0 (tmOf (epoch.after (t / 86400)) (t % 86400))).1 = t := by
  obtain ⟨hvalid, hnumber⟩ := epoch_valid.after (t / 86400)
  rw [epoch_number] at hnumber
  have hgm := gmtime_r_eq ht
  generalize epoch.after (t / 86400) = x at *
  have hyear : x.number = yearStart x.year + x.dayOfYear := rfl
  have hlo : 1970 ≤ x.year := by
    by_contra h
    have hstart := yearStart_mono (show x.year + 1 ≤ 1970 by omega)
    have hlt := hvalid.dayOfYear_lt
    rw [yearStart_epoch, yearStart] at hstart
    omega
  have hhi : x.year < 2 ^ 31 := by
    have hstart := yearStart_eq x.year
    omega
  refine ⟨hgm, (mktime_eq hvalid hlo hhi (Nat.mod_lt _ (by decide)) (by omega)).trans ?_⟩
  exact congrArg (fun n : ℕ => (n : ℤ)) (by omega)

/-- The library agrees with the calendar, and `gmtime_r` of the kernel's time is the date and the time if
and only if the year is not a leap year. -/
theorem calendar_agrees {x : Date} {hour minute second t : ℕ} (hx : x.Valid) (hlo : 1970 ≤ x.year)
    (hhi : x.year ≤ 2099) (hhour : hour < 24) (hminute : minute < 60) (hsecond : second < 60)
    (ht : t < 2 ^ 55) :
    ((∃ tm, (makeUnixTime x.year x.month x.day hour minute second).bind gmtime_r = some tm ∧
      Shows tm x hour minute second) ↔ ¬IsLeap x.year) ∧
    ∃ tm, gmtime_r t = some tm ∧
      Shows tm (epoch.after (t / 86400)) (t % 86400 / 3600) (t % 86400 % 3600 / 60) (t % 86400 % 60) ∧
      tm.tm_wday = (epoch.after (t / 86400)).weekday ∧ (mktime 0 0 tm).1 = t := by
  refine ⟨?_, ?_⟩
  · have hgm := gmtime_r_makeUnixTime hx hlo hhi hhour hminute hsecond
    rw [hgm]
    by_cases hleap : IsLeap x.year
    · rw [if_pos hleap]
      refine iff_of_false ?_ (not_not.2 hleap)
      rintro ⟨tm, htm, hshows⟩
      obtain rfl := Option.some.inj htm
      have hdate := hshows.date_eq hx hx.tomorrow (shows_tmOf _ _)
      have hnumber := hx.number_tomorrow
      rw [← hdate] at hnumber
      omega
    · rw [if_neg hleap]
      refine iff_of_true ⟨_, rfl, ?_⟩ hleap
      have hshows := shows_tmOf x (hour * 3600 + minute * 60 + second)
      rw [show (hour * 3600 + minute * 60 + second) / 3600 = hour by omega,
        show (hour * 3600 + minute * 60 + second) % 3600 / 60 = minute by omega,
        show (hour * 3600 + minute * 60 + second) % 60 = second by omega] at hshows
      exact hshows
  · obtain ⟨hgm, hmk⟩ := mktime_gmtime_r ht
    exact ⟨_, hgm, shows_tmOf _ _, rfl, hmk⟩

theorem calendar_agrees_2025 :
    ((∃ tm, (makeUnixTime 2025 6 15 12 30 59).bind gmtime_r = some tm ∧ Shows tm ⟨2025, 6, 15⟩ 12 30 59) ↔
      ¬IsLeap 2025) ∧
    ∃ tm, gmtime_r (1000000000 : ℕ) = some tm ∧
      Shows tm (epoch.after (1000000000 / 86400)) (1000000000 % 86400 / 3600) (1000000000 % 86400 % 3600 / 60)
        (1000000000 % 86400 % 60) ∧
      tm.tm_wday = (epoch.after (1000000000 / 86400)).weekday ∧ (mktime 0 0 tm).1 = (1000000000 : ℕ) :=
  @calendar_agrees ⟨2025, 6, 15⟩ 12 30 59 1000000000 ⟨by decide, by decide, by decide, by decide⟩
    (by decide) (by decide) (by decide) (by decide) (by decide) (by decide)

/-- The first of January 1972 is shown as the second. -/
theorem newYear_1972 : makeUnixTime 1972 1 1 0 0 0 = some 63158400 ∧
    (∃ tm, gmtime_r 63158400 = some tm ∧ tm.tm_mday = 2 ∧ tm.tm_yday = 1) ∧
      ¬∃ tm, (makeUnixTime 1972 1 1 0 0 0).bind gmtime_r = some tm ∧ Shows tm ⟨1972, 1, 1⟩ 0 0 0 := by
  have hkernel : makeUnixTime 1972 1 1 0 0 0 = some 63158400 := by decide
  have hvalid : (⟨1972, 1, 2⟩ : Date).Valid := ⟨by decide, by decide, by decide, by decide⟩
  have hstart : yearStart 1972 = 720258 := by
    have hclosed := yearStart_eq 1972
    omega
  have hday : (⟨1972, 1, 2⟩ : Date).dayOfYear = 1 := by decide
  have hnumber : (⟨1972, 1, 2⟩ : Date).number = 720259 := by rw [Date.number_mk, hstart, hday]
  have hafter : epoch.after 731 = ⟨1972, 1, 2⟩ :=
    Date.after_eq epoch_valid hvalid (by rw [hnumber, epoch_number])
  have hgm : gmtime_r 63158400 = some (tmOf ⟨1972, 1, 2⟩ 0) := by
    have hgm := @gmtime_r_eq 63158400 (by decide)
    rw [show 63158400 / 86400 = 731 from rfl, hafter] at hgm
    exact hgm
  refine ⟨hkernel, ⟨_, hgm, rfl, rfl⟩, ?_⟩
  rw [hkernel, Option.bind_some, hgm]
  rintro ⟨tm, htm, hshows⟩
  obtain rfl := Option.some.inj htm
  exact absurd hshows.mday (by decide)

end Both

end Glidix.Libc.Time
