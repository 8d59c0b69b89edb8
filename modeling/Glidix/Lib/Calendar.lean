import Mathlib.Logic.Function.Iterate
import Mathlib.Order.Monotone.Basic

/-!
# The Gregorian calendar

A date has a successor, `tomorrow`, and a number, which counts the days since the first day of year 0 of
the proleptic calendar.  The successor has the next number, and a date is known by its number.
-/

namespace Calendar

def IsLeap (y : ℕ) : Prop := y % 4 = 0 ∧ (y % 100 ≠ 0 ∨ y % 400 = 0)

instance (y : ℕ) : Decidable (IsLeap y) := inferInstanceAs (Decidable (_ ∧ _))

def yearLength (y : ℕ) : ℕ := if IsLeap y then 366 else 365

/-- The length of a month; January is 1. -/
def monthLength (y m : ℕ) : ℕ :=
  if m = 2 then if IsLeap y then 29 else 28 else if m = 4 ∨ m = 6 ∨ m = 9 ∨ m = 11 then 30 else 31

structure Date where
  year : ℕ
  month : ℕ
  day : ℕ
  deriving DecidableEq

structure Date.Valid (x : Date) : Prop where
  month_pos : 1 ≤ x.month
  month_le : x.month ≤ 12
  day_pos : 1 ≤ x.day
  day_le : x.day ≤ monthLength x.year x.month

def Date.tomorrow (x : Date) : Date :=
  if x.day < monthLength x.year x.month then ⟨x.year, x.month, x.day + 1⟩
  else if x.month < 12 then ⟨x.year, x.month + 1, 1⟩
  else ⟨x.year + 1, 1, 1⟩

/-! ## Counting days -/

/-- The days before the first of January. -/
def yearStart : ℕ → ℕ
  | 0 => 0
  | y + 1 => yearStart y + yearLength y

/-- The days of the year in its first months. -/
def monthsLength (y : ℕ) : ℕ → ℕ
  | 0 => 0
  | k + 1 => monthsLength y k + monthLength y (k + 1)

/-- The day of the year; the first one is 0. -/
def Date.dayOfYear (x : Date) : ℕ := monthsLength x.year (x.month - 1) + (x.day - 1)

def Date.number (x : Date) : ℕ := yearStart x.year + x.dayOfYear

theorem Date.number_mk (y m d : ℕ) : (⟨y, m, d⟩ : Date).number = yearStart y + (⟨y, m, d⟩ : Date).dayOfYear :=
  rfl

/-- The day of the week; Sunday is 0, and the first day of year 0 is a Saturday. -/
def Date.weekday (x : Date) : ℕ := (x.number + 6) % 7

/-- The number of days before a year without the sum over the years. -/
theorem yearStart_eq (y : ℕ) : yearStart y + (y + 99) / 100 = 365 * y + (y + 3) / 4 + (y + 399) / 400 := by
  induction y with
  | zero => rfl
  | succ y ih =>
    rw [yearStart, yearLength]
    by_cases hleap : IsLeap y
    · rw [if_pos hleap]
      unfold IsLeap at hleap
      omega
    · rw [if_neg hleap]
      unfold IsLeap at hleap
      omega

theorem yearStart_mono : Monotone yearStart :=
  monotone_nat_of_le_succ fun _ => Nat.le_add_right ..

section Cumulative

variable {f len : ℕ → ℕ} {a b r s : ℕ}

theorem cumulative_le (hf : ∀ n, f (n + 1) = f n + len n) (h : a < b) : f a + len a ≤ f b := by
  have hmono : Monotone f := monotone_nat_of_le_succ fun n => by rw [hf]; exact Nat.le_add_right ..
  rw [← hf]
  exact hmono h

/-- A sum of lengths and a rest that is smaller than the next length are known by their sum. -/
theorem cumulative_inj (hf : ∀ n, f (n + 1) = f n + len n) (hr : r < len a) (hs : s < len b)
    (h : f a + r = f b + s) : a = b ∧ r = s := by
  rcases Nat.lt_trichotomy a b with hlt | rfl | hlt
  · have := cumulative_le hf hlt
    omega
  · exact ⟨rfl, by omega⟩
  · have := cumulative_le hf hlt
    omega

end Cumulative

theorem monthLength_pos (y m : ℕ) : 0 < monthLength y m := by
  unfold monthLength
  split_ifs <;> decide

theorem yearLength_pos (y : ℕ) : 0 < yearLength y := by
  unfold yearLength
  split <;> decide

theorem monthsLength_twelve (y : ℕ) : monthsLength y 12 = yearLength y := by
  by_cases hleap : IsLeap y
  · simp [monthsLength, monthLength, yearLength, hleap]
  · simp [monthsLength, monthLength, yearLength, hleap]

variable {x y : Date}

theorem Date.Valid.dayOfYear_lt (hx : x.Valid) : x.dayOfYear < yearLength x.year := by
  obtain ⟨hpos, hle, hday, hlen⟩ := hx
  have hmonth : x.month - 1 + 1 = x.month := by omega
  rw [← monthsLength_twelve, dayOfYear]
  rcases Nat.eq_or_lt_of_le hle with h | h
  · have hlast : monthsLength x.year 12 = monthsLength x.year 11 + monthLength x.year 12 := rfl
    rw [h] at hlen ⊢
    rw [hlast]
    simp only [Nat.reduceSub]
    omega
  · have hcum := @cumulative_le (monthsLength x.year) (fun k => monthLength x.year (k + 1)) (x.month - 1) 12
      (fun _ => rfl) (by omega)
    simp only [hmonth] at hcum
    omega

/-- A date is known by its number. -/
theorem Date.number_injective (hx : x.Valid) (hy : y.Valid) (h : x.number = y.number) : x = y := by
  obtain ⟨hyear, hrest⟩ := cumulative_inj (fun _ => rfl) hx.dayOfYear_lt hy.dayOfYear_lt h
  obtain ⟨hpos, -, hday, hlen⟩ := hx
  obtain ⟨hpos', -, hday', hlen'⟩ := hy
  obtain ⟨yr, m, d⟩ := x
  obtain ⟨yr', m', d'⟩ := y
  obtain rfl : yr = yr' := hyear
  simp only [dayOfYear] at *
  have hm : m - 1 + 1 = m := by omega
  have hm' : m' - 1 + 1 = m' := by omega
  obtain ⟨hmonth, hrest⟩ := @cumulative_inj (monthsLength yr) (fun k => monthLength yr (k + 1)) (m - 1) (m' - 1)
    (d - 1) (d' - 1) (fun _ => rfl) (by simp only [hm]; omega) (by simp only [hm']; omega) hrest
  rw [show m = m' by omega, show d = d' by omega]

theorem Date.Valid.tomorrow (hx : x.Valid) : x.tomorrow.Valid := by
  obtain ⟨hpos, hle, hday, hlen⟩ := hx
  unfold Date.tomorrow
  split_ifs
  · exact ⟨hpos, hle, Nat.le_add_left 1 _, by assumption⟩
  · exact ⟨Nat.le_add_left 1 _, by assumption, le_rfl, monthLength_pos ..⟩
  · exact ⟨le_rfl, Nat.le_add_left 1 11, le_rfl, monthLength_pos ..⟩

theorem Date.Valid.number_tomorrow (hx : x.Valid) : x.tomorrow.number = x.number + 1 := by
  obtain ⟨hpos, hle, hday, hlen⟩ := hx
  obtain ⟨m, hm⟩ : ∃ m, x.month = m + 1 := ⟨x.month - 1, by omega⟩
  unfold Date.tomorrow
  split_ifs with hd hlast
  · simp only [number, dayOfYear]
    omega
  · simp only [number, dayOfYear, hm, Nat.add_sub_cancel, monthsLength]
    rw [hm] at hd hlen
    omega
  · have htwelve := monthsLength_twelve x.year
    have hlen11 : monthsLength x.year 12 = monthsLength x.year 11 + monthLength x.year 12 := rfl
    obtain rfl : m = 11 := by omega
    rw [hm] at hd hlen
    simp only [number, dayOfYear, yearStart, hm, Nat.add_sub_cancel, Nat.sub_self, monthsLength] at *
    omega

/-- The date some days later. -/
def Date.after (x : Date) (n : ℕ) : Date := Date.tomorrow^[n] x

theorem Date.Valid.after (hx : x.Valid) (n : ℕ) : (x.after n).Valid ∧ (x.after n).number = x.number + n := by
  induction n with
  | zero => exact ⟨hx, rfl⟩
  | succ n ih =>
    rw [Date.after, Function.iterate_succ_apply']
    exact ⟨ih.1.tomorrow, ih.1.number_tomorrow.trans (by rw [ih.2]; rfl)⟩

theorem Date.after_eq (hx : x.Valid) (hy : y.Valid) {n : ℕ} (h : y.number = x.number + n) : x.after n = y :=
  number_injective (hx.after n).1 hy ((hx.after n).2.trans h.symm)

end Calendar
