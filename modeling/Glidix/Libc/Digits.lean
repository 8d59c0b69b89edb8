import Mathlib.Data.List.TakeWhile
import Mathlib.Data.Nat.Notation

/-!
# Numbers in a string

The conversions of the C library that read an integer share a grammar: white space, a sign, a prefix that stands
for the base, and digits.  `subject` is the number at the start of a string as the C standard has it; `digitsLoop`
is the loop over the digits that the library has, with its test for values that are too great.
-/

namespace Glidix.Libc

/-! ## Characters -/

def isspace (c : UInt8) : Bool := [0x20, 0x09, 0x0B, 0x0C, 0x0D, 0x0A].contains c

abbrev PLUS : UInt8 := 0x2B
abbrev MINUS : UInt8 := 0x2D
abbrev ZERO : UInt8 := 0x30
abbrev UPPER_X : UInt8 := 0x58
abbrev LOWER_X : UInt8 := 0x78

/-- The value of a digit or of a letter. -/
def digitOf (c : UInt8) : Option ℕ :=
  if 0x30 ≤ c ∧ c ≤ 0x39 then some (c.toNat - 0x30)
  else if 0x61 ≤ c ∧ c ≤ 0x7A then some (10 + c.toNat - 0x61)
  else if 0x41 ≤ c ∧ c ≤ 0x5A then some (10 + c.toNat - 0x41)
  else none

def isDigit (radix : ℕ) (c : UInt8) : Bool := (digitOf c).any (· < radix)

/-! ## The loop over the digits -/

/-- What is left of the string, and the value unless it is greater than `limit`. -/
def digitsLoop (limit base : ℕ) : ℕ → List UInt8 → Option ℕ × List UInt8
  | out, [] => (some out, [])
  | out, c :: str =>
    match digitOf c with
    | none => (some out, c :: str)
    | some digit =>
      if base ≤ digit then (some out, c :: str)
      else if (limit - digit) / base < out then (none, c :: str)
      else digitsLoop limit base (out * base + digit) str

/-! ## The number at the start of a string -/

/-- The value of digits behind a number. -/
def valueFrom (radix : ℕ) (out : ℕ) (digits : List UInt8) : ℕ :=
  digits.foldl (fun value c => value * radix + (digitOf c).getD 0) out

def splitSign : List UInt8 → Option UInt8 × List UInt8
  | c :: s => if c = PLUS ∨ c = MINUS then (some c, s) else (none, c :: s)
  | [] => (none, [])

/-- The string begins with a hexadecimal digit. -/
def hexHead (s : List UInt8) : Bool := s.head?.any (isDigit 16)

/-- The base of the digits, and where they start: a prefix counts when a hexadecimal digit follows it. -/
def radixOf (base : ℕ) : List UInt8 → ℕ × List UInt8
  | c :: x :: u =>
    if (base = 0 ∨ base = 16) ∧ c = ZERO ∧ (x = LOWER_X ∨ x = UPPER_X) ∧ hexHead u then (16, u)
    else (if base = 0 then (if c = ZERO then 8 else 10) else base, c :: x :: u)
  | t => (if base = 0 then (if t.head? = some ZERO then 8 else 10) else base, t)

structure Numeral where
  sign : Option UInt8
  value : ℕ
  rest : List UInt8

/-- What stands behind the white space at the start. -/
abbrev trimmed (s : List UInt8) : List UInt8 := s.dropWhile isspace

/-- The number at the start of a string, if it has a digit. -/
def subject (base : ℕ) (s : List UInt8) : Option Numeral :=
  let (sign, t) := splitSign (trimmed s)
  let (radix, u) := radixOf base t
  let digits := u.takeWhile (isDigit radix)
  if digits = [] then none
  else some { sign, value := valueFrom radix 0 digits, rest := u.dropWhile (isDigit radix) }

section Loop

variable {limit base out digit : ℕ} {c : UInt8} {s : List UInt8}

theorem isDigit_iff : isDigit base c = true ↔ ∃ digit, digitOf c = some digit ∧ digit < base := by
  simp [isDigit, Option.any_eq_true]

theorem le_valueFrom (hb : 0 < base) (out : ℕ) (s : List UInt8) : out ≤ valueFrom base out s := by
  induction s generalizing out with
  | nil => exact Nat.le_refl _
  | cons c s ih =>
    have hmul : out ≤ out * base := Nat.le_mul_of_pos_right out hb
    exact (hmul.trans (Nat.le_add_right _ _)).trans (ih _)

theorem digitsLoop_digit (hc : digitOf c = some digit) : digitsLoop limit base out (c :: s) =
    if base ≤ digit then (some out, c :: s)
    else if (limit - digit) / base < out then (none, c :: s)
    else digitsLoop limit base (out * base + digit) s := by
  rw [digitsLoop, hc]

theorem digitsLoop_stop (h : isDigit base c = false) :
    digitsLoop limit base out (c :: s) = (some out, c :: s) := by
  cases hc : digitOf c with
  | none => rw [digitsLoop, hc]
  | some digit =>
    have hle : base ≤ digit := by simpa [isDigit, hc] using h
    rw [digitsLoop_digit hc, if_pos hle]

theorem digitsLoop_none (h : s.head?.any (isDigit base) = false) :
    digitsLoop limit base out s = (some out, s) := by
  cases s with
  | nil => rfl
  | cons c s => exact digitsLoop_stop h

theorem takeWhile_eq_nil_iff {p : UInt8 → Bool} : s.takeWhile p = [] ↔ s.head?.any p = false := by
  cases s with
  | nil => exact iff_of_true rfl rfl
  | cons c s => cases h : p c <;> simp [h]

/-- The test before a digit is added tells whether the value fits. -/
theorem digitsLoop_step (hc : digitOf c = some digit) (hd : digit < base) (hb : base ≤ limit) :
    digitsLoop limit base out (c :: s) =
      if limit < out * base + digit then (none, c :: s)
      else digitsLoop limit base (out * base + digit) s := by
  have htest : (limit - digit) / base < out ↔ limit < out * base + digit := by
    rw [Nat.div_lt_iff_lt_mul (by omega)]
    omega
  rw [digitsLoop_digit hc, if_neg (by omega)]
  simp only [htest]

theorem length_digitsLoop_le (limit base out : ℕ) (s : List UInt8) :
    (digitsLoop limit base out s).2.length ≤ s.length := by
  fun_induction digitsLoop limit base out s with
  | case1 => exact Nat.le_refl _
  | case2 => exact Nat.le_refl _
  | case3 => exact Nat.le_refl _
  | case4 => exact Nat.le_refl _
  | case5 out c str digit hc hlt hfit ih => exact Nat.le_succ_of_le ih

/-- The loop reads the first digit, which always fits. -/
theorem length_digitsLoop_lt (hb : base ≤ limit) :
    (digitsLoop limit base 0 s).2.length < s.length ↔ s.head?.any (isDigit base) = true := by
  cases s with
  | nil => exact iff_of_false (Nat.lt_irrefl 0) Bool.false_ne_true
  | cons c s =>
    cases hc : isDigit base c with
    | false => simp [digitsLoop_stop hc, hc]
    | true =>
      obtain ⟨digit, hdigit, hlt⟩ := isDigit_iff.1 hc
      have hle := length_digitsLoop_le limit base (0 * base + digit) s
      rw [digitsLoop_step hdigit hlt hb, if_neg (by omega)]
      exact iff_of_true (Nat.lt_succ_of_le hle) hc

/-- The loop reads all the digits when their value fits. -/
theorem digitsLoop_of_le (hb : base ≤ limit)
    (h : valueFrom base out (s.takeWhile (isDigit base)) ≤ limit) :
    digitsLoop limit base out s =
      (some (valueFrom base out (s.takeWhile (isDigit base))), s.dropWhile (isDigit base)) := by
  induction s generalizing out with
  | nil => rfl
  | cons c s ih =>
    cases hc : isDigit base c with
    | false =>
      rw [digitsLoop_stop hc, List.takeWhile_cons_of_neg (by simp [hc]),
        List.dropWhile_cons_of_neg (by simp [hc])]
      rfl
    | true =>
      obtain ⟨digit, hdigit, hlt⟩ := isDigit_iff.1 hc
      rw [List.takeWhile_cons_of_pos hc] at h ⊢
      have hfrom : valueFrom base out (c :: s.takeWhile (isDigit base)) =
          valueFrom base (out * base + digit) (s.takeWhile (isDigit base)) := by
        simp [valueFrom, hdigit]
      rw [hfrom] at h ⊢
      have hle := (le_valueFrom (by omega) _ _).trans h
      rw [digitsLoop_step hdigit hlt hb, if_neg (by omega), ih h, List.dropWhile_cons_of_pos hc]

/-- It stops before a digit when the value does not fit. -/
theorem digitsLoop_of_lt (hb : base ≤ limit) (hout : out ≤ limit)
    (h : limit < valueFrom base out (s.takeWhile (isDigit base))) :
    ∃ c rest, digitsLoop limit base out s = (none, c :: rest) ∧ isDigit base c = true := by
  induction s generalizing out with
  | nil => exact absurd h (by simpa [valueFrom] using hout)
  | cons c s ih =>
    cases hc : isDigit base c with
    | false =>
      rw [List.takeWhile_cons_of_neg (by simp [hc])] at h
      exact absurd h (by simpa [valueFrom] using hout)
    | true =>
      obtain ⟨digit, hdigit, hlt⟩ := isDigit_iff.1 hc
      have hfrom : valueFrom base out (c :: s.takeWhile (isDigit base)) =
          valueFrom base (out * base + digit) (s.takeWhile (isDigit base)) := by
        simp [valueFrom, hdigit]
      rw [List.takeWhile_cons_of_pos hc, hfrom] at h
      rw [digitsLoop_step hdigit hlt hb]
      by_cases hgt : limit < out * base + digit
      · rw [if_pos hgt]
        exact ⟨c, s, rfl, hc⟩
      · rw [if_neg hgt]
        exact ih (by omega) h

/-- Leading zeros are read over. -/
theorem digitsLoop_zero (hb : 0 < base) :
    digitsLoop limit base 0 (ZERO :: s) = digitsLoop limit base 0 s := by
  have hzero : digitOf ZERO = some 0 := by decide
  rw [digitsLoop_digit hzero, if_neg (by omega), if_neg (Nat.not_lt_zero _), Nat.zero_mul]

end Loop

end Glidix.Libc
