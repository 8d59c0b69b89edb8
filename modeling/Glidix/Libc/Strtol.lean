import Mathlib.Tactic.Common
import Glidix.Libc.Digits

/-!
# The string to integer functions

`strtoll` and `strtoimax` read a sign, `strtoull` and `strtoumax` do not.  All four read a prefix only when the
base is 0, and stop before the digit with which the value becomes too great.  A string is the list of its bytes
before the terminating 0, and what is left of it stands for the end pointer.
-/

namespace Glidix.Libc

inductive Errno
  | EINVAL
  | ERANGE
  deriving DecidableEq

def LLONG_MAX : ℕ := 9223372036854775807
def LLONG_MIN : ℤ := -9223372036854775808
def INTMAX_MAX : ℕ := 9223372036854775807
def ULLONG_MAX : ℕ := 18446744073709551615
def UINTMAX_MAX : ℕ := 18446744073709551615

/-- What a function returns, what `*str_end` is left at, and what it sets `errno` to, if anything. -/
structure StrtoResult where
  value : ℤ
  strEnd : List UInt8
  errno : Option Errno
  deriving DecidableEq

/-- The base of the digits, and where the functions look for them. -/
def prefixOf (base : ℕ) (str : List UInt8) : ℕ × List UInt8 :=
  if base = 0 then
    match str with
    | [] => (10, [])
    | c :: str =>
      if c = ZERO then
        match str with
        | [] => (8, [])
        | x :: u => if x = LOWER_X then (16, u) else (8, x :: u)
      else (10, c :: str)
  else (base, str)

/-- `strtoll` and `strtoimax`, with the greatest value of their type. -/
def strtoSigned (limit : ℕ) (str : List UInt8) (base : ℕ) : StrtoResult :=
  if (base < 2 ∨ 36 < base) ∧ base ≠ 0 then ⟨0, str, some .EINVAL⟩
  else
    let (sign, str) := splitSign (str.dropWhile isspace)
    let (llbase, str) := prefixOf base str
    match digitsLoop limit llbase 0 str with
    | (none, str) => ⟨if sign = some MINUS then LLONG_MIN else LLONG_MAX, str, some .ERANGE⟩
    | (some out, str) => ⟨if sign = some MINUS then -(out : ℤ) else out, str, none⟩

/-- `strtoull` and `strtoumax`, with the greatest value of their type. -/
def strtoUnsigned (limit : ℕ) (str : List UInt8) (base : ℕ) : StrtoResult :=
  if (base < 2 ∨ 36 < base) ∧ base ≠ 0 then ⟨0, str, some .EINVAL⟩
  else
    let (llbase, str) := prefixOf base (str.dropWhile isspace)
    match digitsLoop limit llbase 0 str with
    | (none, str) => ⟨ULLONG_MAX, str, some .ERANGE⟩
    | (some out, str) => ⟨out, str, none⟩

def strtoll : List UInt8 → ℕ → StrtoResult := strtoSigned LLONG_MAX
def strtoimax : List UInt8 → ℕ → StrtoResult := strtoSigned INTMAX_MAX
def strtoull : List UInt8 → ℕ → StrtoResult := strtoUnsigned ULLONG_MAX
def strtoumax : List UInt8 → ℕ → StrtoResult := strtoUnsigned UINTMAX_MAX

/-! ## The C standard -/

/-- The bases that the functions take. -/
def ValidBase (base : ℕ) : Prop := base = 0 ∨ 2 ≤ base ∧ base ≤ 36

def Numeral.signed (n : Numeral) : ℤ := if n.sign = some MINUS then -(n.value : ℤ) else n.value

/-- What the C standard says about the conversion to a signed type of 64 bits. -/
def isoSigned (s : List UInt8) (base : ℕ) : StrtoResult :=
  match subject base s with
  | none => ⟨0, s, none⟩
  | some n =>
    if n.signed < LLONG_MIN then ⟨LLONG_MIN, n.rest, some .ERANGE⟩
    else if LLONG_MAX < n.signed then ⟨LLONG_MAX, n.rest, some .ERANGE⟩
    else ⟨n.signed, n.rest, none⟩

/-- What the C standard says about the conversion to an unsigned type of 64 bits. -/
def isoUnsigned (s : List UInt8) (base : ℕ) : StrtoResult :=
  match subject base s with
  | none => ⟨0, s, none⟩
  | some n =>
    if ULLONG_MAX < n.value then ⟨ULLONG_MAX, n.rest, some .ERANGE⟩
    else ⟨n.signed % (ULLONG_MAX + 1), n.rest, none⟩

/-- All four functions do what the C standard says. -/
def StrtoRight (s : List UInt8) (base : ℕ) : Prop :=
  strtoll s base = isoSigned s base ∧ strtoimax s base = isoSigned s base ∧
    strtoull s base = isoUnsigned s base ∧ strtoumax s base = isoUnsigned s base

/-! ## Prefixes -/

/-- The prefix is one that the functions read: none with base 16, and with base 0 a small `x` that a hexadecimal
digit follows. -/
def PrefixRead (base : ℕ) : List UInt8 → Prop
  | c :: x :: u => c = ZERO →
    (base = 16 → ¬ ((x = LOWER_X ∨ x = UPPER_X) ∧ hexHead u)) ∧
      (base = 0 → (x = LOWER_X → hexHead u) ∧ (x = UPPER_X → ¬ hexHead u))
  | _ => True

section Prefixes

variable {limit base : ℕ} {c x : UInt8} {s t u : List UInt8}

/-- The digits of the number at the start of a string. -/
def digitsOf (base : ℕ) (t : List UInt8) : List UInt8 := (radixOf base t).2.takeWhile (isDigit (radixOf base t).1)

/-- What stands behind them. -/
def behind (base : ℕ) (t : List UInt8) : List UInt8 := (radixOf base t).2.dropWhile (isDigit (radixOf base t).1)

theorem hexHead_cons : hexHead (c :: u) = isDigit 16 c := rfl

theorem prefixOf_of_ne (h : base ≠ 0) : prefixOf base t = (base, t) := if_neg h

theorem length_dropWhile_le (p : UInt8 → Bool) (l : List UInt8) : (l.dropWhile p).length ≤ l.length :=
  (List.dropWhile_suffix p).length_le

theorem cons_ne_dropWhile {p : UInt8 → Bool} : c :: s ≠ s.dropWhile p := by
  intro heq
  have hle := length_dropWhile_le p s
  rw [← heq, List.length_cons] at hle
  omega

/-- With any base but 0 the digits start at once. -/
theorem radixOf_of_ne (hb : base ≠ 0) (h : PrefixRead base t) : radixOf base t = (base, t) := by
  match t with
  | [] => simp [radixOf, hb]
  | [c] => simp [radixOf, hb]
  | c :: x :: u =>
    have hno : ¬ ((base = 0 ∨ base = 16) ∧ c = ZERO ∧ (x = LOWER_X ∨ x = UPPER_X) ∧ hexHead u = true) := by
      rintro ⟨hbase, hc, hx, hhex⟩
      exact (h hc).1 (hbase.resolve_left hb) ⟨hx, hhex⟩
    rw [radixOf, if_neg hno, if_neg hb]

/-- With a prefix that the functions read they find the digits that the standard says. -/
theorem digitsLoop_prefixOf (h : PrefixRead base t) :
    digitsLoop limit (prefixOf base t).1 0 (prefixOf base t).2 =
      digitsLoop limit (radixOf base t).1 0 (radixOf base t).2 := by
  by_cases hb : base = 0
  · subst hb
    match t with
    | [] => rfl
    | [c] =>
      by_cases hc : c = ZERO
      · subst hc
        exact (digitsLoop_zero (s := []) (by decide)).symm
      · simp [prefixOf, radixOf, hc]
    | c :: x :: u =>
      by_cases hc : c = ZERO
      · subst hc
        have hx := (h rfl).2 rfl
        by_cases hlow : x = LOWER_X
        · subst hlow
          simp [prefixOf, radixOf, hx.1 rfl]
        · have hup : ¬ (x = UPPER_X ∧ hexHead u = true) := fun hup => hx.2 hup.1 hup.2
          simp only [prefixOf, radixOf, if_true, hlow, false_or, hup, and_false, if_false]
          exact (digitsLoop_zero (by decide)).symm
      · simp [prefixOf, radixOf, hc]
  · rw [prefixOf_of_ne hb, radixOf_of_ne hb h]

/-- With any other prefix they stop elsewhere, and with base 16 at the letter of the prefix. -/
theorem digitsLoop_prefixOf_ne (limit : ℕ) (h : ¬ PrefixRead base t) :
    digitsOf base t ≠ [] ∧ ∃ out rest,
      digitsLoop limit (prefixOf base t).1 0 (prefixOf base t).2 = (some out, rest) ∧ rest ≠ behind base t ∧
        (base ≠ 0 → rest.head? ≠ some 0xFF) := by
  have hlowDigit : isDigit 16 LOWER_X = false ∧ isDigit 8 LOWER_X = false := by decide
  have hupDigit : isDigit 16 UPPER_X = false ∧ isDigit 8 UPPER_X = false := by decide
  match t with
  | [] => exact absurd trivial h
  | [c] => exact absurd trivial h
  | c :: x :: u =>
    simp only [PrefixRead, Classical.not_imp] at h
    obtain ⟨rfl, h⟩ := h
    by_cases h16 : base = 16 ∧ (x = LOWER_X ∨ x = UPPER_X) ∧ hexHead u = true
    · obtain ⟨rfl, hx, hhex⟩ := h16
      have hradix : radixOf 16 (ZERO :: x :: u) = (16, u) := if_pos ⟨Or.inr rfl, rfl, hx, hhex⟩
      have hstop : isDigit 16 x = false := by
        rcases hx with rfl | rfl
        · exact hlowDigit.1
        · exact hupDigit.1
      refine ⟨?_, 0, x :: u, ?_, ?_, fun _ => ?_⟩
      · rw [digitsOf, hradix]
        exact fun hnil => Bool.false_ne_true ((takeWhile_eq_nil_iff.1 hnil).symm.trans hhex)
      · rw [prefixOf_of_ne (by decide)]
        dsimp only
        rw [digitsLoop_zero (by decide), digitsLoop_stop hstop]
      · rw [behind, hradix]
        exact cons_ne_dropWhile
      · rcases hx with rfl | rfl <;> simp +decide
    · have hbase : base = 0 := by
        by_contra hne
        exact h ⟨fun h16' hx => h16 ⟨h16', hx⟩, fun h0 => absurd h0 hne⟩
      subst hbase
      by_cases hlow : x = LOWER_X
      · subst hlow
        have hhex : hexHead u = false := by
          by_contra hne
          refine h ⟨fun h0 => absurd h0 (by decide), fun _ => ⟨fun _ => Bool.not_eq_false _ ▸ hne, ?_⟩⟩
          exact fun hup => absurd hup (by decide)
        have hradix : radixOf 0 (ZERO :: LOWER_X :: u) = (8, ZERO :: LOWER_X :: u) := by
          simp [radixOf, hhex]
        have hzero : isDigit 8 ZERO = true := by decide
        refine ⟨?_, 0, u, ?_, ?_, fun h0 => absurd rfl h0⟩
        · rw [digitsOf, hradix, List.takeWhile_cons_of_pos hzero]
          exact List.cons_ne_nil _ _
        · exact digitsLoop_none hhex
        · rw [behind, hradix, List.dropWhile_cons_of_pos hzero,
            List.dropWhile_cons_of_neg (by rw [hlowDigit.2]; decide)]
          exact (List.cons_ne_self _ _).symm
      · have hup : x = UPPER_X ∧ hexHead u = true := by
          by_contra hne
          exact h ⟨fun h0 => absurd h0 (by decide),
            fun _ => ⟨fun hx => absurd hx hlow, fun hx hhex => hne ⟨hx, hhex⟩⟩⟩
        obtain ⟨rfl, hhex⟩ := hup
        have hradix : radixOf 0 (ZERO :: UPPER_X :: u) = (16, u) := if_pos ⟨Or.inl rfl, rfl, Or.inr rfl, hhex⟩
        refine ⟨?_, 0, UPPER_X :: u, ?_, ?_, fun h0 => absurd rfl h0⟩
        · rw [digitsOf, hradix]
          exact fun hnil => Bool.false_ne_true ((takeWhile_eq_nil_iff.1 hnil).symm.trans hhex)
        · exact digitsLoop_stop hupDigit.2
        · rw [behind, hradix]
          exact cons_ne_dropWhile

theorem radixOf_bounds (hb : ValidBase base) (t : List UInt8) :
    2 ≤ (radixOf base t).1 ∧ (radixOf base t).1 ≤ 36 := by
  have hradix : 2 ≤ (if base = 0 then 10 else base) ∧ (if base = 0 then 10 else base) ≤ 36 ∧
      2 ≤ (if base = 0 then 8 else base) ∧ (if base = 0 then 8 else base) ≤ 36 := by
    rcases hb with rfl | hb
    · decide
    · have hne : base ≠ 0 := by omega
      simp only [if_neg hne]
      exact ⟨hb.1, hb.2, hb.1, hb.2⟩
  unfold radixOf
  split
  · split
    · dsimp only
      decide
    · split_ifs at hradix ⊢ <;> exact ⟨by omega, by omega⟩
  · split_ifs at hradix ⊢ <;> exact ⟨by omega, by omega⟩

/-- What the loop over the digits does when there are none. -/
theorem prefixLoop_none (limit : ℕ) (h : digitsOf base t = []) :
    digitsLoop limit (prefixOf base t).1 0 (prefixOf base t).2 = (some 0, t) := by
  have hread : PrefixRead base t := by
    by_contra hno
    exact (digitsLoop_prefixOf_ne 0 hno).1 h
  have hsame : (radixOf base t).2 = t := by
    unfold digitsOf at h
    unfold radixOf at h ⊢
    split
    · split
      · next hhex =>
        dsimp only at h
        rw [if_pos hhex] at h
        exact absurd ((takeWhile_eq_nil_iff.1 h).symm.trans hhex.2.2.2) Bool.false_ne_true
      · rfl
    · rfl
  rw [digitsLoop_prefixOf hread, digitsLoop_none (takeWhile_eq_nil_iff.1 h), hsame]

/-- What it does when their value fits. -/
theorem prefixLoop_some (hb : ValidBase base) (hlimit : 36 ≤ limit) (h : PrefixRead base t)
    (hle : valueFrom (radixOf base t).1 0 (digitsOf base t) ≤ limit) :
    digitsLoop limit (prefixOf base t).1 0 (prefixOf base t).2 =
      (some (valueFrom (radixOf base t).1 0 (digitsOf base t)), behind base t) := by
  have hradix := radixOf_bounds hb t
  rw [digitsLoop_prefixOf h, digitsLoop_of_le (by omega) hle]
  rfl

/-- It stops before a digit when their value does not fit. -/
theorem prefixLoop_gt (hb : ValidBase base) (hlimit : 36 ≤ limit) (h : PrefixRead base t)
    (hgt : limit < valueFrom (radixOf base t).1 0 (digitsOf base t)) :
    ∃ c rest, digitsLoop limit (prefixOf base t).1 0 (prefixOf base t).2 = (none, c :: rest) ∧
      c ≠ 0xFF ∧ c :: rest ≠ behind base t := by
  have hradix := radixOf_bounds hb t
  obtain ⟨c, rest, hloop, hc⟩ := digitsLoop_of_lt (by omega) (Nat.zero_le _) hgt
  refine ⟨c, rest, by rw [digitsLoop_prefixOf h, hloop], ?_, fun heq => ?_⟩
  · rintro rfl
    exact absurd hc (by simp [isDigit, show digitOf 0xFF = none by decide])
  · have hhead := List.head?_dropWhile_not (isDigit (radixOf base t).1) (radixOf base t).2
    rw [behind] at heq
    rw [← heq] at hhead
    simp [hc] at hhead

/-- Otherwise it does not stop behind them. -/
theorem prefixLoop_ne (hb : ValidBase base) (hlimit : 36 ≤ limit)
    (h : ¬ (PrefixRead base t ∧ valueFrom (radixOf base t).1 0 (digitsOf base t) ≤ limit)) :
    (digitsLoop limit (prefixOf base t).1 0 (prefixOf base t).2).2 ≠ behind base t ∧
      (base ≠ 0 → (digitsLoop limit (prefixOf base t).1 0 (prefixOf base t).2).2.head? ≠ some 0xFF) := by
  by_cases hread : PrefixRead base t
  · have hgt : limit < valueFrom (radixOf base t).1 0 (digitsOf base t) := by
      by_contra hle
      exact h ⟨hread, Nat.le_of_not_lt hle⟩
    obtain ⟨c, rest, hloop, heof, hne⟩ := prefixLoop_gt hb hlimit hread hgt
    rw [hloop]
    exact ⟨hne, fun _ heq => heof (Option.some.inj heq)⟩
  · obtain ⟨-, out, rest, hloop, hne, heof⟩ := digitsLoop_prefixOf_ne limit hread
    rw [hloop]
    exact ⟨hne, heof⟩

theorem length_behind_le (base : ℕ) (t : List UInt8) : (behind base t).length ≤ t.length := by
  have hle : (radixOf base t).2.length ≤ t.length := by
    unfold radixOf
    split
    · split
      · simp only [List.length_cons]
        omega
      · exact Nat.le_refl _
    · exact Nat.le_refl _
  exact (length_dropWhile_le _ _).trans hle

theorem length_prefixOf_le (base : ℕ) (t : List UInt8) : (prefixOf base t).2.length ≤ t.length := by
  unfold prefixOf
  split
  · split
    · exact Nat.le_refl _
    · split_ifs
      · split
        · simp
        · split_ifs <;> simp only [List.length_cons] <;> omega
      · exact Nat.le_refl _
  · exact Nat.le_refl _

/-- A zero is a digit. -/
theorem digitsOf_zero (u : List UInt8) : digitsOf 0 (ZERO :: u) ≠ [] := by
  have hzero : isDigit 8 ZERO = true := by decide
  rw [digitsOf]
  unfold radixOf
  split
  · next c x w heq =>
    obtain ⟨rfl, -⟩ := List.cons.inj heq
    split
    · next h =>
      exact fun hnil => Bool.false_ne_true ((takeWhile_eq_nil_iff.1 hnil).symm.trans h.2.2.2)
    · simp [hzero]
  · simp [hzero]

theorem digitsOf_of_none (hnone : digitOf c = none) : digitsOf base (c :: u) = [] := by
  have hzero : c ≠ ZERO := by
    rintro rfl
    exact absurd hnone (by decide)
  have hsame : (radixOf base (c :: u)).2 = c :: u := by
    cases u <;> simp [radixOf, hzero]
  rw [digitsOf, hsame, List.takeWhile_cons_of_neg]
  simp [isDigit, hnone]

/-- A sign is no digit. -/
theorem digitsOf_sign (hc : c = PLUS ∨ c = MINUS) : digitsOf base (c :: u) = [] := by
  apply digitsOf_of_none
  rcases hc with rfl | rfl <;> decide

theorem subject_eq (base : ℕ) (s : List UInt8) : subject base s =
    if digitsOf base (splitSign (trimmed s)).2 = [] then none
    else some {
      sign := (splitSign (trimmed s)).1
      value := valueFrom (radixOf base (splitSign (trimmed s)).2).1 0 (digitsOf base (splitSign (trimmed s)).2)
      rest := behind base (splitSign (trimmed s)).2 } := rfl

end Prefixes

/-! ## The functions -/

section Functions

variable {base limit : ℕ} {s : List UInt8}

/-- The string begins with the number itself, or there is none. -/
def Unspaced (s : List UInt8) : Prop := trimmed s = s ∧ (splitSign s).1 = none

/-- The strings on which the signed functions are right. -/
def SignedFits (base : ℕ) (s : List UInt8) : Prop :=
  match subject base s with
  | none => Unspaced s
  | some n => PrefixRead base (splitSign (trimmed s)).2 ∧ n.value ≤ LLONG_MAX

/-- The strings on which the unsigned functions are right. -/
def UnsignedFits (base : ℕ) (s : List UInt8) : Prop :=
  match subject base s with
  | none => trimmed s = s
  | some n => n.sign = none ∧ PrefixRead base (trimmed s) ∧ n.value ≤ ULLONG_MAX

theorem length_splitSign (s : List UInt8) :
    (splitSign s).1 = none ∧ (splitSign s).2 = s ∨
      (∃ c, (splitSign s).1 = some c ∧ s = c :: (splitSign s).2 ∧ (c = PLUS ∨ c = MINUS)) := by
  match s with
  | [] => exact Or.inl ⟨rfl, rfl⟩
  | c :: s =>
    by_cases hc : c = PLUS ∨ c = MINUS
    · refine Or.inr ⟨c, ?_, ?_, hc⟩ <;> simp [splitSign, hc]
    · refine Or.inl ⟨?_, ?_⟩ <;> simp [splitSign, hc]

theorem unspaced_iff : (splitSign (trimmed s)).2 = s ↔ Unspaced s := by
  have hle : (trimmed s).length ≤ s.length := length_dropWhile_le isspace s
  rcases length_splitSign (trimmed s) with ⟨hnone, heq⟩ | ⟨c, hsome, heq, -⟩
  · rw [heq]
    refine ⟨fun h => ⟨h, ?_⟩, fun h => h.1⟩
    rwa [h] at hnone
  · refine iff_of_false (fun h => ?_) (fun h => ?_)
    · have hlen := congrArg List.length heq
      rw [h, List.length_cons] at hlen
      omega
    · rw [h.1, h.2] at hsome
      exact Option.some_ne_none c hsome.symm

theorem strtoSigned_iff (hb : ValidBase base) :
    strtoSigned LLONG_MAX s base = isoSigned s base ↔ SignedFits base s := by
  have hvalid : ¬ ((base < 2 ∨ 36 < base) ∧ base ≠ 0) := by
    unfold ValidBase at hb
    omega
  have hend : (strtoSigned LLONG_MAX s base).strEnd = (digitsLoop LLONG_MAX
      (prefixOf base (splitSign (trimmed s)).2).1 0 (prefixOf base (splitSign (trimmed s)).2).2).2 := by
    rw [strtoSigned, if_neg hvalid]
    dsimp only
    split <;> next heq => rw [heq]
  rw [isoSigned, SignedFits, subject_eq]
  by_cases hdigits : digitsOf base (splitSign (trimmed s)).2 = []
  · rw [if_pos hdigits]
    dsimp only
    have hloop := prefixLoop_none LLONG_MAX hdigits
    have hresult : strtoSigned LLONG_MAX s base = ⟨0, (splitSign (trimmed s)).2, none⟩ := by
      rw [strtoSigned, if_neg hvalid]
      dsimp only
      rw [hloop]
      simp
    rw [hresult, StrtoResult.mk.injEq]
    exact ⟨fun h => unspaced_iff.1 h.2.1, fun h => ⟨rfl, unspaced_iff.2 h, rfl⟩⟩
  · rw [if_neg hdigits]
    dsimp only
    refine ⟨fun heq => ?_, fun hfit => ?_⟩
    · by_contra hfit
      apply (prefixLoop_ne hb (by decide) hfit).1
      rw [← hend, heq]
      split_ifs <;> rfl
    · have hloop := prefixLoop_some hb (by decide) hfit.1 hfit.2
      rw [strtoSigned, if_neg hvalid]
      dsimp only
      rw [hloop]
      have hle := hfit.2
      simp only [Numeral.signed, LLONG_MAX, LLONG_MIN] at hle ⊢
      split_ifs with hsign hmin hmax hmin hmax
      · omega
      · omega
      · rfl
      · omega
      · omega
      · rfl

theorem strtoUnsigned_iff (hb : ValidBase base) :
    strtoUnsigned ULLONG_MAX s base = isoUnsigned s base ↔ UnsignedFits base s := by
  have hvalid : ¬ ((base < 2 ∨ 36 < base) ∧ base ≠ 0) := by
    unfold ValidBase at hb
    omega
  have hend : (strtoUnsigned ULLONG_MAX s base).strEnd =
      (digitsLoop ULLONG_MAX (prefixOf base (trimmed s)).1 0 (prefixOf base (trimmed s)).2).2 := by
    rw [strtoUnsigned, if_neg hvalid]
    dsimp only
    split <;> next heq => rw [heq]
  have hzero (hloop : digitsLoop ULLONG_MAX (prefixOf base (trimmed s)).1 0 (prefixOf base (trimmed s)).2 =
      (some 0, trimmed s)) : strtoUnsigned ULLONG_MAX s base = ⟨0, trimmed s, none⟩ := by
    rw [strtoUnsigned, if_neg hvalid]
    dsimp only
    rw [hloop]
    rfl
  rw [isoUnsigned, UnsignedFits, subject_eq]
  rcases length_splitSign (trimmed s) with ⟨hnone, hsame⟩ | ⟨c, hsome, hcons, hc⟩
  · rw [hnone, hsame]
    by_cases hdigits : digitsOf base (trimmed s) = []
    · rw [if_pos hdigits, hzero (prefixLoop_none _ hdigits)]
      simp
    · rw [if_neg hdigits]
      dsimp only
      refine ⟨fun heq => ?_, fun hfit => ?_⟩
      · refine ⟨rfl, ?_⟩
        by_contra hfit
        apply (prefixLoop_ne hb (by decide) hfit).1
        rw [← hend, heq]
        split_ifs <;> rfl
      · have hloop := prefixLoop_some hb (by decide) hfit.2.1 hfit.2.2
        rw [strtoUnsigned, if_neg hvalid]
        dsimp only
        rw [hloop]
        have hle := hfit.2.2
        simp only [Numeral.signed, ULLONG_MAX, reduceCtorEq, if_false] at hle ⊢
        rw [if_neg (by omega), Int.emod_eq_of_lt (by omega) (by omega)]
  · -- The sign is no digit for these functions.
    have hdigits : digitsOf base (trimmed s) = [] := by
      rw [hcons]
      exact digitsOf_sign hc
    have hloop := prefixLoop_none ULLONG_MAX hdigits
    rw [hzero hloop]
    by_cases hnum : digitsOf base (splitSign (trimmed s)).2 = []
    · rw [if_pos hnum]
      simp
    · rw [if_neg hnum, hsome]
      refine iff_of_false (fun heq => ?_) (fun h => Option.some_ne_none c h.1)
      have hrest : trimmed s = behind base (splitSign (trimmed s)).2 := by
        dsimp only at heq
        split_ifs at heq <;> exact congrArg StrtoResult.strEnd heq
      have hle := length_behind_le base (splitSign (trimmed s)).2
      have hlen := congrArg List.length hcons
      rw [← hrest] at hle
      rw [List.length_cons] at hlen
      omega

/-- The strings on which all four functions do what the C standard says: the number in them has no sign, a prefix
that the functions read and a value that `long long` can represent; or there is no number, and they begin neither
with white space nor with a sign. -/
def StrtoFits (base : ℕ) (s : List UInt8) : Prop :=
  match subject base s with
  | none => Unspaced s
  | some n => n.sign = none ∧ PrefixRead base (trimmed s) ∧ n.value ≤ LLONG_MAX

theorem strtoRight_iff (hb : ValidBase base) : StrtoRight s base ↔ StrtoFits base s := by
  have hsigned : StrtoRight s base ↔ SignedFits base s ∧ UnsignedFits base s := by
    rw [← strtoSigned_iff hb, ← strtoUnsigned_iff hb]
    exact ⟨fun h => ⟨h.1, h.2.2.1⟩, fun h => ⟨h.1, h.1, h.2, h.2⟩⟩
  rw [hsigned, SignedFits, UnsignedFits, StrtoFits, subject_eq]
  split
  · exact ⟨fun h => h.1, fun h => ⟨h, h.1⟩⟩
  · next n hn =>
    rcases length_splitSign (trimmed s) with ⟨hnone, hsame⟩ | ⟨c, hsome, -, -⟩
    · rw [hsame]
      refine ⟨fun h => ⟨h.2.1, h.1⟩, fun h => ⟨h.2, h.1, h.2.1, ?_⟩⟩
      exact h.2.2.trans (by decide)
    · have hsign : n.sign ≠ none := by
        split at hn
        · exact absurd hn (by simp)
        · obtain rfl := Option.some.inj hn
          rw [hsome]
          exact Option.some_ne_none c
      exact iff_of_false (fun h => hsign h.2.1) (fun h => hsign h.1)

end Functions

end Glidix.Libc
