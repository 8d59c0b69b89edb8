import Glidix.Libc.Strtol

/-!
# The integer conversions of `scanf`

The conversions read a string byte by byte and put back the byte behind the number.  A byte of value -1 looks like
the end of the string, but is gone when it has been read.
-/

namespace Glidix.Libc

/-! ## Reading bytes -/

/-- `__instr_getc`: `none` is `EOF`, and the string ends where its list does. -/
def instrGetc : List UInt8 → Option UInt8 × List UInt8
  | [] => (none, [])
  | c :: s => (if c = 0xFF then none else some c, s)

def instrUngetc : Option UInt8 → List UInt8 → List UInt8
  | none, s => s
  | some c, s => c :: s

/-- The loop over white space: the byte that ended it, and what is left. -/
def skipSpaces : List UInt8 → Option UInt8 × List UInt8
  | [] => (none, [])
  | c :: s => if isspace c then skipSpaces s else instrGetc (c :: s)

/-- The base of the digits when the conversion does not say it. -/
def scanBase (base : ℕ) (s : List UInt8) : ℕ × List UInt8 :=
  if base = 0 then
    let (c, s) := instrGetc s
    if c = some ZERO then
      let (c, s) := instrGetc s
      if c = some LOWER_X then (16, s) else (8, instrUngetc c s)
    else (10, instrUngetc c s)
  else (base, s)

/-- The loop over the digits: whether there was one, the value, and what is left. -/
def scanDigits (limit llbase : ℕ) : Bool → ℕ → List UInt8 → Bool × ℕ × List UInt8
  | matchedOne, out, [] => (matchedOne, out, [])
  | matchedOne, out, c :: s =>
    if c = 0xFF then (matchedOne, out, s)
    else
      match digitOf c with
      | none => (matchedOne, out, c :: s)
      | some digit =>
        if llbase ≤ digit then (matchedOne, out, c :: s)
        else if (limit - digit) / llbase < out then (matchedOne, limit, c :: s)
        else scanDigits limit llbase true (out * llbase + digit) s

/-! ## The conversions -/

/-- What a conversion returns, what it stores, if anything, and what is left of the string. -/
structure ConvResult where
  ret : ℤ
  stored : Option ℤ
  rest : List UInt8
  deriving DecidableEq

/-- `_INTCONVFUNC`. -/
def intConv (limit : ℕ) (s : List UInt8) (base : ℕ) : ConvResult :=
  match skipSpaces s with
  | (none, s) => ⟨-1, none, s⟩
  | (some c, s) =>
    let (c, s) := instrGetc (instrUngetc (some c) s)
    let s := if c = some PLUS ∨ c = some MINUS then s else instrUngetc c s
    let (llbase, s) := scanBase base s
    let (matchedOne, out, s) := scanDigits limit llbase false 0 s
    ⟨if matchedOne then 0 else 1, some (if c = some MINUS then -(out : ℤ) else out), s⟩

/-- `_UINTCONVFUNC`. -/
def uintConv (limit : ℕ) (s : List UInt8) (base : ℕ) : ConvResult :=
  match skipSpaces s with
  | (none, s) => ⟨-1, none, s⟩
  | (some c, s) =>
    let (llbase, s) := scanBase base (instrUngetc (some c) s)
    let (matchedOne, out, s) := scanDigits limit llbase false 0 s
    ⟨if matchedOne then 0 else 1, some out, s⟩

/-- The length modifiers. -/
inductive LenMod
  | none
  | hh
  | h
  | l
  | ll
  | j
  | z
  | t
  deriving DecidableEq

/-- The limits of `__scanf_conv_sint`. -/
def LenMod.intLimit : LenMod → ℕ
  | .none => 2147483647
  | .hh => 127
  | .h => 32767
  | .l | .ll | .j | .z => 9223372036854775807
  | .t => 0x7FFFFFFFFFFFFFFF

/-- The limits of `__scanf_conv_uint`. -/
def LenMod.uintLimit : LenMod → ℕ
  | .none => 4294967295
  | .hh => 255
  | .h => 65535
  | .l | .ll | .j | .z => 18446744073709551615
  | .t => 0xFFFFFFFFFFFFFFFF

/-- The conversion specifiers. -/
inductive ConvSpec
  | d
  | i
  | o
  | u
  | x
  deriving DecidableEq

def ConvSpec.base : ConvSpec → ℕ
  | .d | .u => 10
  | .i => 0
  | .o => 8
  | .x => 16

def ConvSpec.isSigned : ConvSpec → Bool
  | .d | .i => true
  | .o | .u | .x => false

/-- The branches of `__scanf_gen` for the integer conversions, without a field width. -/
def scanInteger (lenmod : LenMod) (convspec : ConvSpec) (s : List UInt8) : ConvResult :=
  if convspec.isSigned then intConv lenmod.intLimit s convspec.base
  else uintConv lenmod.uintLimit s convspec.base

/-! ## What they should do -/

/-- The values of the target type. -/
def InType (lenmod : LenMod) (convspec : ConvSpec) (v : ℤ) : Prop :=
  if convspec.isSigned then -(lenmod.intLimit : ℤ) - 1 ≤ v ∧ v ≤ lenmod.intLimit
  else 0 ≤ v ∧ v ≤ lenmod.uintLimit

/-- The conversion matches exactly if the string begins with a number, reads exactly this number, and stores it when
the target type can represent it. -/
def ScanRight (lenmod : LenMod) (convspec : ConvSpec) (s : List UInt8) : Prop :=
  match subject convspec.base s with
  | none => (scanInteger lenmod convspec s).ret ≠ 0
  | some n =>
    (scanInteger lenmod convspec s).ret = 0 ∧ (scanInteger lenmod convspec s).rest = n.rest ∧
      (InType lenmod convspec n.signed → (scanInteger lenmod convspec s).stored = some n.signed)

/-! ## The loop over the digits -/

section Loop

variable {limit base out : ℕ} {c : UInt8} {s t : List UInt8}

/-- What is left when the byte behind the number is read. -/
def dropEof (s : List UInt8) : List UInt8 := if s.head? = some 0xFF then s.tail else s

theorem length_dropEof_le (s : List UInt8) : (dropEof s).length ≤ s.length := by
  unfold dropEof
  split
  · rw [List.length_tail]
    omega
  · exact Nat.le_refl _

theorem digitOf_eof : digitOf 0xFF = none := by decide

theorem eof_no_digit : isDigit base 0xFF = false := by
  rw [isDigit, digitOf_eof]
  rfl

/-- The loop goes as far as the one of the string to integer functions, and one byte further when that has the
value -1. -/
theorem scanDigits_eq (m : Bool) : scanDigits limit base m out s =
    (m || decide ((digitsLoop limit base out s).2.length < s.length),
      (digitsLoop limit base out s).1.getD limit, dropEof (digitsLoop limit base out s).2) := by
  induction s generalizing m out with
  | nil => simp [scanDigits, digitsLoop, dropEof]
  | cons c s ih =>
    by_cases heof : c = 0xFF
    · subst heof
      have hstop : digitsLoop limit base out (0xFF :: s) = (some out, 0xFF :: s) :=
        digitsLoop_stop eof_no_digit
      rw [hstop, scanDigits, if_pos rfl]
      simp [dropEof]
    · have hkeep : dropEof (c :: s) = c :: s := by
        simp [dropEof, heof]
      cases hdigit : isDigit base c with
      | false =>
        rw [digitsLoop_stop hdigit, scanDigits, if_neg heof, hkeep]
        cases hc : digitOf c with
        | none => simp
        | some digit =>
          have hle : base ≤ digit := by simpa [isDigit, hc] using hdigit
          simp [hle]
      | true =>
        obtain ⟨digit, hc, hlt⟩ := isDigit_iff.1 hdigit
        have hnext := length_digitsLoop_le limit base (out * base + digit) s
        have hloop : digitsLoop limit base out (c :: s) =
            if (limit - digit) / base < out then (none, c :: s)
            else digitsLoop limit base (out * base + digit) s := by
          rw [digitsLoop, hc]
          exact if_neg (Nat.not_le.2 hlt)
        rw [hloop, scanDigits, if_neg heof, hc]
        dsimp only
        rw [if_neg (Nat.not_le.2 hlt)]
        split
        · simp [hkeep]
        · rw [ih]
          have hlen : decide ((digitsLoop limit base (out * base + digit) s).2.length < (c :: s).length) =
              true := decide_eq_true (Nat.lt_succ_of_le hnext)
          rw [hlen, Bool.true_or, Bool.or_true]

theorem skipSpaces_eq (s : List UInt8) : skipSpaces s = instrGetc (trimmed s) := by
  induction s with
  | nil => rfl
  | cons c s ih =>
    rw [skipSpaces, trimmed]
    by_cases hc : isspace c = true
    · rw [if_pos hc, ih, List.dropWhile_cons_of_pos hc]
    · rw [if_neg hc, List.dropWhile_cons_of_neg hc]

end Loop

/-! ## Prefixes -/

/-- The prefix is one that the conversions read: with base 0, a zero counts only when a digit of base 8, or a small
`x` and a hexadecimal digit, follow it. -/
def PrefixScanned (base : ℕ) (t : List UInt8) : Prop :=
  if base = 0 then
    t.head? = some ZERO →
      t.tail.head?.any (isDigit 8) = true ∨ t.tail.head? = some LOWER_X ∧ hexHead t.tail.tail = true
  else PrefixRead base t

section Prefixes

variable {limit base : ℕ} {c : UInt8} {s t u : List UInt8}

/-- The loop over the digits, behind the prefix. -/
def scanLoop (limit base : ℕ) (t : List UInt8) : Bool × ℕ × List UInt8 :=
  scanDigits limit (scanBase base t).1 false 0 (scanBase base t).2

theorem scanBase_of_ne (h : base ≠ 0) : scanBase base t = prefixOf base t := by
  rw [prefixOf_of_ne h]
  exact if_neg h

theorem instrGetc_cons (h : c ≠ 0xFF) : instrGetc (c :: s) = (some c, s) := by
  rw [instrGetc, if_neg h]

/-- Behind a zero that the conversions read as a prefix. -/
theorem scanBase_zero (h : c ≠ 0xFF) : scanBase 0 (ZERO :: c :: u) = prefixOf 0 (ZERO :: c :: u) := by
  have hzero : instrGetc (ZERO :: c :: u) = (some ZERO, c :: u) := instrGetc_cons (by decide)
  simp only [scanBase, prefixOf, hzero, instrGetc_cons h, if_true, Option.some.injEq]
  split <;> rfl

theorem scanBase_plain (hc : c ≠ ZERO) (h : c ≠ 0xFF) : scanBase 0 (c :: u) = prefixOf 0 (c :: u) := by
  simp only [scanBase, prefixOf, instrGetc_cons h, if_true, Option.some.injEq, if_neg hc]
  rfl

theorem digit_ne_eof {radix : ℕ} (h : isDigit radix c = true) : c ≠ 0xFF := by
  rintro rfl
  exact Bool.false_ne_true (eof_no_digit.symm.trans h)

theorem radixOf_plain (hc : c ≠ ZERO) (u : List UInt8) : radixOf 0 (c :: u) = (10, c :: u) := by
  cases u <;> simp [radixOf, hc]

/-- A prefix that the conversions read is one that the string to integer functions read, and a digit follows it. -/
theorem scanBase_eq (h : PrefixScanned base t) (hd : digitsOf base t ≠ []) :
    scanBase base t = prefixOf base t ∧ PrefixRead base t ∧
      (prefixOf base t).2.head?.any (isDigit (prefixOf base t).1) = true := by
  by_cases hb : base = 0
  · subst hb
    rw [PrefixScanned, if_pos rfl] at h
    cases t with
    | nil => exact absurd rfl hd
    | cons c u =>
      by_cases hc : c = ZERO
      · subst hc
        rcases h rfl with hoct | ⟨hx, hhex⟩
        · cases u with
          | nil => cases hoct
          | cons d w =>
            have hlow : d ≠ LOWER_X := by
              rintro rfl
              exact absurd hoct (by simp +decide)
            have hup : d ≠ UPPER_X := by
              rintro rfl
              exact absurd hoct (by simp +decide)
            have hpre : prefixOf 0 (ZERO :: d :: w) = (8, d :: w) := by
              simp [prefixOf, hlow]
            refine ⟨scanBase_zero (digit_ne_eof hoct), fun _ => ?_, by rw [hpre]; exact hoct⟩
            exact ⟨fun h16 => absurd h16 (by decide), fun _ => ⟨fun hx => absurd hx hlow, fun hx => absurd hx hup⟩⟩
        · cases u with
          | nil => cases hx
          | cons d w =>
            obtain rfl := Option.some.inj hx
            have hpre : prefixOf 0 (ZERO :: LOWER_X :: w) = (16, w) := rfl
            refine ⟨scanBase_zero (by decide), fun _ => ?_, by rw [hpre]; exact hhex⟩
            exact ⟨fun h16 => absurd h16 (by decide), fun _ => ⟨fun _ => hhex, fun hx => absurd hx (by decide)⟩⟩
      · have hdigit : isDigit 10 c = true := by
          rw [digitsOf, radixOf_plain hc] at hd
          by_contra hno
          exact hd (List.takeWhile_cons_of_neg hno)
        have hpre : prefixOf 0 (c :: u) = (10, c :: u) := by
          simp [prefixOf, hc]
        refine ⟨scanBase_plain hc (digit_ne_eof hdigit), ?_, by rw [hpre]; exact hdigit⟩
        cases u with
        | nil => trivial
        | cons x u => exact fun h0 => absurd h0 hc
  · rw [PrefixScanned, if_neg hb] at h
    refine ⟨scanBase_of_ne hb, h, ?_⟩
    rw [digitsOf, radixOf_of_ne hb h] at hd
    rw [prefixOf_of_ne hb]
    exact (Bool.not_eq_false _).mp fun hno => hd (takeWhile_eq_nil_iff.2 hno)

theorem prefixOf_bounds (hb : ValidBase base) (t : List UInt8) : (prefixOf base t).1 ≤ 36 := by
  unfold prefixOf
  rcases hb with rfl | hb
  · rw [if_pos rfl]
    split
    · decide
    · split_ifs
      · split
        · decide
        · split_ifs <;> simp
      · simp
  · rw [if_neg (by omega)]
    exact hb.2

/-- Without digits the conversions do not match, unless a byte of value -1 is taken for the end. -/
theorem scanLoop_none (hb : ValidBase base) (hlimit : 36 ≤ limit) (hd : digitsOf base t = []) :
    (scanLoop limit base t).1 = true ↔
      base = 0 ∧ t.head? = some 0xFF ∧ t.tail.head?.any (isDigit 10) = true := by
  have hfalse (hsame : scanBase base t = prefixOf base t) : (scanLoop limit base t).1 = false := by
    have hle := prefixOf_bounds hb t
    have hback : (digitsLoop limit (prefixOf base t).1 0 (prefixOf base t).2).2 = t := by
      rw [prefixLoop_none limit hd]
    have hlen : (prefixOf base t).2.length ≤ t.length := length_prefixOf_le base t
    rw [scanLoop, hsame, scanDigits_eq false]
    dsimp only
    rw [hback, Bool.false_or, decide_eq_false_iff_not]
    omega
  by_cases hbase : base = 0
  · subst hbase
    match t with
    | [] => exact iff_of_false (by rw [hfalse rfl]; decide) (fun h => by simp at h)
    | c :: u =>
      have hc : c ≠ ZERO := by
        rintro rfl
        exact digitsOf_zero u hd
      by_cases heof : c = 0xFF
      · subst heof
        have hscan : scanBase 0 (0xFF :: u) = (10, u) := rfl
        rw [scanLoop, hscan, scanDigits_eq false]
        simp [length_digitsLoop_lt (show 10 ≤ limit by omega)]
      · rw [hfalse (scanBase_plain hc heof)]
        simp [heof]
  · rw [hfalse (scanBase_of_ne hbase)]
    simp [hbase]

/-- Behind a prefix that they read, the conversions read the digits when their value fits. -/
theorem scanLoop_some (hb : ValidBase base) (hlimit : 36 ≤ limit) (hd : digitsOf base t ≠ [])
    (h : PrefixScanned base t) (hle : valueFrom (radixOf base t).1 0 (digitsOf base t) ≤ limit) :
    scanLoop limit base t =
      (true, valueFrom (radixOf base t).1 0 (digitsOf base t), dropEof (behind base t)) := by
  obtain ⟨hscan, hread, hhead⟩ := scanBase_eq h hd
  have hbound := prefixOf_bounds hb t
  have hlt := (length_digitsLoop_lt (show (prefixOf base t).1 ≤ limit by omega)).2 hhead
  rw [prefixLoop_some hb hlimit hread hle] at hlt
  rw [scanLoop, hscan, scanDigits_eq false, prefixLoop_some hb hlimit hread hle,
    decide_eq_true hlt]
  rfl

theorem dropEof_of_ne (h : s.head? ≠ some 0xFF) : dropEof s = s := if_neg h

theorem dropEof_ne (h : s.head? = some 0xFF) : dropEof s ≠ s := by
  cases s with
  | nil => exact nomatch h
  | cons c s =>
    rw [dropEof, if_pos h]
    exact (List.cons_ne_self c s).symm

/-- A zero that no digit of base 8 and no prefix follows is not read. -/
theorem scanLoop_zero (hlimit : 36 ≤ limit) (hoct : u.head?.any (isDigit 8) = false)
    (hhex : ¬ (u.head? = some LOWER_X ∧ hexHead u.tail = true)) :
    ¬ ((scanLoop limit 0 (ZERO :: u)).1 = true ∧ (scanLoop limit 0 (ZERO :: u)).2.2 = behind 0 (ZERO :: u)) := by
  have hnot (llbase : ℕ) (w : List UInt8) (hle : llbase ≤ limit) (hscan : scanBase 0 (ZERO :: u) = (llbase, w))
      (hhead : w.head?.any (isDigit llbase) = false) : (scanLoop limit 0 (ZERO :: u)).1 = false := by
    rw [scanLoop, hscan, scanDigits_eq false, Bool.false_or, decide_eq_false_iff_not,
      length_digitsLoop_lt hle, hhead]
    exact Bool.false_ne_true
  match u with
  | [] => simp [hnot 8 [] (by omega) rfl rfl]
  | d :: w =>
    by_cases heof : d = 0xFF
    · subst heof
      have hscan : scanBase 0 (ZERO :: 0xFF :: w) = (8, w) := rfl
      have hbehind : behind 0 (ZERO :: 0xFF :: w) = 0xFF :: w := by
        have hradix : radixOf 0 (ZERO :: 0xFF :: w) = (8, ZERO :: 0xFF :: w) := rfl
        have hzero : isDigit 8 ZERO = true := by decide
        rw [behind, hradix, List.dropWhile_cons_of_pos hzero,
          List.dropWhile_cons_of_neg (by rw [eof_no_digit]; decide)]
      rintro ⟨-, heq⟩
      rw [hbehind, scanLoop, hscan, scanDigits_eq false] at heq
      have hlen := congrArg List.length heq
      have hle := length_digitsLoop_le limit 8 0 w
      have hdrop := length_dropEof_le (digitsLoop limit 8 0 w).2
      simp only [List.length_cons] at hlen
      omega
    · have hscan := scanBase_zero (u := w) heof
      by_cases hlow : d = LOWER_X
      · subst hlow
        have hno : hexHead w = false := (Bool.not_eq_true _).mp fun hyes => hhex ⟨rfl, hyes⟩
        simp [hnot 16 w (by omega) hscan hno]
      · have hpre : prefixOf 0 (ZERO :: d :: w) = (8, d :: w) := by
          simp [prefixOf, hlow]
        simp [hnot 8 (d :: w) (by omega) (hscan.trans hpre) hoct]

/-- Otherwise the conversions do not match, or do not stop behind the number. -/
theorem scanLoop_ne (hb : ValidBase base) (hlimit : 36 ≤ limit) (hd : digitsOf base t ≠ [])
    (h : ¬ (PrefixScanned base t ∧ valueFrom (radixOf base t).1 0 (digitsOf base t) ≤ limit ∧
      (behind base t).head? ≠ some 0xFF)) :
    ¬ ((scanLoop limit base t).1 = true ∧ (scanLoop limit base t).2.2 = behind base t) := by
  have hbound := prefixOf_bounds hb t
  by_cases hscanned : PrefixScanned base t
  · obtain ⟨hscan, hread, -⟩ := scanBase_eq hscanned hd
    rintro ⟨-, heq⟩
    by_cases hle : valueFrom (radixOf base t).1 0 (digitsOf base t) ≤ limit
    · rw [scanLoop_some hb hlimit hd hscanned hle] at heq
      by_cases heof : (behind base t).head? = some 0xFF
      · exact dropEof_ne heof heq
      · exact h ⟨hscanned, hle, heof⟩
    · obtain ⟨c, rest, hloop, heof, hne⟩ := prefixLoop_gt hb hlimit hread (Nat.lt_of_not_le hle)
      rw [scanLoop, hscan, scanDigits_eq false, hloop] at heq
      dsimp only at heq
      have hkeep : dropEof (c :: rest) = c :: rest :=
        dropEof_of_ne fun he => heof (Option.some.inj he)
      rw [hkeep] at heq
      exact hne heq
  · by_cases hbase : base = 0
    · subst hbase
      rw [PrefixScanned, if_pos rfl] at hscanned
      match t with
      | [] => exact absurd rfl hd
      | c :: u =>
        by_cases hc : c = ZERO
        · subst hc
          simp only [List.head?_cons, List.tail_cons, true_implies, not_or] at hscanned
          exact scanLoop_zero hlimit ((Bool.not_eq_true _).mp hscanned.1) hscanned.2
        · exact absurd (fun he => absurd (Option.some.inj he) hc) hscanned
    · rw [PrefixScanned, if_neg hbase] at hscanned
      rintro ⟨-, heq⟩
      obtain ⟨hne, heof⟩ := prefixLoop_ne hb hlimit fun hfit => hscanned hfit.1
      rw [scanLoop, scanBase_of_ne hbase, scanDigits_eq false] at heq
      dsimp only at heq
      rw [dropEof_of_ne (heof hbase)] at heq
      exact hne heq

end Prefixes

/-! ## The conversions -/

/-- The strings on which a signed conversion is right.  Without a number a byte of value -1 behind the sign must not
hide a digit. -/
def IntFits (limit base : ℕ) (s : List UInt8) : Prop :=
  match subject base s with
  | none => ¬ (base = 0 ∧ (splitSign (trimmed s)).1 ≠ none ∧ (splitSign (trimmed s)).2.head? = some 0xFF ∧
      (splitSign (trimmed s)).2.tail.head?.any (isDigit 10) = true)
  | some n => PrefixScanned base (splitSign (trimmed s)).2 ∧ n.value ≤ limit ∧ n.rest.head? ≠ some 0xFF

/-- The strings on which an unsigned conversion is right. -/
def UintFits (limit base : ℕ) (s : List UInt8) : Prop :=
  match subject base s with
  | none => True
  | some n => n.sign = none ∧ PrefixScanned base (trimmed s) ∧ n.value ≤ limit ∧ n.rest.head? ≠ some 0xFF

def ScanFits (lenmod : LenMod) (convspec : ConvSpec) (s : List UInt8) : Prop :=
  if convspec.isSigned then IntFits lenmod.intLimit convspec.base s
  else UintFits lenmod.uintLimit convspec.base s

section Conversions

variable {limit base : ℕ} {c : UInt8} {s r : List UInt8}

/-- A signed conversion that finds more than white space. -/
theorem intConv_eq (ht : trimmed s = c :: r) (hc : c ≠ 0xFF) : intConv limit s base =
    ⟨if (scanLoop limit base (splitSign (trimmed s)).2).1 then 0 else 1,
      some (if (splitSign (trimmed s)).1 = some MINUS then
        -((scanLoop limit base (splitSign (trimmed s)).2).2.1 : ℤ)
        else (scanLoop limit base (splitSign (trimmed s)).2).2.1),
      (scanLoop limit base (splitSign (trimmed s)).2).2.2⟩ := by
  have hskip : skipSpaces s = (some c, r) := by
    rw [skipSpaces_eq, ht, instrGetc_cons hc]
  have hget : instrGetc (instrUngetc (some c) r) = (some c, r) := instrGetc_cons hc
  rw [intConv, hskip, ht]
  dsimp only
  rw [hget]
  by_cases hsign : c = PLUS ∨ c = MINUS
  · have hsplit : splitSign (c :: r) = (some c, r) := if_pos hsign
    have hsome : some c = some PLUS ∨ some c = some MINUS := hsign.imp (congrArg some) (congrArg some)
    rw [hsplit]
    dsimp only
    rw [if_pos hsome]
    rfl
  · have hsplit : splitSign (c :: r) = (none, c :: r) := if_neg hsign
    have hsome : ¬ (some c = some PLUS ∨ some c = some MINUS) :=
      fun h => hsign (h.imp Option.some.inj Option.some.inj)
    rw [hsplit]
    dsimp only
    have hminus : (none : Option UInt8) ≠ some MINUS := nofun
    rw [if_neg hsome, if_neg (fun h => hsome (Or.inr h)), if_neg hminus]
    rfl

theorem uintConv_eq (ht : trimmed s = c :: r) (hc : c ≠ 0xFF) : uintConv limit s base =
    ⟨if (scanLoop limit base (trimmed s)).1 then 0 else 1, some (scanLoop limit base (trimmed s)).2.1,
      (scanLoop limit base (trimmed s)).2.2⟩ := by
  have hskip : skipSpaces s = (some c, r) := by
    rw [skipSpaces_eq, ht, instrGetc_cons hc]
  rw [uintConv, hskip, ht]
  rfl

theorem ret_eq_zero {matchedOne : Bool} : (if matchedOne = true then (0 : ℤ) else 1) = 0 ↔ matchedOne = true := by
  cases matchedOne <;> decide

theorem subject_blank (limit base : ℕ) (h : (trimmed s).head?.all (· = 0xFF) = true) :
    subject base s = none ∧ (splitSign (trimmed s)).1 = none ∧
      (intConv limit s base).ret = -1 ∧ (uintConv limit s base).ret = -1 := by
  have hskip := skipSpaces_eq s
  rw [subject_eq, intConv, uintConv, hskip]
  cases ht : trimmed s with
  | nil => exact ⟨if_pos rfl, rfl, rfl, rfl⟩
  | cons c r =>
    rw [ht] at h
    obtain rfl : c = 0xFF := by simpa using h
    have hsplit : splitSign (0xFF :: r) = (none, 0xFF :: r) := rfl
    rw [hsplit]
    exact ⟨if_pos (digitsOf_of_none digitOf_eof), rfl, rfl, rfl⟩

theorem exists_cons_of_not_blank (h : ¬ (trimmed s).head?.all (· = 0xFF) = true) :
    ∃ c r, trimmed s = c :: r ∧ c ≠ 0xFF := by
  cases ht : trimmed s with
  | nil => exact absurd (by rw [ht]; rfl) h
  | cons c r =>
    rw [ht] at h
    exact ⟨c, r, rfl, by simpa using h⟩

theorem intConv_iff (hb : ValidBase base) (hlimit : 36 ≤ limit) :
    (match subject base s with
      | none => (intConv limit s base).ret ≠ 0
      | some n => (intConv limit s base).ret = 0 ∧ (intConv limit s base).rest = n.rest ∧
        (-(limit : ℤ) - 1 ≤ n.signed ∧ n.signed ≤ limit → (intConv limit s base).stored = some n.signed)) ↔
      IntFits limit base s := by
  rw [IntFits]
  by_cases hblank : (trimmed s).head?.all (· = 0xFF) = true
  · obtain ⟨hnone, hsign, hret, -⟩ := subject_blank limit base hblank
    rw [hnone]
    dsimp only
    rw [hret]
    exact iff_of_true (by decide) (fun h => h.2.1 hsign)
  obtain ⟨c, r, ht, hc⟩ := exists_cons_of_not_blank hblank
  rw [intConv_eq ht hc, subject_eq]
  by_cases hd : digitsOf base (splitSign (trimmed s)).2 = []
  · rw [if_pos hd]
    dsimp only
    have hmatch := scanLoop_none hb hlimit hd
    have hsign : (splitSign (trimmed s)).2.head? = some 0xFF → (splitSign (trimmed s)).1 ≠ none := by
      intro heof hnone
      rcases length_splitSign (trimmed s) with ⟨-, hsame⟩ | ⟨c', hsome, -, -⟩
      · rw [hsame, ht] at heof
        exact hc (Option.some.inj heof)
      · exact Option.some_ne_none c' (hsome.symm.trans hnone)
    rw [ne_eq, ret_eq_zero, hmatch, not_iff_not]
    exact ⟨fun h => ⟨h.1, hsign h.2.1, h.2⟩, fun h => ⟨h.1, h.2.2⟩⟩
  · rw [if_neg hd]
    dsimp only
    rw [ret_eq_zero]
    refine ⟨fun h => ?_, fun h => ?_⟩
    · by_contra hno
      exact scanLoop_ne hb hlimit hd hno ⟨h.1, h.2.1⟩
    · rw [scanLoop_some hb hlimit hd h.1 h.2.1]
      exact ⟨rfl, dropEof_of_ne h.2.2, fun _ => rfl⟩

theorem uintConv_iff (hb : ValidBase base) (hbase : base ≠ 0) (hlimit : 36 ≤ limit) :
    (match subject base s with
      | none => (uintConv limit s base).ret ≠ 0
      | some n => (uintConv limit s base).ret = 0 ∧ (uintConv limit s base).rest = n.rest ∧
        (0 ≤ n.signed ∧ n.signed ≤ limit → (uintConv limit s base).stored = some n.signed)) ↔
      UintFits limit base s := by
  rw [UintFits]
  by_cases hblank : (trimmed s).head?.all (· = 0xFF) = true
  · obtain ⟨hnone, -, -, hret⟩ := subject_blank limit base hblank
    rw [hnone]
    dsimp only
    rw [hret]
    exact iff_of_true (by decide) trivial
  obtain ⟨c, r, ht, hc⟩ := exists_cons_of_not_blank hblank
  have hmatch (hd : digitsOf base (trimmed s) = []) : ¬ (scanLoop limit base (trimmed s)).1 = true :=
    fun h => hbase ((scanLoop_none hb hlimit hd).1 h).1
  rw [uintConv_eq ht hc, subject_eq]
  rcases length_splitSign (trimmed s) with ⟨hnone, hsame⟩ | ⟨c', hsome, hcons, hc'⟩
  · rw [hnone, hsame]
    by_cases hd : digitsOf base (trimmed s) = []
    · rw [if_pos hd]
      dsimp only
      rw [ne_eq, ret_eq_zero]
      exact iff_of_true (hmatch hd) trivial
    · rw [if_neg hd]
      dsimp only
      rw [ret_eq_zero]
      refine ⟨fun h => ⟨rfl, ?_⟩, fun ⟨_, hpre, hle, heof⟩ => ?_⟩
      · by_contra hno
        exact scanLoop_ne hb hlimit hd hno ⟨h.1, h.2.1⟩
      · rw [scanLoop_some hb hlimit hd hpre hle]
        exact ⟨rfl, dropEof_of_ne heof, fun _ => rfl⟩
  · -- A sign is no digit, so the conversion does not match.
    have hd : digitsOf base (trimmed s) = [] := by
      rw [hcons]
      exact digitsOf_sign hc'
    rw [hsome]
    by_cases hnum : digitsOf base (splitSign (trimmed s)).2 = []
    · rw [if_pos hnum]
      dsimp only
      rw [ne_eq, ret_eq_zero]
      exact iff_of_true (hmatch hd) trivial
    · rw [if_neg hnum]
      dsimp only
      rw [ret_eq_zero]
      exact iff_of_false (fun h => hmatch hd h.1) (fun h => Option.some_ne_none c' h.1)

theorem LenMod.intLimit_ge (lenmod : LenMod) : 36 ≤ lenmod.intLimit := by
  cases lenmod <;> decide

theorem LenMod.uintLimit_ge (lenmod : LenMod) : 36 ≤ lenmod.uintLimit := by
  cases lenmod <;> decide

theorem scanRight_iff (lenmod : LenMod) (convspec : ConvSpec) :
    ScanRight lenmod convspec s ↔ ScanFits lenmod convspec s := by
  have hb : ValidBase convspec.base := by
    cases convspec <;> simp [ValidBase, ConvSpec.base]
  unfold ScanRight ScanFits scanInteger InType
  by_cases hsigned : convspec.isSigned = true
  · simp only [hsigned, if_true]
    exact intConv_iff hb lenmod.intLimit_ge
  · have hbase : convspec.base ≠ 0 := by
      cases convspec <;> simp [ConvSpec.base, ConvSpec.isSigned] at hsigned ⊢
    simp only [hsigned, Bool.false_eq_true, if_false]
    exact uintConv_iff hb hbase lenmod.uintLimit_ge

end Conversions

/-- All the conversions of a string to an integer do what the C standard says exactly if the string fits them all. -/
theorem conversions_right_iff (s : List UInt8) {base : ℕ} (hb : ValidBase base) :
    (StrtoRight s base ∧ ∀ lenmod convspec, ScanRight lenmod convspec s) ↔
      (StrtoFits base s ∧ ∀ lenmod convspec, ScanFits lenmod convspec s) := by
  rw [strtoRight_iff hb]
  exact and_congr_right fun _ => forall₂_congr scanRight_iff

/-- The number 17 in base 10. -/
theorem conversions_right_seventeen :
    (StrtoRight [0x31, 0x37] 10 ∧ ∀ lenmod convspec, ScanRight lenmod convspec [0x31, 0x37]) ↔
      (StrtoFits 10 [0x31, 0x37] ∧ ∀ lenmod convspec, ScanFits lenmod convspec [0x31, 0x37]) :=
  conversions_right_iff [0x31, 0x37] (Or.inr (by decide))

/-- `strtoll` does not read the prefix of `0x10` with base 16, and a lone zero does not match `%i`. -/
theorem conversions_not_right :
    ¬ StrtoRight [ZERO, LOWER_X, 0x31, ZERO] 16 ∧ ¬ ScanRight .none .i [ZERO] := by
  refine ⟨fun h => ?_, fun h => ?_⟩
  · have hend : strtoll [ZERO, LOWER_X, 0x31, ZERO] 16 = ⟨0, [LOWER_X, 0x31, ZERO], none⟩ := by decide
    have hiso : isoSigned [ZERO, LOWER_X, 0x31, ZERO] 16 = ⟨16, [], none⟩ := by decide
    rw [StrtoRight, hend, hiso] at h
    exact absurd h.1 (by decide)
  · have hret : (scanInteger .none .i [ZERO]).ret = 1 := by decide
    have hsubject : subject ConvSpec.i.base [ZERO] = some ⟨none, 0, []⟩ := rfl
    rw [ScanRight, hsubject, hret] at h
    exact absurd h.1 (by decide)

end Glidix.Libc
