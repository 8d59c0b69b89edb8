import Mathlib.Algebra.Order.Ring.Int
import Mathlib.Tactic.Common
import Glidix.Libc.Digits

/-!
# Numbers as text

`numeral` is the text of a number in a base from 2 to 36, with small letters.  The digits are found
from the last one on, and a number has at least one.
-/

namespace Glidix.Libc

/-- The character of a digit. -/
def digitChar (digit : ℕ) : UInt8 :=
  UInt8.ofNat (if digit < 10 then 0x30 + digit else 0x61 + (digit - 10))

/-- The digits of a number, in front of `text`. -/
def numeralLoop (base : ℕ) : ℕ → ℕ → List UInt8 → List UInt8
  | 0, _, text => text
  | fuel + 1, n, text =>
    if n / base = 0 then digitChar (n % base) :: text
    else numeralLoop base fuel (n / base) (digitChar (n % base) :: text)

def numeral (base n : ℕ) : List UInt8 := numeralLoop base (n + 1) n []

example : numeral 16 0x1f = [0x31, 0x66] := by simp [numeral, numeralLoop, digitChar]

variable {base fuel n k out digit : ℕ} {text : List UInt8}

theorem digitOf_digitChar (h : digit < 36) : digitOf (digitChar digit) = some digit := by
  have hall : ∀ d : Fin 36, digitOf (digitChar d) = some d.val := by decide
  exact hall ⟨digit, h⟩

theorem isDigit_digitChar (hbase : base ≤ 36) (h : digit < base) :
    isDigit base (digitChar digit) = true :=
  isDigit_iff.2 ⟨digit, digitOf_digitChar (h.trans_le hbase), h⟩

theorem valueFrom_digitChar (h : digit < 36) :
    valueFrom base out (digitChar digit :: text) = valueFrom base (out * base + digit) text := by
  simp [valueFrom, digitOf_digitChar h]

theorem numeralLoop_induction {p : ℕ → List UInt8 → Prop} (hbase : 2 ≤ base)
    (step : ∀ n text, n / base ≠ 0 → p n text → p (n / base) (digitChar (n % base) :: text))
    (last : ∀ n text, n / base = 0 → p n text → p 0 (digitChar n :: text))
    (hfuel : n < fuel) (h : p n text) : p 0 (numeralLoop base fuel n text) := by
  induction fuel generalizing n text with
  | zero => omega
  | succ fuel ih =>
    rw [numeralLoop]
    split_ifs with hn
    · have hlt : n < base := Nat.lt_of_div_eq_zero (by omega) hn
      rw [Nat.mod_eq_of_lt hlt]
      exact last n text hn h
    · have hpos : 0 < n := Nat.pos_of_ne_zero fun h0 => hn (by rw [h0, Nat.zero_div])
      have hlt : n / base < n := Nat.div_lt_self hpos hbase
      exact ih (by omega) (step n text hn h)

/-- The text of a number has its value. -/
theorem valueFrom_numeral (hbase : 2 ≤ base) (hle : base ≤ 36) (n : ℕ) :
    valueFrom base 0 (numeral base n) = n := by
  refine numeralLoop_induction (p := fun m text => valueFrom base m text = n) hbase ?_ ?_
    (Nat.lt_succ_self n) rfl
  · intro m text _ h
    have hmod : m % base < 36 := (Nat.mod_lt m (by omega)).trans_le hle
    rw [valueFrom_digitChar hmod, Nat.div_add_mod']
    exact h
  · intro m text hm h
    have hlt : m < 36 := (Nat.lt_of_div_eq_zero (by omega) hm).trans_le hle
    rw [valueFrom_digitChar hlt, Nat.zero_mul, Nat.zero_add]
    exact h

theorem isDigit_of_mem_numeral (hbase : 2 ≤ base) (hle : base ≤ 36) :
    ∀ c ∈ numeral base n, isDigit base c = true := by
  refine numeralLoop_induction (p := fun _ text => ∀ c ∈ text, isDigit base c = true) hbase ?_ ?_
    (Nat.lt_succ_self n) (fun _ h => absurd h List.not_mem_nil)
  · intro m text _ h
    exact List.forall_mem_cons.2 ⟨isDigit_digitChar hle (Nat.mod_lt m (by omega)), h⟩
  · intro m text hm h
    exact List.forall_mem_cons.2 ⟨isDigit_digitChar hle (Nat.lt_of_div_eq_zero (by omega) hm), h⟩

theorem numeralLoop_ne_nil (h : text ≠ []) : numeralLoop base fuel n text ≠ [] := by
  induction fuel generalizing n text with
  | zero => exact h
  | succ fuel ih =>
    rw [numeralLoop]
    split_ifs
    · exact List.cons_ne_nil _ _
    · exact ih (List.cons_ne_nil _ _)

theorem numeral_ne_nil : numeral base n ≠ [] := by
  rw [numeral, numeralLoop]
  split_ifs
  · exact List.cons_ne_nil _ _
  · exact numeralLoop_ne_nil (List.cons_ne_nil _ _)

theorem length_numeralLoop_le (h : n < base ^ (k + 1)) :
    (numeralLoop base fuel n text).length ≤ k + 1 + text.length := by
  induction k generalizing fuel n text with
  | zero =>
    cases fuel with
    | zero => exact Nat.le_add_left _ _
    | succ fuel =>
      have hdiv : n / base = 0 := Nat.div_eq_of_lt (by simpa using h)
      rw [numeralLoop, if_pos hdiv, List.length_cons]
      omega
  | succ k ih =>
    cases fuel with
    | zero => exact Nat.le_add_left _ _
    | succ fuel =>
      rw [numeralLoop]
      split_ifs
      · rw [List.length_cons]
        omega
      · have hlt : n / base < base ^ (k + 1) := Nat.div_lt_of_lt_mul (by rwa [Nat.pow_succ'] at h)
        have hlen := @ih fuel _ (digitChar (n % base) :: text) hlt
        rw [List.length_cons] at hlen
        omega

/-- A number below a power of the base has no more digits than the exponent. -/
theorem length_numeral_le (h : n < base ^ (k + 1)) : (numeral base n).length ≤ k + 1 :=
  length_numeralLoop_le h

end Glidix.Libc
