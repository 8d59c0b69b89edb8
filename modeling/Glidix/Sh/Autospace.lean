import Glidix.Sh.LineSafety

/-!
# Spaces around operators

`preprocAutospace` follows the quotes of a line, but not its backslashes.  It leaves a line as it is when it sees
no operator outside of quotes, and makes it longer when it sees one.
-/

namespace Glidix.Sh

/-- An operator stands outside of quotes when every quote character counts, an escaped one too. -/
def hasOperator : UInt8 → List UInt8 → Bool
  | _, [] => false
  | quote, c :: rest =>
    if quote ≠ 0 then hasOperator (if quote = c then 0 else quote) rest
    else
      c = GREATER || ((c = AMPERSAND || c = PIPE) && rest.head? = some c) ||
        hasOperator (if c = SINGLE ∨ c = DOUBLE then c else 0) rest

example : hasOperator SINGLE [GREATER] = false := by
  rw [hasOperator, if_pos (by decide), hasOperator]

variable {prev : Option UInt8} {quote c t x : UInt8} {l r : List UInt8}

/-! ## One byte -/

theorem autospace_quoted (hquote : quote ≠ 0) :
    autospace prev quote (c :: l) = c :: autospace (some c) (if quote = c then 0 else quote) l := by
  rw [autospace.eq_def]
  exact if_pos hquote

theorem autospace_plain (hc : c ≠ GREATER) (hpair : ¬ (l.head? = some c ∧ (c = AMPERSAND ∨ c = PIPE))) :
    autospace prev 0 (c :: l) = c :: autospace (some c) (if c = SINGLE ∨ c = DOUBLE then c else 0) l := by
  rw [autospace.eq_def]
  dsimp only
  rw [if_neg (fun h => h rfl), if_neg hc]
  cases l with
  | nil => rfl
  | cons d l => exact if_neg fun h => hpair ⟨congrArg some h.1.symm, h.2⟩

theorem autospace_greater (l : List UInt8) :
    autospace (some BACKSLASH) 0 (GREATER :: l) = BLANK :: GREATER :: BLANK :: autospace (some GREATER) 0 l := by
  rw [autospace.eq_def]
  rfl

theorem hasOperator_quoted (hquote : quote ≠ 0) :
    hasOperator quote (c :: l) = hasOperator (if quote = c then 0 else quote) l := by
  rw [hasOperator, if_pos hquote]

theorem hasOperator_plain (hc : c ≠ GREATER) (hpair : ¬ (l.head? = some c ∧ (c = AMPERSAND ∨ c = PIPE))) :
    hasOperator 0 (c :: l) = hasOperator (if c = SINGLE ∨ c = DOUBLE then c else 0) l := by
  rw [hasOperator, if_neg fun h => h rfl]
  simp only [hc, decide_false, Bool.false_or]
  rw [Bool.or_eq_right_iff_imp]
  intro h
  simp only [Bool.and_eq_true, Bool.or_eq_true, decide_eq_true_eq] at h
  exact absurd ⟨h.2, h.1⟩ hpair

theorem hasOperator_pair (h : c = AMPERSAND ∨ c = PIPE) : hasOperator 0 (c :: c :: l) = true := by
  rw [hasOperator, if_neg fun h => h rfl]
  rcases h with rfl | rfl <;> rfl

/-! ## Lines without operators -/

theorem autospace_eq_self (h : hasOperator quote l = false) : autospace prev quote l = l := by
  fun_induction autospace prev quote l with
  | case1 => rfl
  | case2 prev quote c rest hquote ih =>
    rw [hasOperator, if_pos hquote] at h
    rw [ih h]
  | case3 prev quote rest hquote ih =>
    rw [hasOperator, if_neg hquote] at h
    simp at h
  | case4 prev quote c hquote hc => rfl
  | case5 prev quote c hquote hc d rest hpair ih =>
    obtain ⟨rfl, hpair⟩ := hpair
    rw [not_not.1 hquote, hasOperator_pair hpair] at h
    cases h
  | case6 prev quote c hquote hc d rest hpair ih =>
    rw [hasOperator, if_neg hquote] at h
    rw [ih (Bool.or_eq_false_iff.1 h).2]

theorem length_le_autospace (prev : Option UInt8) (quote : UInt8) (l : List UInt8) :
    l.length ≤ (autospace prev quote l).length := by
  fun_induction autospace prev quote l with
  | case1 => exact Nat.le_refl _
  | case2 prev quote c rest hquote ih => exact Nat.succ_le_succ ih
  | case3 prev quote rest hquote ih =>
    simp only [List.length_append, List.length_cons]
    omega
  | case4 prev quote c hquote hc => exact Nat.le_refl _
  | case5 prev quote c hquote hc d rest hpair ih =>
    simp only [List.length_cons]
    omega
  | case6 prev quote c hquote hc d rest hpair ih => exact Nat.succ_le_succ ih

theorem length_lt_autospace (h : hasOperator quote l = true) : l.length < (autospace prev quote l).length := by
  fun_induction autospace prev quote l with
  | case1 => cases h
  | case2 prev quote c rest hquote ih =>
    rw [hasOperator, if_pos hquote] at h
    exact Nat.succ_lt_succ (ih h)
  | case3 prev quote rest hquote ih =>
    have hle := length_le_autospace (some GREATER) 0 rest
    simp only [List.length_append, List.length_cons]
    omega
  | case4 prev quote c hquote hc =>
    rw [hasOperator, if_neg hquote] at h
    simp [hc, hasOperator] at h
  | case5 prev quote c hquote hc d rest hpair ih =>
    have hle := length_le_autospace (some d) 0 rest
    simp only [List.length_cons]
    omega
  | case6 prev quote c hquote hc d rest hpair ih =>
    have hpair' : ¬ ((d :: rest).head? = some c ∧ (c = AMPERSAND ∨ c = PIPE)) :=
      fun h => hpair ⟨(Option.some.inj h.1).symm, h.2⟩
    rw [not_not.1 hquote, hasOperator_plain hc hpair'] at h
    exact Nat.succ_lt_succ (ih h)

theorem autospace_eq_self_iff : autospace prev quote l = l ↔ hasOperator quote l = false := by
  refine ⟨fun h => ?_, autospace_eq_self⟩
  by_contra hop
  have hlt := @length_lt_autospace prev quote l (Bool.not_eq_false _ ▸ hop)
  rw [h] at hlt
  exact absurd hlt (Nat.lt_irrefl _)

theorem mem_autospace (h : x ∈ autospace prev quote l) : x ∈ l ∨ x = BLANK := by
  fun_induction autospace prev quote l with
  | case1 => cases h
  | case2 prev quote c rest hquote ih => grind
  | case3 prev quote rest hquote ih =>
    split at h <;> grind
  | case4 prev quote c hquote hc => exact Or.inl h
  | case5 prev quote c hquote hc d rest hpair ih => grind
  | case6 prev quote c hquote hc d rest hpair ih => grind

/-- What `quote` is in the loop. -/
def IsQuote (quote : UInt8) : Prop := quote = 0 ∨ quote = SINGLE ∨ quote = DOUBLE

theorem isQuote_zero : IsQuote 0 := Or.inl rfl

theorem IsQuote.ne (h : IsQuote quote) (hx : x ≠ 0 ∧ x ≠ SINGLE ∧ x ≠ DOUBLE) : quote ≠ x := by
  rcases h with rfl | rfl | rfl
  · exact hx.1.symm
  · exact hx.2.1.symm
  · exact hx.2.2.symm

theorem isQuote_open : IsQuote (if c = SINGLE ∨ c = DOUBLE then c else 0) := by
  split_ifs with h
  · exact Or.inr h
  · exact isQuote_zero

theorem IsQuote.close (h : IsQuote quote) : IsQuote (if quote = c then 0 else quote) := by
  split_ifs
  · exact isQuote_zero
  · exact h

/-- A byte that is part of no pair separates what stands before it from what stands behind it. -/
theorem autospace_append (ht : t ≠ AMPERSAND ∧ t ≠ PIPE) (hquote : IsQuote quote) :
    ∃ prev' quote', IsQuote quote' ∧
      autospace prev quote (l ++ t :: r) = autospace prev quote l ++ autospace prev' quote' (t :: r) := by
  fun_induction autospace prev quote l with
  | case1 prev quote => exact ⟨prev, quote, hquote, rfl⟩
  | case2 prev quote c rest hq ih =>
    obtain ⟨prev', quote', hne, heq⟩ := ih hquote.close
    refine ⟨prev', quote', hne, ?_⟩
    rw [List.cons_append, autospace_quoted hq, heq, List.cons_append]
  | case3 prev quote rest hq ih =>
    obtain ⟨prev', quote', hne, heq⟩ := ih isQuote_zero
    refine ⟨prev', quote', hne, ?_⟩
    rw [List.cons_append, autospace.eq_def]
    dsimp only
    rw [if_neg hq, if_pos rfl, heq]
    simp
  | case4 prev quote c hq hc =>
    have hpair : ¬ ((t :: r).head? = some c ∧ (c = AMPERSAND ∨ c = PIPE)) := by
      rintro ⟨h, hc⟩
      obtain rfl := Option.some.inj h
      exact hc.elim ht.1 ht.2
    refine ⟨some c, if c = SINGLE ∨ c = DOUBLE then c else 0, isQuote_open, ?_⟩
    rw [List.cons_append, List.nil_append, not_not.1 hq, autospace_plain hc hpair]
    rfl
  | case5 prev quote c hq hc d rest hpair ih =>
    obtain ⟨prev', quote', hne, heq⟩ := ih isQuote_zero
    refine ⟨prev', quote', hne, ?_⟩
    rw [List.cons_append, List.cons_append, autospace.eq_def]
    dsimp only
    rw [if_neg hq, if_neg hc, if_pos hpair, heq]
    rfl
  | case6 prev quote c hq hc d rest hpair ih =>
    obtain ⟨prev', quote', hne, heq⟩ := ih isQuote_open
    refine ⟨prev', quote', hne, ?_⟩
    have hpair' : ¬ ((d :: (rest ++ t :: r)).head? = some c ∧ (c = AMPERSAND ∨ c = PIPE)) :=
      fun h => hpair ⟨(Option.some.inj h.1).symm, h.2⟩
    rw [List.cons_append, List.cons_append, not_not.1 hq, autospace_plain hc hpair', ← List.cons_append, heq,
      List.cons_append]

end Glidix.Sh
