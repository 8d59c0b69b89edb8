import Glidix.Sh.Autospace
import Glidix.Sh.Tokens

/-!
# Command lines of quoted words

A word of a command line has a backslash before every byte, or stands in single quotes.  The spacing of operators
either leaves the words of a line as they are, or the first word it changes becomes another one.
-/

namespace Glidix.Sh

/-- A word with the way it is quoted.  Single quotes are not for words that have one. -/
structure QuotedWord where
  bytes : List UInt8
  quoted : Bool
  nonempty : bytes ≠ []
  terminated : 0 ∉ bytes
  oneLine : NEWLINE ∉ bytes
  noSingle : quoted = true → SINGLE ∉ bytes

def QuotedWord.text (w : QuotedWord) : List UInt8 :=
  if w.quoted then SINGLE :: w.bytes ++ [SINGLE] else escape w.bytes

def commandLine (words : List QuotedWord) : List UInt8 := [BLANK].intercalate (words.map QuotedWord.text)

/-- A word in single quotes has no backslash. -/
def QuotedWord.Plain (w : QuotedWord) : Prop := w.quoted = true → BACKSLASH ∉ w.bytes

/-- The words with a blank before each. -/
def blanked (words : List QuotedWord) : List UInt8 := words.flatMap fun w => BLANK :: w.text

variable {w : QuotedWord} {words : List QuotedWord} {n q r u : List UInt8} {more : List (List UInt8)}
  {prev : Option UInt8} {quote c x : UInt8} {s : ScanState}

theorem blanked_cons (w : QuotedWord) (words : List QuotedWord) :
    blanked (w :: words) = BLANK :: w.text ++ blanked words := rfl

theorem blanked_commandLine (hwords : words ≠ []) : blanked words = BLANK :: commandLine words := by
  induction words with
  | nil => exact absurd rfl hwords
  | cons w words ih =>
    cases words with
    | nil => simp [blanked, commandLine, List.intercalate]
    | cons w' words =>
      rw [blanked_cons, ih (by simp)]
      simp [commandLine, List.intercalate]

theorem commandLine_cons (w : QuotedWord) (words : List QuotedWord) :
    commandLine (w :: words) = w.text ++ blanked words :=
  (List.cons.inj (blanked_commandLine (List.cons_ne_nil w words))).2.symm

theorem text_eq_cons (w : QuotedWord) : ∃ x l, w.text = x :: l ∧ x ∉ WHITESPACES := by
  unfold QuotedWord.text
  split_ifs
  · exact ⟨SINGLE, _, rfl, by decide⟩
  · obtain ⟨c, l, hbytes⟩ := List.exists_cons_of_ne_nil w.nonempty
    rw [hbytes]
    exact ⟨BACKSLASH, _, rfl, by decide⟩

theorem passes_text (hw : w.Plain) (hq : SINGLE ∈ q) : passes n q {} w.text = some {} := by
  unfold QuotedWord.text
  split_ifs with h
  · exact passes_single hq (w.noSingle h) (hw h)
  · exact passes_escape n q {} w.bytes

theorem strCanon_text (hw : w.Plain) : strCanon w.text = .ok w.bytes := by
  unfold QuotedWord.text
  split_ifs with h
  · exact strCanon_single (w.noSingle h) (hw h)
  · exact strCanon_escape w.bytes

/-- No backslash is left over at the end of a word. -/
theorem lone_text (w : QuotedWord) (r : List UInt8) : lone (w.text ++ r) = lone r := by
  have hquoted : ∀ u : List UInt8, lone (u ++ SINGLE :: r) = lone r ∧
      lone (BACKSLASH :: (u ++ SINGLE :: r)) = lone r := by
    intro u
    induction u with
    | nil => exact ⟨lone_cons (by decide), lone_escaped SINGLE⟩
    | cons c u ih =>
      rw [List.cons_append, lone_escaped]
      refine ⟨?_, ih.1⟩
      by_cases hc : c = BACKSLASH
      · rw [hc]
        exact ih.2
      · rw [lone_cons hc]
        exact ih.1
  have hescape : ∀ u : List UInt8, lone (escape u ++ r) = lone r := by
    intro u
    induction u with
    | nil => rfl
    | cons c u ih => rw [escape_cons, List.cons_append, List.cons_append, lone_escaped, ih]
  unfold QuotedWord.text
  split_ifs
  · rw [List.append_assoc, List.cons_append, lone_cons (by decide)]
    exact (hquoted w.bytes).1
  · exact hescape w.bytes

theorem lone_blanked (words : List QuotedWord) (r : List UInt8) : lone (blanked words ++ r) = lone r := by
  induction words with
  | nil => rfl
  | cons w words ih =>
    rw [blanked_cons, List.append_assoc, List.cons_append, lone_cons (by decide), lone_text, ih]

/-! ## Words and operators -/

/-- The first operator of escaped bytes is a `>`, which gets its blank between the backslash and itself. -/
theorem autospace_escape (hquote : IsQuote quote) (h : hasOperator quote (escape u) = true)
    (prev : Option UInt8) :
    ∃ a b z, u = a ++ GREATER :: b ∧
      autospace prev quote (escape u) = escape (a ++ [BLANK]) ++ GREATER :: BLANK :: z := by
  induction u generalizing prev quote with
  | nil => exact nomatch h
  | cons c u ih =>
    have hne : quote ≠ BACKSLASH := hquote.ne (by decide)
    have hhead : (escape u).head? ≠ some c ∨ ¬ (c = AMPERSAND ∨ c = PIPE) := by
      cases u with
      | nil => exact Or.inl nofun
      | cons d u =>
        refine or_iff_not_imp_right.2 fun hc hd => ?_
        obtain rfl := Option.some.inj hd
        exact absurd (not_not.1 hc) (by decide)
    by_cases hzero : quote = 0
    · subst hzero
      have hback : ¬ ((c :: escape u).head? = some BACKSLASH ∧ (BACKSLASH = AMPERSAND ∨ BACKSLASH = PIPE)) :=
        fun h => absurd h.2 (by decide)
      rw [escape_cons, hasOperator_plain (by decide) hback] at h
      rw [escape_cons, autospace_plain (by decide) hback]
      change hasOperator 0 (c :: escape u) = true at h
      change ∃ a b z, c :: u = a ++ GREATER :: b ∧
        BACKSLASH :: autospace (some BACKSLASH) 0 (c :: escape u) = _
      by_cases hc : c = GREATER
      · subst hc
        rw [autospace_greater]
        exact ⟨[], u, autospace (some GREATER) 0 (escape u), rfl, rfl⟩
      · have hpair : ¬ ((escape u).head? = some c ∧ (c = AMPERSAND ∨ c = PIPE)) := by
          rintro ⟨h, h'⟩
          exact hhead.elim (fun hne => hne h) (fun hne => hne h')
        rw [hasOperator_plain hc hpair] at h
        obtain ⟨a, b, z, rfl, heq⟩ := ih isQuote_open h (some c)
        rw [autospace_plain hc hpair, heq]
        exact ⟨c :: a, b, z, rfl, rfl⟩
    · rw [escape_cons, hasOperator_quoted hzero, if_neg hne, hasOperator_quoted hzero] at h
      obtain ⟨a, b, z, rfl, heq⟩ := ih hquote.close h (some c)
      rw [escape_cons, autospace_quoted hzero, if_neg hne, autospace_quoted hzero, heq]
      exact ⟨c :: a, b, z, rfl, rfl⟩

theorem autospace_blank (hquote : IsQuote quote) (l : List UInt8) :
    autospace prev quote (BLANK :: l) = BLANK :: autospace (some BLANK) quote l := by
  have hne : quote ≠ BLANK := hquote.ne (by decide)
  by_cases hzero : quote = 0
  · rw [hzero, autospace_plain (by decide) fun h => absurd h.2 (by decide)]
    rfl
  · rw [autospace_quoted hzero, if_neg hne]

theorem ends_autospace (hquote : IsQuote quote) (hr : Ends r) : Ends (autospace prev quote r) := by
  rcases hr with rfl | ⟨r', rfl⟩
  · exact Or.inl rfl
  · exact Or.inr ⟨_, autospace_blank hquote r'⟩

theorem autospace_append_ends (hquote : IsQuote quote) (hr : Ends r) (prev : Option UInt8) (l : List UInt8) :
    ∃ prev' quote', IsQuote quote' ∧
      autospace prev quote (l ++ r) = autospace prev quote l ++ autospace prev' quote' r := by
  rcases hr with rfl | ⟨r', rfl⟩
  · exact ⟨prev, quote, hquote, by rw [List.append_nil]; exact (List.append_nil _).symm⟩
  · exact autospace_append (by decide) hquote

theorem ends_blanked (words : List QuotedWord) : Ends (blanked words) := by
  cases words with
  | nil => exact Or.inl rfl
  | cons w words => exact Or.inr ⟨_, rfl⟩

/-- Opening a single quote, the bytes after it and what is behind them. -/
theorem autospace_single (hquote : IsQuote quote) (prev : Option UInt8) (l : List UInt8) :
    ∃ quote', IsQuote quote' ∧
      autospace prev quote (SINGLE :: l) = SINGLE :: autospace (some SINGLE) quote' l := by
  by_cases hzero : quote = 0
  · rw [hzero, autospace_plain (by decide) fun h => absurd h.2 (by decide)]
    exact ⟨_, isQuote_open, rfl⟩
  · rw [autospace_quoted hzero]
    exact ⟨_, hquote.close, rfl⟩

end Glidix.Sh
