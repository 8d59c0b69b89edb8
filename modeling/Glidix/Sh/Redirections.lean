import Mathlib.Algebra.GroupWithZero.Nat
import Glidix.Sh.Autospace
import Glidix.Sh.Chains

/-!
# Redirections on a command line

`preprocAutospace` puts spaces around every single `>` and leaves out the one in front when a digit stands there, and
the loop of `cmdRun` takes a token that ends in `>` for a redirection.  The two agree on a line unless it has a `>>`,
or a word that ends in a digit with an operator directly behind it.
-/

namespace Glidix.Sh

open Libc

/-! ## Lines -/

def isWhite (c : UInt8) : Bool := WHITESPACES.contains c

def isDecimal (c : UInt8) : Bool := 0x30 ≤ c && c ≤ 0x39

/-- The character means nothing to the shell. -/
def plainChar (c : UInt8) : Bool :=
  !isWhite c && c ≠ GREATER && c ≠ AMPERSAND && c ≠ PIPE && c ≠ BACKSLASH && c ≠ 0 && !QUOTES.contains c &&
    !isOpening c && !isClosing c

/-- A redirection: the descriptor in front of the operator, whether the operator is `>>`, the space behind it and the
target. -/
structure Redirect where
  number : List UInt8
  append : Bool
  space : List UInt8
  target : List UInt8

inductive Element
  | word (w : List UInt8)
  | redirect (r : Redirect)

/-- The elements of a line with the space in front of each. -/
abbrev CmdLine := List (List UInt8 × Element)

def Redirect.text (r : Redirect) : List UInt8 :=
  r.number ++ GREATER :: (if r.append then [GREATER] else []) ++ r.space ++ r.target

def Element.text : Element → List UInt8
  | .word w => w
  | .redirect r => r.text

/-- A line, with the space at its end. -/
def render (line : CmdLine) (back : List UInt8) : List UInt8 := (line.flatMap fun p => p.1 ++ p.2.text) ++ back

def Plain (w : List UInt8) : Prop := w ≠ [] ∧ ∀ c ∈ w, plainChar c = true

def White (space : List UInt8) : Prop := ∀ c ∈ space, isWhite c = true

/-- The descriptor is a decimal number that an `int` can represent. -/
def Descriptor (number : List UInt8) : Prop :=
  (∀ c ∈ number, isDecimal c = true) ∧ valueFrom 10 0 number ≤ 2147483647

/-- The elements of a line behind `text`.  Words stand apart, and so does a descriptor; a text of digits directly in
front of an operator would be its descriptor. -/
def LineOk : (text : List UInt8) → CmdLine → Prop
  | _, [] => True
  | text, (space, .word w) :: rest => White space ∧ Plain w ∧ (text ≠ [] → space ≠ []) ∧ LineOk w rest
  | text, (space, .redirect r) :: rest =>
    White space ∧ White r.space ∧ Plain r.target ∧ Descriptor r.number ∧
      (text ≠ [] → space = [] → r.number = [] ∧ ¬ text.all isDecimal) ∧ LineOk r.target rest

def CmdLine.words (line : CmdLine) : List (List UInt8) :=
  line.filterMap fun p =>
    match p.2 with
    | .word w => some w
    | .redirect _ => none

/-- The redirections of a line: the descriptor is 1 if none is written. -/
def CmdLine.redirects (line : CmdLine) : List CmdRedir :=
  line.filterMap fun p =>
    match p.2 with
    | .word _ => none
    | .redirect r =>
      some ⟨if r.number = [] then 1 else valueFrom 10 0 r.number, if r.append then .O_APPEND else .O_TRUNC, r.target⟩

/-! ## The tokens of a line -/

def endsInDecimal (text : List UInt8) : Bool := text.getLast?.any isDecimal

/-- A redirection operator stands directly behind a text that ends in a digit. -/
def glued (text space : List UInt8) (r : Redirect) : Bool :=
  decide (space = []) && decide (r.number = []) && endsInDecimal text

def emit (text : List UInt8) : List (List UInt8) := if text = [] then [] else [text]

/-- The tokens from `text` on that the loop over the line sees. -/
def stream : (text : List UInt8) → CmdLine → List (List UInt8)
  | text, [] => emit text
  | text, (_, .word w) :: rest => emit text ++ stream w rest
  | text, (space, .redirect r) :: rest =>
    (if glued text space r then [text ++ [GREATER]] else emit text ++ [r.number ++ [GREATER]]) ++
      (if r.append then [[GREATER]] else []) ++ stream r.target rest

/-- The parts of a line between white space, the first of which has begun with `text`. -/
def splitFrom : (text : List UInt8) → List UInt8 → List (List UInt8)
  | text, [] => emit text
  | text, c :: rest => if isWhite c then emit text ++ splitFrom [] rest else splitFrom (text ++ [c]) rest

section Splitting

variable {text w space l rest : List UInt8} {c : UInt8} {prev : Option UInt8}

theorem splitFrom_append (h : ∀ c ∈ w, isWhite c = false) :
    splitFrom text (w ++ rest) = splitFrom (text ++ w) rest := by
  induction w generalizing text with
  | nil => rw [List.nil_append, List.append_nil]
  | cons c w ih =>
    have hc := h c List.mem_cons_self
    rw [List.cons_append, splitFrom, if_neg (by rw [hc]; decide),
      ih fun c' hc' => h c' (List.mem_cons_of_mem c hc'), List.append_assoc, List.singleton_append]

theorem splitFrom_white (h : White space) :
    splitFrom [] (space ++ rest) = splitFrom [] rest := by
  induction space with
  | nil => rfl
  | cons c space ih =>
    rw [List.cons_append, splitFrom, if_pos (h c List.mem_cons_self)]
    exact ih fun c' hc' => h c' (List.mem_cons_of_mem c hc')

theorem splitFrom_cut (h : White space) (hne : space ≠ []) :
    splitFrom text (space ++ rest) = emit text ++ splitFrom [] rest := by
  cases space with
  | nil => exact absurd rfl hne
  | cons c space =>
    rw [List.cons_append, splitFrom, if_pos (h c List.mem_cons_self),
      splitFrom_white fun c' hc' => h c' (List.mem_cons_of_mem c hc')]

theorem splitFrom_blank : splitFrom text (BLANK :: rest) = emit text ++ splitFrom [] rest :=
  @splitFrom_cut text [BLANK] rest (fun c hc => by rw [List.mem_singleton.1 hc]; rfl) (List.cons_ne_nil _ _)

/-- The bytes that `str_token` steps over outside of quotes and brackets, white space aside. -/
def tokenChar (c : UInt8) : Bool := c ≠ BACKSLASH && c ≠ 0 && !QUOTES.contains c && !isOpening c && !isClosing c

theorem passes_tokenChar (h : ∀ c ∈ w, tokenChar c = true ∧ isWhite c = false) :
    passes WHITESPACES QUOTES {} w = some {} := by
  induction w with
  | nil => rfl
  | cons c w ih =>
    obtain ⟨hc, hwhite⟩ := h c List.mem_cons_self
    simp only [tokenChar, Bool.and_eq_true, Bool.not_eq_true', decide_eq_true_eq] at hc
    have hstep : findStep WHITESPACES QUOTES {} c = some {} := by
      apply findStep_plain
      · simpa [strchr, isWhite, hc.1.1.1.2] using hwhite
      · simpa [strchr, hc.1.1.1.2] using hc.1.1.2
      · exact ⟨hc.1.2, hc.2⟩
    rw [passes_cons hc.1.1.1.1 hstep]
    exact ih fun c' hc' => h c' (List.mem_cons_of_mem c hc')

/-- `str_token` cuts a line without quotes and brackets at its white space. -/
theorem strTokens_splitFrom {fuel : ℕ} (h : ∀ c ∈ l, tokenChar c = true) (hfuel : l.length + 1 < fuel) :
    strTokens fuel (some l) = .ok (splitFrom [] l) := by
  induction fuel generalizing l with
  | zero => omega
  | succ fuel ih =>
    have hsplit := List.takeWhile_append_dropWhile (p := isWhite) (l := l)
    have hspace : White (l.takeWhile isWhite) := fun c hc => List.mem_takeWhile_imp hc
    have hdrop : l.dropWhile (WHITESPACES.contains ·) = l.dropWhile isWhite := rfl
    rw [← hsplit, splitFrom_white hspace, hsplit, strTokens, strToken, hdrop]
    cases htoken : l.dropWhile isWhite with
    | nil => rfl
    | cons x r =>
      have hx : isWhite x = false := by
        have := List.head?_dropWhile_not isWhite l
        simpa [htoken] using this
      have hmem : ∀ c ∈ x :: r, tokenChar c = true := fun c hc =>
        h c ((List.dropWhile_suffix isWhite).subset (htoken ▸ hc))
      have hlen : (x :: r).length ≤ l.length := htoken ▸ (List.dropWhile_suffix isWhite).length_le
      have hcut := List.takeWhile_append_dropWhile (p := fun c => !isWhite c) (l := x :: r)
      have hplain : ∀ c ∈ (x :: r).takeWhile fun c => !isWhite c, tokenChar c = true ∧ isWhite c = false := by
        intro c hc
        have hpos := List.mem_takeWhile_imp hc
        exact ⟨hmem c ((List.takeWhile_prefix _).subset hc), by simpa using hpos⟩
      have hne : (x :: r).takeWhile (fun c => !isWhite c) ≠ [] := by
        simp [hx]
      have hpasses := passes_tokenChar hplain
      have hfind := strFind_append (b := (x :: r).dropWhile fun c => !isWhite c) hpasses
      rw [hcut] at hfind
      simp only [List.cons_ne_nil, if_false]
      rw [hfind]
      generalize (x :: r).takeWhile (fun c => !isWhite c) = t at *
      cases hback : (x :: r).dropWhile fun c => !isWhite c with
      | nil =>
        rw [hback, List.append_nil] at hcut
        obtain ⟨k, rfl⟩ : ∃ k, fuel = k + 1 := ⟨fuel - 1, by omega⟩
        have hparts : splitFrom [] t = [t] := by
          have happ := @splitFrom_append [] _ [] fun c hc => (hplain c hc).2
          rw [List.append_nil, List.nil_append] at happ
          rw [happ, splitFrom, emit, if_neg hne]
        rw [← hcut, hparts]
        rfl
      | cons d r' =>
        have hd : isWhite d = true := by
          have := List.head?_dropWhile_not (fun c => !isWhite c) (x :: r)
          rw [hback] at this
          simpa using this
        have hzero : strFind WHITESPACES QUOTES {} (d :: r') = .ok (some 0) := by
          have hd' : d ≠ BACKSLASH := by
            rintro rfl
            exact absurd hd (by decide)
          have hcases : d = BLANK ∨ d = TAB ∨ d = NEWLINE := by simpa [isWhite, WHITESPACES] using hd
          have hstep : findStep WHITESPACES QUOTES {} d = none := by
            rcases hcases with rfl | rfl | rfl <;> rfl
          rw [strFind_cons hd', hstep]
        rw [hback] at hcut
        have hlen' := congrArg List.length hcut
        simp only [List.length_append, List.length_cons] at hlen' hlen
        have hrest := ih (l := r')
          (fun c hc => hmem c (hcut ▸ List.mem_append_right t (List.mem_cons_of_mem d hc))) (by omega)
        have hparts : splitFrom [] (x :: r) = t :: splitFrom [] r' := by
          rw [← hcut, splitFrom_append fun c hc => (hplain c hc).2, List.nil_append, splitFrom, if_pos hd, emit,
            if_neg hne]
          rfl
        rw [hzero, hparts]
        simp only [Except.map, Option.map, Nat.zero_add]
        rw [← hcut, List.take_left', List.drop_length_add_append, List.drop_succ_cons, List.drop_zero, hrest]
        rfl

end Splitting

/-! ## Spaces around the operators of a line -/

section Spaces

variable {text w space rest : List UInt8} {c : UInt8} {prev : Option UInt8}

/-- The bytes that `preprocAutospace` copies outside of quotes. -/
def copied (c : UInt8) : Bool := c ≠ GREATER && c ≠ AMPERSAND && c ≠ PIPE && c ≠ SINGLE && c ≠ DOUBLE

theorem copied_of_plain (h : plainChar c = true) : copied c = true := by
  simp only [plainChar, Bool.and_eq_true, decide_eq_true_eq, Bool.not_eq_true', QUOTES] at h
  simp only [copied, Bool.and_eq_true, decide_eq_true_eq]
  have hquote : c ≠ DOUBLE ∧ c ≠ SINGLE := by simpa using h.1.1.2
  exact ⟨⟨⟨⟨h.1.1.1.1.1.1.1.2, h.1.1.1.1.1.1.2⟩, h.1.1.1.1.1.2⟩, hquote.2⟩, hquote.1⟩

theorem white_cases (h : isWhite c = true) : c = BLANK ∨ c = TAB ∨ c = NEWLINE := by
  simpa [isWhite, WHITESPACES] using h

theorem copied_of_white (h : isWhite c = true) : copied c = true := by
  rcases white_cases h with rfl | rfl | rfl <;> decide

theorem ne_of_decimal (h : isDecimal c = true) (x : UInt8) (hx : x < 0x30 ∨ 0x39 < x) : c ≠ x := by
  rw [isDecimal, Bool.and_eq_true, decide_eq_true_eq, decide_eq_true_eq] at h
  rintro rfl
  rcases hx with hx | hx
  · exact absurd (UInt8.lt_of_lt_of_le hx h.1) (UInt8.lt_irrefl _)
  · exact absurd (UInt8.lt_of_lt_of_le hx h.2) (UInt8.lt_irrefl _)

theorem plain_of_decimal (h : isDecimal c = true) : plainChar c = true := by
  have hne := ne_of_decimal h
  simp [plainChar, isWhite, WHITESPACES, QUOTES, isOpening, isClosing, hne 0x20 (by decide), hne 0x09 (by decide),
    hne 0x0A (by decide), hne 0x3E (by decide), hne 0x26 (by decide), hne 0x7C (by decide), hne 0x5C (by decide),
    hne 0 (by decide), hne 0x22 (by decide), hne 0x27 (by decide), hne 0x28 (by decide), hne 0x7B (by decide),
    hne 0x29 (by decide), hne 0x7D (by decide)]

theorem white_of_plain (h : plainChar c = true) : isWhite c = false := by
  simp only [plainChar, Bool.and_eq_true, Bool.not_eq_true'] at h
  exact h.1.1.1.1.1.1.1.1

/-- Copied bytes are copied. -/
theorem autospace_copied (h : ∀ c ∈ w, copied c = true) :
    autospace prev 0 (w ++ rest) = w ++ autospace (w.getLast?.or prev) 0 rest := by
  induction w generalizing prev with
  | nil => rfl
  | cons c w ih =>
    have hc := h c List.mem_cons_self
    simp only [copied, Bool.and_eq_true, decide_eq_true_eq] at hc
    have hpair : ¬ ((w ++ rest).head? = some c ∧ (c = AMPERSAND ∨ c = PIPE)) :=
      fun hp => hp.2.elim hc.1.1.1.2 hc.1.1.2
    have hquote : ¬ (c = SINGLE ∨ c = DOUBLE) := fun hq => hq.elim hc.1.2 hc.2
    rw [List.cons_append, autospace_plain hc.1.1.1.1 hpair, if_neg hquote,
      ih fun c' hc' => h c' (List.mem_cons_of_mem c hc'), List.cons_append]
    cases w with
    | nil => rfl
    | cons d w =>
      rw [List.getLast?_cons_cons, List.getLast?_eq_some_getLast (List.cons_ne_nil d w)]
      rfl

theorem autospace_operator (prev : Option UInt8) (rest : List UInt8) :
    autospace prev 0 (GREATER :: rest) =
      (if prev.any (fun c => !isDecimal c) then [BLANK] else []) ++
        GREATER :: BLANK :: autospace (some GREATER) 0 rest := by
  have hprev : (prev.any fun p => p < 0x30 || 0x39 < p) = prev.any fun c => !isDecimal c := by
    cases prev with
    | none => rfl
    | some c =>
      simp only [Option.any_some, isDecimal, Bool.not_and, ← decide_not, UInt8.not_le]
  rw [autospace.eq_def]
  simp [hprev]

/-- The bytes of a line outside of its operators. -/
theorem copied_text (hw : ∀ c ∈ w, plainChar c = true) : ∀ c ∈ w, copied c = true :=
  fun c hc => copied_of_plain (hw c hc)

/-- Behind the first `>` of a redirection. -/
theorem splitFrom_behind (r : Redirect) (hspace : White r.space) (htarget : Plain r.target) :
    splitFrom text (GREATER :: BLANK ::
        autospace (some GREATER) 0 ((if r.append then [GREATER] else []) ++ r.space ++ r.target ++ rest)) =
      [text ++ [GREATER]] ++ (if r.append then [[GREATER]] else []) ++
        splitFrom r.target (autospace r.target.getLast? 0 rest) := by
  have hblank : splitFrom text (GREATER :: BLANK ::
        autospace (some GREATER) 0 ((if r.append then [GREATER] else []) ++ r.space ++ r.target ++ rest)) =
      [text ++ [GREATER]] ++ splitFrom []
        (autospace (some GREATER) 0 ((if r.append then [GREATER] else []) ++ r.space ++ r.target ++ rest)) := by
    rw [splitFrom, if_neg (by decide), splitFrom_blank, emit, if_neg (by simp)]
  have hcopy (prev : Option UInt8) : splitFrom [] (autospace prev 0 (r.space ++ r.target ++ rest)) =
      splitFrom r.target (autospace r.target.getLast? 0 rest) := by
    have hlast : r.target.getLast? = some (r.target.getLast htarget.1) := List.getLast?_eq_some_getLast htarget.1
    rw [List.append_assoc, autospace_copied fun c hc => copied_of_white (hspace c hc),
      autospace_copied (copied_text htarget.2), splitFrom_white hspace,
      splitFrom_append fun c hc => white_of_plain (htarget.2 c hc), List.nil_append, hlast]
    rfl
  rw [hblank]
  refine (congrArg ([text ++ [GREATER]] ++ ·) ?_).trans (List.append_assoc _ _ _).symm
  cases r.append with
  | false => exact hcopy _
  | true =>
    have hprev : (some GREATER).any (fun c => !isDecimal c) = true := by decide
    simp only [if_true, List.cons_append]
    rw [autospace_operator, if_pos hprev, List.singleton_append, splitFrom_blank, splitFrom,
      if_neg (by decide), splitFrom_blank]
    exact congrArg ([GREATER] :: ·) (hcopy _)

/-- In front of an operator that is not glued to a text. -/
theorem splitFrom_number {r : Redirect} {x : List UInt8} (hspace : White space)
    (hnumber : ∀ c ∈ r.number, isDecimal c = true)
    (hsep : text ≠ [] → space = [] → r.number = [] ∧ ¬ text.all isDecimal) (hglued : glued text space r = false) :
    splitFrom text (space ++ (r.number ++
        ((if (r.number.getLast?.or (space.getLast?.or text.getLast?)).any (fun c => !isDecimal c) then [BLANK]
          else []) ++ GREATER :: x))) = emit text ++ splitFrom r.number (GREATER :: x) := by
  by_cases hnil : r.number = []
  · rw [hnil]
    simp only [List.getLast?_nil, Option.none_or, List.nil_append]
    cases hlast : space.getLast? with
    | some c =>
      have hc : isDecimal c = false := by
        rcases white_cases (hspace c (List.mem_of_getLast? hlast)) with rfl | rfl | rfl <;> decide
      have hne : space ≠ [] := by
        rintro rfl
        exact nomatch hlast
      rw [splitFrom_cut hspace hne]
      simp only [Option.some_or, Option.any_some, hc, Bool.not_false, if_true, List.singleton_append]
      rw [splitFrom_blank]
      rfl
    | none =>
      obtain rfl := List.getLast?_eq_none_iff.1 hlast
      cases htext : text.getLast? with
      | none =>
        obtain rfl := List.getLast?_eq_none_iff.1 htext
        rfl
      | some c =>
        have hc : isDecimal c = false := by simpa [glued, hnil, endsInDecimal, htext] using hglued
        simp only [Option.none_or, Option.any_some, hc, Bool.not_false, if_true, List.singleton_append,
          List.nil_append]
        exact splitFrom_blank
  · have hdigit : isDecimal (r.number.getLast hnil) = true := hnumber _ (List.getLast_mem hnil)
    rw [List.getLast?_eq_some_getLast hnil]
    simp only [Option.some_or, Option.any_some, hdigit, Bool.not_true, Bool.false_eq_true, if_false,
      List.nil_append]
    have hwhite : ∀ c ∈ r.number, isWhite c = false := fun c hc => white_of_plain (plain_of_decimal (hnumber c hc))
    by_cases htext : text = []
    · rw [htext, splitFrom_white hspace, splitFrom_append hwhite]
      rfl
    · rw [splitFrom_cut hspace fun hempty => hnil (hsep htext hempty).1, splitFrom_append hwhite]
      rfl

/-- The tokens of a line behind `preprocAutospace`. -/
theorem splitFrom_render {line : CmdLine} {back : List UInt8} (htext : ∀ c ∈ text, plainChar c = true)
    (hok : LineOk text line) (hback : White back) :
    splitFrom text (autospace text.getLast? 0 (render line back)) = stream text line := by
  induction line generalizing text with
  | nil =>
    have hcopy := @autospace_copied back [] text.getLast? fun c hc => copied_of_white (hback c hc)
    rw [List.append_nil, autospace, List.append_nil] at hcopy
    rw [render, List.flatMap_nil, List.nil_append, hcopy, stream]
    by_cases hnil : back = []
    · rw [hnil, splitFrom]
    · have hcut := @splitFrom_cut text back [] hback hnil
      rw [List.append_nil] at hcut
      rw [hcut, splitFrom]
      exact List.append_nil _
  | cons p line ih =>
    obtain ⟨space, e⟩ := p
    cases e with
    | word w =>
      obtain ⟨hspace, hw, hsep, hrest⟩ := hok
      have hlast : w.getLast? = some (w.getLast hw.1) := List.getLast?_eq_some_getLast hw.1
      have hrender : render ((space, .word w) :: line) back = space ++ (w ++ render line back) := by
        simp [render, Element.text]
      rw [hrender, autospace_copied fun c hc => copied_of_white (hspace c hc),
        autospace_copied (copied_text hw.2), stream, ← ih hw.2 hrest, hlast]
      have hcut (x : List UInt8) : splitFrom text (space ++ (w ++ x)) = emit text ++ splitFrom w x := by
        by_cases hnil : text = []
        · rw [hnil, splitFrom_white hspace, splitFrom_append fun c hc => white_of_plain (hw.2 c hc)]
          rfl
        · rw [splitFrom_cut hspace (hsep hnil), splitFrom_append fun c hc => white_of_plain (hw.2 c hc)]
          rfl
      exact hcut _
    | redirect r =>
      obtain ⟨hspace, hrspace, htarget, hnumber, hsep, hrest⟩ := hok
      have hplain : ∀ c ∈ r.number, plainChar c = true := fun c hc => plain_of_decimal (hnumber.1 c hc)
      have hrender : render ((space, .redirect r) :: line) back = space ++ (r.number ++ GREATER ::
          ((if r.append then [GREATER] else []) ++ r.space ++ r.target ++ render line back)) := by
        simp [render, Element.text, Redirect.text]
      rw [hrender, autospace_copied fun c hc => copied_of_white (hspace c hc),
        autospace_copied (copied_text hplain), autospace_operator, stream, ← ih htarget.2 hrest]
      cases hglued : glued text space r with
      | true =>
        simp only [glued, Bool.and_eq_true, decide_eq_true_eq, endsInDecimal] at hglued
        obtain ⟨⟨rfl, hnil⟩, hdec⟩ := hglued
        have hprev : (text.getLast?.any fun c => !isDecimal c) = false := by
          cases hlast : text.getLast? with
          | none => rfl
          | some c =>
            rw [hlast] at hdec
            simpa using hdec
        rw [hnil]
        simp only [List.getLast?_nil, Option.none_or, List.nil_append, hprev, Bool.false_eq_true, if_false, if_true]
        exact splitFrom_behind r hrspace htarget
      | false =>
        have hcut (x : List UInt8) : splitFrom text (space ++ (r.number ++
            ((if (r.number.getLast?.or (space.getLast?.or text.getLast?)).any (fun c => !isDecimal c) then [BLANK]
              else []) ++ GREATER :: x))) = emit text ++ splitFrom r.number (GREATER :: x) :=
          splitFrom_number hspace hnumber.1 hsep hglued
        rw [hcut, splitFrom_behind r hrspace htarget]
        simp only [Bool.false_eq_true, if_false, List.append_assoc]

theorem tokenChar_of_plain (h : plainChar c = true) : tokenChar c = true := by
  simp only [plainChar, Bool.and_eq_true] at h
  simp only [tokenChar, Bool.and_eq_true]
  exact ⟨⟨⟨⟨h.1.1.1.1.2, h.1.1.1.2⟩, h.1.1.2⟩, h.1.2⟩, h.2⟩

theorem tokenChar_of_white (h : isWhite c = true) : tokenChar c = true := by
  rcases white_cases h with rfl | rfl | rfl <;> decide

theorem tokenChar_render {line : CmdLine} {back : List UInt8} (hok : LineOk text line) (hback : White back)
    (hc : c ∈ render line back) : tokenChar c = true := by
  induction line generalizing text with
  | nil => exact tokenChar_of_white (hback c (by simpa [render] using hc))
  | cons p line ih =>
    obtain ⟨space, e⟩ := p
    have hsplit : c ∈ space ∨ c ∈ e.text ∨ c ∈ render line back := by
      simpa [render, or_assoc] using hc
    cases e with
    | word w =>
      obtain ⟨hspace, hw, -, hrest⟩ := hok
      rcases hsplit with h | h | h
      · exact tokenChar_of_white (hspace c h)
      · exact tokenChar_of_plain (hw.2 c h)
      · exact ih hrest h
    | redirect r =>
      obtain ⟨hspace, hrspace, htarget, hnumber, -, hrest⟩ := hok
      rcases hsplit with h | h | h
      · exact tokenChar_of_white (hspace c h)
      · have htext : c ∈ r.number ∨ c = GREATER ∨ c ∈ r.space ∨ c ∈ r.target := by
          cases happend : r.append with
          | false => simpa [Element.text, Redirect.text, happend] using h
          | true => simpa [Element.text, Redirect.text, happend] using h
        rcases htext with h | rfl | h | h
        · exact tokenChar_of_plain (plain_of_decimal (hnumber.1 c h))
        · decide
        · exact tokenChar_of_white (hrspace c h)
        · exact tokenChar_of_plain (htarget.2 c h)
      · exact ih hrest h

/-- What the loop of `cmdRun` sees of a line. -/
theorem strTokens_render {line : CmdLine} {back : List UInt8} (hok : LineOk [] line) (hback : White back) {fuel : ℕ}
    (hfuel : (autospace none 0 (render line back)).length + 1 < fuel) :
    strTokens fuel (some (autospace none 0 (render line back))) = .ok (stream [] line) := by
  rw [strTokens_splitFrom (fun c hc => ?_) hfuel, ← splitFrom_render (List.forall_mem_nil _) hok hback]
  · rfl
  · rcases mem_autospace hc with hc | rfl
    · exact tokenChar_render hok hback hc
    · decide

end Spaces

/-! ## Lines on which the two passes agree -/

/-- No operator is `>>`, and none stands directly behind a text that ends in a digit. -/
def OperatorsFit : (text : List UInt8) → CmdLine → Prop
  | _, [] => True
  | _, (_, .word w) :: rest => OperatorsFit w rest
  | text, (space, .redirect r) :: rest => glued text space r = false ∧ r.append = false ∧ OperatorsFit r.target rest

/-- The line as the words and redirections of a command. -/
def CmdLine.items (line : CmdLine) : List Item :=
  line.map fun p =>
    match p.2 with
    | .word w => .word w
    | .redirect r => .redir (r.number ++ [GREATER]) r.target

section Agreement

variable {text w number : List UInt8} {line : CmdLine} {c : UInt8} {first : Bool}

theorem plainChar_iff : plainChar c = true ↔ isWhite c = false ∧ c ≠ GREATER ∧ c ≠ AMPERSAND ∧ c ≠ PIPE ∧
    c ≠ BACKSLASH ∧ c ≠ 0 ∧ QUOTES.contains c = false ∧ isOpening c = false ∧ isClosing c = false := by
  simp only [plainChar, Bool.and_eq_true, Bool.not_eq_true', decide_eq_true_eq, and_assoc]

theorem canonLoop_plain (h : ∀ c ∈ w, plainChar c = true) : canonLoop {} w = .ok w := by
  induction w with
  | nil => rfl
  | cons c w ih =>
    obtain ⟨-, -, -, -, hback, hzero, hquote, hopen, hclose⟩ := plainChar_iff.1 (h c List.mem_cons_self)
    have hnot : c ∉ QUOTES := by simpa using hquote
    have hstep : canonStep {} c = ([c], {}) := by
      simp [canonStep, hopen, hclose, strchr, hzero, hnot]
    rw [canonLoop_cons hback, hstep, ih fun c' hc' => h c' (List.mem_cons_of_mem c hc')]
    rfl

theorem strCanon_plain (h : ∀ c ∈ w, plainChar c = true) : strCanon w = .ok w :=
  strCanon_eq_ok.2 (canonLoop_plain h)

theorem canon_plain (h : ∀ c ∈ w, plainChar c = true) : canon w = w := by
  rw [canon, strCanon_plain h]

theorem safe_plain (h : ∀ c ∈ w, plainChar c = true) : Safe w := by
  have hlone : lone w = false := by
    have hnot : BACKSLASH ∉ w := fun hmem => (plainChar_iff.1 (h _ hmem)).2.2.2.2.1 rfl
    have happ := lone_append_of_no_backslash (l := []) hnot
    rwa [List.append_nil] at happ
  cases hfind : strFind [EQUALS] QUOTES {} w with
  | error e => exact absurd (strFind_error hfind).2 (by rw [hlone]; decide)
  | ok found => exact ⟨w, found, strCanon_plain h, hfind⟩

theorem getLast?_plain (h : ∀ c ∈ w, plainChar c = true) : w.getLast? ≠ some GREATER := by
  intro hlast
  exact (plainChar_iff.1 (h _ (List.mem_of_getLast? hlast))).2.1 rfl

/-- A plain text is no operator and opens no bracket. -/
theorem plain_word (h : Plain w) :
    w ∉ [[PIPE], [PIPE, PIPE], [AMPERSAND, AMPERSAND]] ∧ w.head?.any isOpening = false := by
  match w, h with
  | c :: w, h =>
    obtain ⟨-, -, hamp, hpipe, -, -, -, hopen, -⟩ := plainChar_iff.1 (h.2 c List.mem_cons_self)
    refine ⟨fun hmem => ?_, hopen⟩
    simp only [List.mem_cons, List.cons.injEq, List.not_mem_nil, or_false] at hmem
    rcases hmem with ⟨hc, -⟩ | ⟨hc, -⟩ | ⟨hc, -⟩
    · exact hpipe hc
    · exact hpipe hc
    · exact hamp hc

theorem itemsOk_items (hok : LineOk text line) : ItemsOk first line.items := by
  induction line generalizing text first with
  | nil => trivial
  | cons p line ih =>
    obtain ⟨space, e⟩ := p
    cases e with
    | word w =>
      obtain ⟨-, hw, -, hrest⟩ := hok
      obtain ⟨hop, hopen⟩ := plain_word hw
      exact ⟨getLast?_plain hw.2, hop, fun h => absurd h (by rw [hopen]; decide), ih hrest⟩
    | redirect r =>
      obtain ⟨-, -, -, -, -, hrest⟩ := hok
      exact ⟨List.getLast?_concat, ih hrest⟩

/-- Where the operators fit, the tokens are the words and the redirections. -/
theorem stream_of_fit (hfit : OperatorsFit text line) (hok : LineOk text line) :
    stream text line = emit text ++ memberTokens line.items := by
  induction line generalizing text with
  | nil => exact (List.append_nil _).symm
  | cons p line ih =>
    obtain ⟨space, e⟩ := p
    cases e with
    | word w =>
      obtain ⟨-, hw, -, hrest⟩ := hok
      rw [stream, ih hfit hrest, emit, emit, if_neg hw.1]
      rfl
    | redirect r =>
      obtain ⟨hglued, happend, hfit⟩ := hfit
      obtain ⟨-, -, htarget, -, -, hrest⟩ := hok
      rw [stream, hglued, happend, ih hfit hrest]
      simp [emit, htarget.1, memberTokens, CmdLine.items, Item.tokens]

theorem isDigit_of_decimal (h : isDecimal c = true) : isDigit 10 c = true := by
  rw [isDecimal, Bool.and_eq_true, decide_eq_true_eq, decide_eq_true_eq] at h
  have hle : c.toNat ≤ 0x39 := UInt8.le_iff_toNat_le.1 h.2
  rw [isDigit, digitOf, if_pos h]
  simp only [Option.any_some, decide_eq_true_eq]
  omega

theorem prefixRead_ten (t : List UInt8) : PrefixRead 10 t := by
  match t with
  | [] => trivial
  | [c] => trivial
  | c :: x :: u => exact fun _ => ⟨fun h => absurd h (by decide), fun h => absurd h (by decide)⟩

theorem subject_number (hne : number ≠ []) (h : ∀ c ∈ number, isDecimal c = true) :
    subject 10 (number ++ [GREATER]) = some ⟨none, valueFrom 10 0 number, [GREATER]⟩ := by
  have hdigits : ∀ c ∈ number, isDigit 10 c = true := fun c hc => isDigit_of_decimal (h c hc)
  have hgreater : isDigit 10 GREATER = false := by decide
  obtain ⟨c, ds, hcons⟩ := List.exists_cons_of_ne_nil hne
  have hc := ne_of_decimal (h c (hcons ▸ List.mem_cons_self))
  have htrim : trimmed (number ++ [GREATER]) = number ++ [GREATER] := by
    rw [hcons]
    apply List.dropWhile_cons_of_neg
    simp [isspace, hc 0x20 (by decide), hc 0x09 (by decide), hc 0x0B (by decide), hc 0x0C (by decide),
      hc 0x0D (by decide), hc 0x0A (by decide)]
  have hsign : splitSign (number ++ [GREATER]) = (none, number ++ [GREATER]) := by
    rw [hcons]
    exact if_neg fun hs => hs.elim (hc PLUS (by decide)) (hc MINUS (by decide))
  have hradix : radixOf 10 (number ++ [GREATER]) = (10, number ++ [GREATER]) :=
    radixOf_of_ne (by decide) (prefixRead_ten _)
  have htake : (number ++ [GREATER]).takeWhile (isDigit 10) = number := by
    rw [List.takeWhile_append_of_pos hdigits, List.takeWhile_cons_of_neg (by rw [hgreater]; decide), List.append_nil]
  have hdrop : (number ++ [GREATER]).dropWhile (isDigit 10) = [GREATER] := by
    rw [List.dropWhile_append_of_pos hdigits, List.dropWhile_cons_of_neg (by rw [hgreater]; decide)]
  rw [subject, htrim, hsign]
  dsimp only
  rw [hradix]
  dsimp only
  rw [htake, hdrop, if_neg hne]

/-- The descriptor of a redirection is read. -/
theorem scanFd_number (hne : number ≠ []) (h : Descriptor number) :
    scanFd (number ++ [GREATER]) = valueFrom 10 0 number := by
  have hsubject := subject_number hne h.1
  have hfits : ScanFits .none .d (number ++ [GREATER]) := by
    simp only [ScanFits, ConvSpec.isSigned, if_true, IntFits, ConvSpec.base]
    rw [hsubject]
    refine ⟨?_, h.2, by simp +decide⟩
    rw [PrefixScanned, if_neg (by decide)]
    exact prefixRead_ten _
  have hright := (scanRight_iff .none .d).2 hfits
  simp only [ScanRight, ConvSpec.base] at hright
  rw [hsubject] at hright
  have hstored := hright.2.2 (by
    have hle := h.2
    simp only [InType, ConvSpec.isSigned, if_true, Numeral.signed, LenMod.intLimit]
    simp only [reduceCtorEq, if_false]
    omega)
  rw [scanFd, hstored]
  rfl

theorem redirOf_number (h : Descriptor number) :
    redirOf (number ++ [GREATER]) = (if number = [] then 1 else (valueFrom 10 0 number : ℤ), .O_TRUNC) := by
  by_cases hnil : number = []
  · rw [hnil]
    rfl
  · have hlen := List.length_pos_of_ne_nil hnil
    have hdigit := h.1 _ (List.getLast_mem hnil)
    have hsplit := List.dropLast_append_getLast hnil
    have hlast : ¬ number.getLast hnil = GREATER := fun he => absurd (he ▸ hdigit) (by decide)
    have htwo : ¬ number ++ [GREATER] = [GREATER, GREATER] := by
      intro heq
      have hone : number = [GREATER] := (List.append_left_inj [GREATER]).1 heq
      exact absurd (h.1 GREATER (by rw [hone]; exact List.mem_singleton_self _)) (by decide)
    have hdrop : ¬ (number ++ [GREATER]).drop ((number ++ [GREATER]).length - 2) = [GREATER, GREATER] := by
      rw [← hsplit, List.append_assoc]
      simp [hlast]
    rw [redirOf, if_neg (by simp; omega), if_neg htwo, if_neg hdrop, scanFd_number hnil h, if_neg hnil]

theorem wordsOf_items (line : CmdLine) : wordsOf line.items = line.words := by
  rw [wordsOf, CmdLine.items, CmdLine.words, List.filterMap_map]
  congr 1
  funext p
  obtain ⟨space, e⟩ := p
  cases e <;> rfl

theorem plain_words (hok : LineOk text line) (hw : w ∈ line.words) : Plain w := by
  induction line generalizing text with
  | nil => exact nomatch hw
  | cons p line ih =>
    obtain ⟨space, e⟩ := p
    cases e with
    | word w' =>
      obtain ⟨-, hw', -, hrest⟩ := hok
      rcases List.mem_cons.1 hw with rfl | hw
      · exact hw'
      · exact ih hrest hw
    | redirect r =>
      obtain ⟨-, -, -, -, -, hrest⟩ := hok
      exact ih hrest hw

/-- The member that the line stands for. -/
theorem memberOf_items (hok : LineOk text line) (hfit : OperatorsFit text line) :
    memberOf line.items = ⟨line.words, line.redirects⟩ := by
  have hwords : (wordsOf line.items).map canon = line.words := by
    rw [wordsOf_items]
    exact (List.map_congr_left fun w hw => canon_plain (plain_words hok hw).2).trans (List.map_id _)
  have hredirs : line.items.filterMap Item.redir? = line.redirects := by
    clear hwords
    induction line generalizing text with
    | nil => rfl
    | cons p line ih =>
      obtain ⟨space, e⟩ := p
      cases e with
      | word w => exact ih hok.2.2.2 hfit
      | redirect r =>
        obtain ⟨-, happend, hfit⟩ := hfit
        obtain ⟨-, -, -, hnumber, -, hrest⟩ := hok
        have hhead : Item.redir? (.redir (r.number ++ [GREATER]) r.target) =
            some ⟨if r.number = [] then 1 else valueFrom 10 0 r.number, .O_TRUNC, r.target⟩ := by
          rw [Item.redir?, redirOf_number hnumber]
        have htail := ih hrest hfit
        rw [CmdLine.items, CmdLine.redirects] at htail ⊢
        rw [List.map_cons, List.filterMap_cons_some hhead, htail, List.filterMap_cons]
        simp [happend]
  rw [memberOf, hwords, hredirs]

/-- `preprocAutospace` and the loop of `cmdRun` make the command of the line. -/
def LineParsed (line : CmdLine) (back : List UInt8) : Prop :=
  ∃ out s, preprocAutospace (render line back) = .ok out ∧ cmdParse out = .ok s ∧ s.groups = [] ∧ s.others = [] ∧
    s.currentMember = ⟨line.words, line.redirects⟩

theorem lineParsed_of_fit {back : List UInt8} (hok : LineOk [] line) (hback : White back)
    (hfit : OperatorsFit [] line) : LineParsed line back := by
  have hstream : stream [] line = memberTokens line.items := stream_of_fit hfit hok
  have hreach := reaches_member (s := .init) rfl (@itemsOk_items [] line true hok) fun _ => rfl
  have hsafe : ∀ token ∈ wordsOf line.items, Safe token := by
    intro token htoken
    rw [wordsOf_items] at htoken
    exact safe_plain (plain_words hok htoken).2
  rcases hreach with ⟨-, hparse⟩ | ⟨hbad, -⟩
  · refine ⟨_, ParseState.init.addMember line.items, preprocAutospace_eq _, ?_, rfl, rfl, ?_⟩
    · rw [cmdParse, strTokens_render hok hback (Nat.lt_succ_self _), hstream]
      dsimp only
      rw [hparse]
      rfl
    · rw [← memberOf_items hok hfit]
      rfl
  · exact absurd hsafe hbad

end Agreement

/-! ## Lines on which they do not -/

section Counting

variable {text w : List UInt8} {line : CmdLine} {s : ParseState} {tokens : List (List UInt8)}

/-- A token of a line: plain, but for a `>` at its end. -/
def LineToken (token : List UInt8) : Prop :=
  Plain token ∨ ∃ w, (∀ c ∈ w, plainChar c = true) ∧ token = w ++ [GREATER]

/-- The number of `>` that the loop has seen. -/
def ParseState.greaters (s : ParseState) : ℕ :=
  (s.currentMember.tokens.map (List.count GREATER)).sum +
    (s.currentMember.redir.map fun r => 1 + r.targetName.count GREATER).sum + (if s.nextRedir.isSome then 1 else 0)

/-- The number of tokens that it has seen. -/
def ParseState.seen (s : ParseState) : ℕ :=
  s.currentMember.tokens.length + 2 * s.currentMember.redir.length + (if s.nextRedir.isSome then 1 else 0)

theorem count_plain (h : ∀ c ∈ w, plainChar c = true) : w.count GREATER = 0 :=
  List.count_eq_zero.2 fun hmem => (plainChar_iff.1 (h _ hmem)).2.1 rfl

/-- What the loop does with one token of a line. -/
theorem parseToken_counts {token : List UInt8} (h : LineToken token) :
    ∃ s', parseToken s token = .ok s' ∧ s'.greaters = s.greaters + token.count GREATER ∧ s'.seen = s.seen + 1 ∧
      (Plain token → s'.nextRedir = none) := by
  cases hnext : s.nextRedir with
  | some r =>
    refine ⟨s.addRedir ⟨r.1, r.2, token⟩, ?_, ?_, ?_, fun _ => rfl⟩
    · rw [parseToken, hnext]
    · simp [ParseState.greaters, ParseState.addRedir, hnext]
      omega
    · simp [ParseState.seen, ParseState.addRedir, hnext]
      omega
  | none =>
    rcases h with hplain | ⟨w, hw, rfl⟩
    · obtain ⟨hop, hopen⟩ := plain_word hplain
      have hok : ItemsOk false [.word token] :=
        ⟨getLast?_plain hplain.2, hop, fun h => absurd h (by rw [hopen]; decide), trivial⟩
      rcases reaches_word hnext hok (fun h => by cases h) with ⟨-, hparse⟩ | ⟨hbad, -⟩
      · refine ⟨s.addToken (canon token) (assigns token), ?_, ?_, ?_, fun _ => hnext⟩
        · have hsingle : parseTokens s [token] = (parseToken s token).bind fun s => .ok s := rfl
          rw [hsingle] at hparse
          cases hstep : parseToken s token with
          | error e =>
            rw [hstep] at hparse
            cases hparse
          | ok s' =>
            rw [hstep] at hparse
            exact hparse
        · simp [ParseState.greaters, ParseState.addToken, canon_plain hplain.2, count_plain hplain.2, hnext]
        · simp [ParseState.seen, ParseState.addToken, hnext]
          omega
      · exact absurd (safe_plain hplain.2) hbad
    · refine ⟨{ s with nextRedir := some (redirOf (w ++ [GREATER])) }, ?_, ?_, ?_, fun hplain => ?_⟩
      · rw [parseToken, hnext]
        exact if_pos List.getLast?_concat
      · simp [ParseState.greaters, count_plain hw, hnext]
      · simp [ParseState.seen, hnext]
      · exact absurd List.getLast?_concat (getLast?_plain hplain.2)

/-- What it does with all of them. -/
theorem parseTokens_counts (h : ∀ token ∈ tokens, LineToken token) :
    ∃ s', parseTokens s tokens = .ok s' ∧ s'.greaters = s.greaters + (tokens.map (List.count GREATER)).sum ∧
      s'.seen = s.seen + tokens.length ∧
      ((tokens = [] → s.nextRedir = none) → (∀ token ∈ tokens.getLast?, Plain token) → s'.nextRedir = none) := by
  induction tokens generalizing s with
  | nil => exact ⟨s, rfl, rfl, rfl, fun h _ => h rfl⟩
  | cons token tokens ih =>
    obtain ⟨s₁, hstep, hgreaters, hseen, hplain⟩ := parseToken_counts (s := s) (h token List.mem_cons_self)
    obtain ⟨s₂, hrest, hgreaters', hseen', hlast⟩ := ih (s := s₁) fun t ht => h t (List.mem_cons_of_mem token ht)
    refine ⟨s₂, ?_, ?_, ?_, fun _ hend => ?_⟩
    · rw [parseTokens, List.foldlM_cons, hstep]
      exact hrest
    · rw [hgreaters', hgreaters, List.map_cons, List.sum_cons, Nat.add_assoc]
    · rw [hseen', hseen, List.length_cons]
      omega
    · cases tokens with
      | nil => exact hlast (fun _ => hplain (hend token rfl)) (fun t ht => by cases ht)
      | cons t ts =>
        refine hlast (fun hnil => by cases hnil) fun t' ht' => hend t' ?_
        rwa [List.getLast?_cons_cons]

def appends : CmdLine → ℕ
  | [] => 0
  | (_, .word _) :: rest => appends rest
  | (_, .redirect r) :: rest => (if r.append then 1 else 0) + appends rest

def gluedCount : (text : List UInt8) → CmdLine → ℕ
  | _, [] => 0
  | _, (_, .word w) :: rest => gluedCount w rest
  | text, (space, .redirect r) :: rest => (if glued text space r then 1 else 0) + gluedCount r.target rest

theorem operatorsFit_iff : OperatorsFit text line ↔ appends line = 0 ∧ gluedCount text line = 0 := by
  induction line generalizing text with
  | nil => exact iff_of_true trivial ⟨rfl, rfl⟩
  | cons p line ih =>
    obtain ⟨space, e⟩ := p
    cases e with
    | word w => exact ih
    | redirect r =>
      rw [OperatorsFit, ih, appends, gluedCount]
      cases glued text space r <;> cases r.append <;> simp

theorem stream_ne_nil (h : text ≠ []) : stream text line ≠ [] := by
  cases line with
  | nil => simp [stream, emit, h]
  | cons p line =>
    obtain ⟨space, e⟩ := p
    cases e with
    | word w => simp [stream, emit, h]
    | redirect r =>
      rw [stream]
      split <;> simp

theorem emit_token (htext : ∀ c ∈ text, plainChar c = true) {token : List UInt8} (h : token ∈ emit text) :
    Plain token := by
  unfold emit at h
  split at h
  · exact nomatch h
  · next hne =>
    obtain rfl := List.mem_singleton.1 h
    exact ⟨hne, htext⟩

theorem count_emit (htext : ∀ c ∈ text, plainChar c = true) : ((emit text).map (List.count GREATER)).sum = 0 := by
  unfold emit
  split
  · rfl
  · simp [count_plain htext]

/-- The tokens of a line, how many there are, and how many `>` are in them. -/
theorem stream_counts (htext : ∀ c ∈ text, plainChar c = true) (hok : LineOk text line) :
    (∀ token ∈ stream text line, LineToken token) ∧ (∀ token ∈ (stream text line).getLast?, Plain token) ∧
      ((stream text line).map (List.count GREATER)).sum = line.redirects.length + appends line ∧
      (stream text line).length + gluedCount text line =
        (emit text).length + line.words.length + 2 * line.redirects.length + appends line := by
  induction line generalizing text with
  | nil =>
    refine ⟨fun t ht => Or.inl (emit_token htext ht), fun t ht => ?_, count_emit htext, rfl⟩
    exact emit_token htext (List.mem_of_getLast? ht)
  | cons p line ih =>
    obtain ⟨space, e⟩ := p
    cases e with
    | word w =>
      obtain ⟨-, hw, -, hrest⟩ := hok
      obtain ⟨htokens, hlast, hcount, hlen⟩ := ih hw.2 hrest
      have hone : (emit w).length = 1 := by rw [emit, if_neg hw.1]; rfl
      rw [stream]
      refine ⟨fun t ht => ?_, ?_, ?_, ?_⟩
      · rcases List.mem_append.1 ht with ht | ht
        · exact Or.inl (emit_token htext ht)
        · exact htokens t ht
      · rwa [List.getLast?_append_of_ne_nil _ (stream_ne_nil hw.1)]
      · rw [List.map_append, List.sum_append, count_emit htext, hcount]
        exact Nat.zero_add _
      · have hwords : (CmdLine.words ((space, .word w) :: line)).length = (CmdLine.words line).length + 1 := rfl
        have hredirs : CmdLine.redirects ((space, .word w) :: line) = CmdLine.redirects line := rfl
        rw [List.length_append, gluedCount, hwords, hredirs, appends]
        omega
    | redirect r =>
      obtain ⟨-, -, htarget, hnumber, -, hrest⟩ := hok
      obtain ⟨htokens, hlast, hcount, hlen⟩ := ih htarget.2 hrest
      have hplain : ∀ c ∈ r.number, plainChar c = true := fun c hc => plain_of_decimal (hnumber.1 c hc)
      have hone : (emit r.target).length = 1 := by rw [emit, if_neg htarget.1]; rfl
      have hwords : CmdLine.words ((space, .redirect r) :: line) = CmdLine.words line := rfl
      have hredirs : (CmdLine.redirects ((space, .redirect r) :: line)).length =
          (CmdLine.redirects line).length + 1 := rfl
      rw [stream]
      refine ⟨fun t ht => ?_, ?_, ?_, ?_⟩
      · rcases List.mem_append.1 ht with ht | ht
        · rcases List.mem_append.1 ht with ht | ht
          · split at ht
            · exact Or.inr ⟨text, htext, List.mem_singleton.1 ht⟩
            · rcases List.mem_append.1 ht with ht | ht
              · exact Or.inl (emit_token htext ht)
              · exact Or.inr ⟨r.number, hplain, List.mem_singleton.1 ht⟩
          · split at ht
            · exact Or.inr ⟨[], fun c hc => (nomatch hc), List.mem_singleton.1 ht⟩
            · exact nomatch ht
        · exact htokens t ht
      · rwa [List.getLast?_append_of_ne_nil _ (stream_ne_nil htarget.1)]
      · rw [hredirs, appends, List.map_append, List.map_append, List.sum_append, List.sum_append, hcount]
        have htextCount := count_plain htext
        have hnumberCount := count_plain hplain
        have hemit := count_emit htext
        split
        · split <;> simp [htextCount] <;> omega
        · split <;> simp [hnumberCount] at hemit ⊢ <;> omega
      · rw [hwords, hredirs, appends, gluedCount, List.length_append, List.length_append]
        cases hglued : glued text space r with
        | true =>
          have hne : text ≠ [] := by
            rintro rfl
            simp [glued, endsInDecimal] at hglued
          have htextOne : (emit text).length = 1 := by rw [emit, if_neg hne]; rfl
          cases r.append <;> simp [htextOne] <;> omega
        | false => cases r.append <;> simp <;> omega

theorem plain_redirects (hok : LineOk text line) {r : CmdRedir} (hr : r ∈ CmdLine.redirects line) :
    ∀ c ∈ r.targetName, plainChar c = true := by
  induction line generalizing text with
  | nil => exact nomatch hr
  | cons p line ih =>
    obtain ⟨space, e⟩ := p
    cases e with
    | word w => exact ih hok.2.2.2 hr
    | redirect r' =>
      obtain ⟨-, -, htarget, -, -, hrest⟩ := hok
      rcases List.mem_cons.1 hr with rfl | hr
      · exact htarget.2
      · exact ih hrest hr

theorem sum_eq_length {α : Type} {f : α → ℕ} {n : ℕ} {l : List α} (h : ∀ x ∈ l, f x = n) :
    (l.map f).sum = n * l.length := by
  induction l with
  | nil => rfl
  | cons x l ih =>
    rw [List.map_cons, List.sum_cons, h x List.mem_cons_self, ih fun y hy => h y (List.mem_cons_of_mem x hy),
      List.length_cons, Nat.mul_succ, Nat.add_comm]

/-- Where an operator does not fit, the command is another one. -/
theorem fit_of_lineParsed {back : List UInt8} (hok : LineOk [] line) (hback : White back)
    (h : LineParsed line back) : OperatorsFit [] line := by
  obtain ⟨out, s, hout, hparse, -, -, hmember⟩ := h
  obtain rfl := Except.ok.inj ((preprocAutospace_eq _).symm.trans hout)
  obtain ⟨htokens, hlast, hcount, hlen⟩ := stream_counts (List.forall_mem_nil _) hok
  obtain ⟨s', hs', hgreaters, hseen, hnext⟩ := parseTokens_counts (s := .init) htokens
  have hnone : s'.nextRedir = none := hnext (fun _ => rfl) hlast
  rw [cmdParse, strTokens_render hok hback (Nat.lt_succ_self _)] at hparse
  dsimp only at hparse
  rw [hs'] at hparse
  have hsame : s' = s := by
    have hfinish : s'.finish = s' := by rw [ParseState.finish, hnone]
    exact hfinish.symm.trans (Except.ok.inj hparse)
  subst hsame
  have hwords : ((CmdLine.words line).map (List.count GREATER)).sum = 0 := by
    rw [sum_eq_length (n := 0) fun w hw => count_plain (plain_words hok hw).2, Nat.zero_mul]
  have hredirs : ((CmdLine.redirects line).map fun r => 1 + r.targetName.count GREATER).sum =
      (CmdLine.redirects line).length := by
    rw [sum_eq_length (n := 1) fun r hr => by rw [count_plain (plain_redirects hok hr)], Nat.one_mul]
  rw [ParseState.greaters, hmember, hnone] at hgreaters
  rw [ParseState.seen, hmember, hnone] at hseen
  simp only [hwords, hredirs, hcount, Option.isSome_none, Bool.false_eq_true, if_false] at hgreaters hseen
  rw [operatorsFit_iff]
  simp only [ParseState.greaters, ParseState.seen, ParseState.init, emit] at hgreaters hseen hlen
  simp at hgreaters hseen hlen
  omega

end Counting

/-- The two passes make the command of a line exactly if its operators fit. -/
theorem lineParsed_iff {line : CmdLine} {back : List UInt8} (hok : LineOk [] line) (hback : White back) :
    LineParsed line back ↔ OperatorsFit [] line :=
  ⟨fit_of_lineParsed hok hback, lineParsed_of_fit hok hback⟩

/-- The line `a 2>f`. -/
theorem lineParsed_descriptor :
    LineParsed [([], .word [0x61]), ([BLANK], .redirect ⟨[0x32], false, [], [0x66]⟩)] [] ↔
      OperatorsFit [] [([], .word [0x61]), ([BLANK], .redirect ⟨[0x32], false, [], [0x66]⟩)] := by
  apply lineParsed_iff
  · have hplain {c : UInt8} (hc : plainChar c = true) : Plain [c] :=
      ⟨List.cons_ne_nil _ _, fun d hd => by rw [List.mem_singleton.1 hd]; exact hc⟩
    have hwhite : White [BLANK] := fun c hc => by rw [List.mem_singleton.1 hc]; rfl
    have hnumber : Descriptor [0x32] := ⟨fun c hc => by rw [List.mem_singleton.1 hc]; rfl, by decide⟩
    refine ⟨List.forall_mem_nil _, hplain rfl, fun h => absurd rfl h, ?_⟩
    exact ⟨hwhite, List.forall_mem_nil _, hplain rfl, hnumber, fun _ h => absurd h (List.cons_ne_nil _ _), trivial⟩
  · exact List.forall_mem_nil _

/-- In `a >>f` the target is taken to be `>`. -/
theorem lineParsed_append_fails :
    ¬ LineParsed [([], .word [0x61]), ([BLANK], .redirect ⟨[], true, [], [0x66]⟩)] [] := by
  rintro ⟨out, s, hout, hparse, -, -, hmember⟩
  obtain rfl := Except.ok.inj ((preprocAutospace_eq _).symm.trans hout)
  have hrun : s.currentMember = ⟨[[0x61], [0x66]], [⟨1, .O_TRUNC, [GREATER]⟩]⟩ := by
    rw [← Except.ok.inj hparse]
    rfl
  rw [hrun] at hmember
  exact absurd hmember (by decide)

end Glidix.Sh
