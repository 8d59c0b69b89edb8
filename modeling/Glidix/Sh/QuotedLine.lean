import Glidix.Sh.Quoting

/-!
# Which command lines keep their words

A command line of quoted words is cut into these words exactly when no word in single quotes has a backslash and
the spacing of operators sees none: `str_find` and `str_canon` take a backslash between single quotes for an
escape, and `preprocAutospace` takes no backslash for one.
-/

namespace Glidix.Sh

variable {w : QuotedWord} {words : List QuotedWord} {n q r u v z : List UInt8} {more : List (List UInt8)}
  {prev : Option UInt8} {quote c : UInt8} {k : ℕ}

/-! ## Words without backslashes in single quotes -/

/-- The spacing leaves a word as it is, or makes another one of it. -/
theorem autospace_word (hw : w.Plain) (hquote : IsQuote quote) (hr : Ends r)
    (h : strWords (autospace prev quote (w.text ++ r)) = .ok (w.bytes :: more)) :
    ∃ prev' quote', IsQuote quote' ∧ autospace prev quote (w.text ++ r) = w.text ++ autospace prev' quote' r ∧
      strWords (autospace prev' quote' r) = .ok more := by
  obtain ⟨prev', quote', hquote', heq⟩ := autospace_append_ends hquote hr prev w.text
  have hends := @ends_autospace r prev' quote' hquote' hr
  rw [heq] at h ⊢
  suffices hself : autospace prev quote w.text = w.text by
    refine ⟨prev', quote', hquote', by rw [hself], ?_⟩
    rw [hself] at h
    obtain ⟨x, l, htext, hx⟩ := text_eq_cons w
    rw [htext] at h
    exact ((strWords_token hx (htext ▸ passes_text hw (by decide)) hends).1 h).2
  rw [autospace_eq_self_iff]
  by_contra hop
  rw [Bool.not_eq_false] at hop
  cases hquoted : w.quoted with
  | false =>
    have htext : w.text = escape w.bytes := by rw [QuotedWord.text, hquoted]; rfl
    rw [htext] at h hop
    obtain ⟨a, b, y, hbytes, hspaced⟩ := autospace_escape hquote hop prev
    have hne : a ++ [BLANK] ≠ [] := List.append_ne_nil_of_right_ne_nil a (List.cons_ne_nil BLANK [])
    obtain ⟨x, l, hxl⟩ := List.exists_cons_of_ne_nil hne
    have hraw : escape (a ++ [BLANK]) ++ [GREATER] = BACKSLASH :: x :: (escape l ++ [GREATER]) := by
      rw [hxl]
      rfl
    have hpass : passes WHITESPACES QUOTES {} (escape (a ++ [BLANK]) ++ [GREATER]) = some {} := by
      rw [passes_append (passes_escape ..),
        passes_cons (by decide) (findStep_plain (by decide) (by decide) (by decide))]
      rfl
    have hcanon : strCanon (escape (a ++ [BLANK]) ++ [GREATER]) = .ok (a ++ [BLANK] ++ [GREATER]) := by
      rw [strCanon_eq_ok, canonLoop_escape]
      rfl
    have hsplit : autospace prev quote (escape w.bytes) ++ autospace prev' quote' r =
        escape (a ++ [BLANK]) ++ [GREATER] ++ BLANK :: (y ++ autospace prev' quote' r) := by
      rw [hspaced]
      simp
    rw [hraw] at hpass hcanon
    rw [hsplit, hraw, strWords_token (by decide) hpass (Or.inr ⟨_, rfl⟩), hcanon, hbytes] at h
    have hbad := Except.ok.inj h.1
    rw [List.append_assoc] at hbad
    exact absurd (List.cons.inj (List.append_cancel_left hbad)).1 (by decide)
  | true =>
    have htext : w.text = SINGLE :: (w.bytes ++ [SINGLE]) := by rw [QuotedWord.text, hquoted]; rfl
    have hlt := @length_lt_autospace prev quote w.text hop
    obtain ⟨quote₁, hquote₁, hopen⟩ := autospace_single hquote prev (w.bytes ++ [SINGLE])
    obtain ⟨prev₂, quote₂, hquote₂, hclose⟩ :=
      @autospace_append (some SINGLE) quote₁ SINGLE w.bytes [] (by decide) hquote₁
    have hlast : autospace prev₂ quote₂ [SINGLE] = [SINGLE] := by
      obtain ⟨quote₃, -, hlast⟩ := autospace_single hquote₂ prev₂ []
      exact hlast
    have hspaced :
        autospace prev quote w.text = SINGLE :: autospace (some SINGLE) quote₁ w.bytes ++ [SINGLE] := by
      rw [htext, hopen, hclose, hlast]
      rfl
    have hsingle : SINGLE ∉ autospace (some SINGLE) quote₁ w.bytes := fun hmem =>
      (mem_autospace hmem).elim (w.noSingle hquoted) (by decide)
    have hback : BACKSLASH ∉ autospace (some SINGLE) quote₁ w.bytes := fun hmem =>
      (mem_autospace hmem).elim (hw hquoted) (by decide)
    have hpass := @passes_single WHITESPACES QUOTES _ (by decide) hsingle hback
    have hcanon := strCanon_single hsingle hback
    rw [List.cons_append] at hpass hcanon hspaced
    rw [hspaced, strWords_token (by decide) hpass hends, hcanon] at h
    have hbytes := Except.ok.inj h.1
    rw [hspaced, htext, hbytes] at hlt
    exact absurd hlt (Nat.lt_irrefl _)

theorem strWords_words (hw : w.Plain) (hwords : ∀ w ∈ words, w.Plain) :
    strWords (w.text ++ blanked words) = .ok (w.bytes :: words.map QuotedWord.bytes) := by
  have htoken (w : QuotedWord) (hw : w.Plain) (words : List QuotedWord) (ws : List (List UInt8)) :
      strWords (w.text ++ blanked words) = .ok (w.bytes :: ws) ↔ strWords (blanked words) = .ok ws := by
    obtain ⟨x, l, htext, hx⟩ := text_eq_cons w
    rw [htext, strWords_token hx (htext ▸ passes_text hw (by decide)) (ends_blanked words), ← htext]
    exact and_iff_right (strCanon_text hw)
  induction words generalizing w with
  | nil =>
    rw [htoken w hw]
    rfl
  | cons w' words ih =>
    rw [htoken w hw, blanked_cons, List.cons_append, strWords_blank]
    exact ih (hwords w' List.mem_cons_self) fun w h => hwords w (List.mem_cons_of_mem _ h)

theorem autospace_words (hw : w.Plain) (hwords : ∀ w ∈ words, w.Plain) (hquote : IsQuote quote)
    (h : strWords (autospace prev quote (w.text ++ blanked words)) = .ok (w.bytes :: words.map QuotedWord.bytes)) :
    autospace prev quote (w.text ++ blanked words) = w.text ++ blanked words := by
  induction words generalizing w prev quote with
  | nil =>
    obtain ⟨prev', quote', -, heq, -⟩ := autospace_word hw hquote (ends_blanked []) h
    exact heq
  | cons w' words ih =>
    obtain ⟨prev', quote', hquote', heq, hrest⟩ := autospace_word hw hquote (ends_blanked _) h
    rw [blanked_cons, List.cons_append, autospace_blank hquote'] at heq hrest
    rw [strWords_blank] at hrest
    rw [blanked_cons, List.cons_append, heq,
      ih (hwords w' List.mem_cons_self) (fun w h => hwords w (List.mem_cons_of_mem _ h)) hquote' hrest]

end Glidix.Sh
