import Glidix.Sh.QuotedLine

/-!
# Backslashes in single quotes

A run of backslashes in single quotes loses half of them, whatever the passes make of the rest of the line.  So
a line with such a word is not cut into its words.
-/

namespace Glidix.Sh

variable {w : QuotedWord} {words : List QuotedWord} {n q r u v z : List UInt8} {more : List (List UInt8)}
  {prev : Option UInt8} {quote c : UInt8} {k : ℕ}

/-! ## Runs of backslashes -/

def backslashes (k : ℕ) : List UInt8 := List.replicate k BACKSLASH

theorem backslashes_even (m : ℕ) : backslashes (m + m) = escape (backslashes m) := by
  induction m with
  | zero => rfl
  | succ m ih =>
    rw [show m + 1 + (m + 1) = m + m + 1 + 1 by omega]
    change BACKSLASH :: BACKSLASH :: backslashes (m + m) = BACKSLASH :: BACKSLASH :: escape (backslashes m)
    rw [ih]

theorem backslashes_odd (m : ℕ) (c : UInt8) (l : List UInt8) :
    backslashes (m + m + 1) ++ c :: l = escape (backslashes m ++ [c]) ++ l := by
  have hlast : backslashes (m + m + 1) = backslashes (m + m) ++ [BACKSLASH] := List.replicate_succ'
  rw [hlast, backslashes_even, escape_append]
  simp

/-- The first bytes up to a run of backslashes tell how long the run is. -/
theorem backslashes_shorter {u' y : List UInt8} {m : ℕ} (hu' : BACKSLASH ∉ u')
    (hlen : u.length ≤ u'.length) (hm : m < k) (hy : y.head? ≠ some BACKSLASH) :
    u' ++ (backslashes m ++ y) ≠ u ++ (backslashes k ++ v) := by
  intro heq
  obtain ⟨d, rfl⟩ := Nat.exists_eq_add_of_lt hm
  have hlen' : u'.length = u.length := by
    by_contra hne
    have hlt : u.length < u'.length := lt_of_le_of_ne hlen fun h => hne h.symm
    have hget := congrArg (fun l => l[u.length]?) heq
    simp only [List.getElem?_append_left hlt, List.getElem?_append_right (Nat.le_refl _), Nat.sub_self] at hget
    have hback : (backslashes (m + d + 1) ++ v)[0]? = some BACKSLASH := rfl
    rw [hback] at hget
    exact hu' (List.mem_of_getElem? hget)
  obtain ⟨-, hrest⟩ := List.append_inj heq hlen'
  have hsplit : backslashes (m + d + 1) = backslashes m ++ backslashes (d + 1) := by
    unfold backslashes
    rw [List.replicate_append_replicate, Nat.add_assoc]
  rw [hsplit, List.append_assoc] at hrest
  rw [List.append_cancel_left hrest] at hy
  exact hy rfl

theorem autospace_backslashes (hquote : IsQuote quote) (k : ℕ) (prev : Option UInt8) (l : List UInt8) :
    ∃ prev', autospace prev quote (backslashes k ++ l) = backslashes k ++ autospace prev' quote l := by
  induction k generalizing prev with
  | zero => exact ⟨prev, rfl⟩
  | succ k ih =>
    obtain ⟨prev', heq⟩ := ih (some BACKSLASH)
    refine ⟨prev', ?_⟩
    have hback : autospace prev quote (BACKSLASH :: (backslashes k ++ l)) =
        BACKSLASH :: autospace (some BACKSLASH) quote (backslashes k ++ l) := by
      by_cases hzero : quote = 0
      · rw [hzero, autospace_plain (by decide) fun h => absurd h.2 (by decide)]
        rfl
      · rw [autospace_quoted hzero, if_neg (hquote.ne (by decide))]
    change autospace prev quote (BACKSLASH :: (backslashes k ++ l)) = BACKSLASH :: (backslashes k ++ _)
    rw [hback, heq]

/-- The spacing puts at most a blank before a byte. -/
theorem autospace_head (hquote : IsQuote quote) (hc : c ≠ BACKSLASH) (prev : Option UInt8) (z : List UInt8) :
    ∃ d z', autospace prev quote (c :: z) = d :: z' ∧ d ≠ BACKSLASH ∧ (c ≠ SINGLE → d ≠ SINGLE) ∧
      (c = SINGLE → d = SINGLE ∧ (Ends z → Ends z')) := by
  by_cases hsingle : c = SINGLE
  · subst hsingle
    obtain ⟨quote', hquote', heq⟩ := autospace_single hquote prev z
    exact ⟨SINGLE, _, heq, by decide, fun h => absurd rfl h, fun _ => ⟨rfl, ends_autospace hquote'⟩⟩
  · suffices h : ∃ d z', autospace prev quote (c :: z) = d :: z' ∧ (d = c ∨ d = BLANK) by
      obtain ⟨d, z', heq, rfl | rfl⟩ := h
      · exact ⟨d, z', heq, hc, id, fun h => absurd h hsingle⟩
      · exact ⟨BLANK, z', heq, by decide, fun _ => by decide, fun h => absurd h hsingle⟩
    by_cases hzero : quote = 0
    · rw [autospace.eq_def]
      dsimp only
      rw [if_neg (not_not.2 hzero)]
      split
      · next hc =>
        split
        · exact ⟨BLANK, _, rfl, Or.inr rfl⟩
        · exact ⟨GREATER, _, rfl, Or.inl hc.symm⟩
      split
      · exact ⟨c, _, rfl, Or.inl rfl⟩
      split
      · exact ⟨BLANK, _, rfl, Or.inr rfl⟩
      · exact ⟨c, _, rfl, Or.inl rfl⟩
    · exact ⟨c, _, autospace_quoted hzero, Or.inl rfl⟩

/-! ## A word with backslashes -/

/-- The word behind an opening single quote loses half of its first run of backslashes. -/
theorem strWords_backslashes (hquote : IsQuote quote) (hsingle : SINGLE ∉ u) (hu : BACKSLASH ∉ u)
    (hc : c ≠ BACKSLASH) (hz : c ≠ SINGLE ∨ (k + 1) % 2 = 1 ∨ Ends z) :
    strWords (autospace prev quote (SINGLE :: (u ++ (backslashes (k + 1) ++ c :: z)))) ≠
      .ok ((u ++ (backslashes (k + 1) ++ v)) :: more) := by
  intro h
  obtain ⟨quote₁, hquote₁, hopen⟩ := autospace_single hquote prev (u ++ (backslashes (k + 1) ++ c :: z))
  obtain ⟨prev₂, quote₂, hquote₂, happ⟩ := @autospace_append (some SINGLE) quote₁ BACKSLASH u
    (backslashes k ++ c :: z) (by decide) hquote₁
  obtain ⟨prev₃, hrun⟩ := autospace_backslashes hquote₂ (k + 1) prev₂ (c :: z)
  obtain ⟨d, z', hhead, hd, hdsingle, hends⟩ := autospace_head hquote₂ hc prev₃ z
  have hspaced : autospace (some SINGLE) quote₁ (u ++ (backslashes (k + 1) ++ c :: z)) =
      autospace (some SINGLE) quote₁ u ++ (backslashes (k + 1) ++ d :: z') := by
    rw [← hhead, ← hrun]
    exact happ
  have hlen := length_le_autospace (some SINGLE) quote₁ u
  rw [hopen, hspaced] at h
  have hsingle' : SINGLE ∉ autospace (some SINGLE) quote₁ u := fun hmem =>
    (mem_autospace hmem).elim hsingle (by decide)
  have hu' : BACKSLASH ∉ autospace (some SINGLE) quote₁ u := fun hmem =>
    (mem_autospace hmem).elim hu (by decide)
  generalize autospace (some SINGLE) quote₁ u = u' at *
  have hpass (l : List UInt8) : passes WHITESPACES QUOTES {} (SINGLE :: (u' ++ l)) =
      passes WHITESPACES QUOTES inSingle l := by
    rw [passes_cons (by decide) (findStep_open ..), passes_append (passes_inSingle (by decide) hsingle' hu')]
  have hloop (l : List UInt8) : canonLoop {} (SINGLE :: (u' ++ l)) = (canonLoop inSingle l).map (u' ++ ·) := by
    rw [canonLoop_open, canonLoop_inSingle hsingle' hu']
  -- the canonical word: the bytes before the run, half of the run, and no backslash after it
  have hcontra {m : ℕ} (hm : m < k + 1) {y : List UInt8} (hy : y.head? ≠ some BACKSLASH) :
      u ++ (backslashes (k + 1) ++ v) ≠ u' ++ (backslashes m ++ y) :=
    (backslashes_shorter hu' hlen hm hy).symm
  obtain ⟨m, hm | hm⟩ : ∃ m, k + 1 = m + m ∨ k + 1 = m + m + 1 := ⟨(k + 1) / 2, by omega⟩
  · have hrunm : backslashes (k + 1) = escape (backslashes m) := by
      rw [hm, backslashes_even]
    by_cases hdq : d = SINGLE
    · have hz' : Ends z' := by
        have hcq : c = SINGLE := by
          by_contra hne
          exact hdsingle hne hdq
        refine (hends hcq).2 ?_
        rcases hz with h | h | h
        · exact absurd hcq h
        · omega
        · exact h
      have hraw : SINGLE :: (u' ++ (backslashes (k + 1) ++ d :: z')) =
          SINGLE :: (u' ++ (escape (backslashes m) ++ [SINGLE])) ++ z' := by
        rw [hrunm, hdq]
        simp
      have hpassed : passes WHITESPACES QUOTES {} (SINGLE :: (u' ++ (escape (backslashes m) ++ [SINGLE]))) =
          some {} := by
        rw [hpass, passes_append (passes_escape ..), passes_cons (by decide) (findStep_close (by decide))]
        rfl
      rw [hraw, strWords_token (by decide) hpassed hz', strCanon_eq_ok, hloop, canonLoop_escape,
        canonLoop_close] at h
      exact hcontra (by omega) (y := []) (fun h => by cases h) (Except.ok.inj h.1).symm
    · have hraw : SINGLE :: (u' ++ (backslashes (k + 1) ++ d :: z')) =
          SINGLE :: (u' ++ (escape (backslashes m) ++ [d])) ++ z' := by
        rw [hrunm]
        simp
      have hpassed : passes WHITESPACES QUOTES {} (SINGLE :: (u' ++ (escape (backslashes m) ++ [d]))) =
          some inSingle := by
        rw [hpass, passes_append (passes_escape ..), passes_cons hd (findStep_inSingle (by decide) hdq)]
        rfl
      rw [hraw] at h
      obtain ⟨y, hy⟩ := strWords_prefix (by decide) hpassed h
      have hstep : canonStep inSingle d = ([d], inSingle) := by
        simp +decide [canonStep, hdq]
      have hassoc : SINGLE :: (u' ++ (escape (backslashes m) ++ [d])) ++ y =
          SINGLE :: (u' ++ (escape (backslashes m) ++ d :: y)) := by simp
      rw [hassoc, strCanon_eq_ok, hloop, canonLoop_escape, canonLoop_cons hd, hstep] at hy
      cases hrest : canonLoop inSingle y with
      | error e =>
        rw [hrest] at hy
        cases hy
      | ok out =>
        rw [hrest] at hy
        exact hcontra (by omega) (y := d :: out) (fun h => hd (Option.some.inj h)) (Except.ok.inj hy).symm
  · have hraw : SINGLE :: (u' ++ (backslashes (k + 1) ++ d :: z')) =
        SINGLE :: (u' ++ escape (backslashes m ++ [d])) ++ z' := by
      rw [hm, backslashes_odd]
      simp
    have hpassed : passes WHITESPACES QUOTES {} (SINGLE :: (u' ++ escape (backslashes m ++ [d]))) =
        some inSingle := by
      rw [hpass, passes_escape]
    rw [hraw] at h
    obtain ⟨y, hy⟩ := strWords_prefix (by decide) hpassed h
    have hassoc : SINGLE :: (u' ++ escape (backslashes m ++ [d])) ++ y =
        SINGLE :: (u' ++ (escape (backslashes m ++ [d]) ++ y)) := by simp
    rw [hassoc, strCanon_eq_ok, hloop, canonLoop_escape] at hy
    cases hrest : canonLoop inSingle y with
    | error e =>
      rw [hrest] at hy
      cases hy
    | ok out =>
      rw [hrest] at hy
      have hword := (Except.ok.inj hy).symm
      dsimp only at hword
      rw [List.append_assoc] at hword
      exact hcontra (by omega) (y := d :: out) (fun h => hd (Option.some.inj h)) hword

/-! ## Lines with such a word -/

theorem passes_blank (hn : strchr n BLANK = false) : passes n q {} (BLANK :: r) = passes n q {} r :=
  passes_cons (by decide) (findStep_plain hn (by decide) (by decide))

theorem exists_run (hu : BACKSLASH ∈ u) :
    ∃ a k b, u = a ++ (backslashes (k + 1) ++ b) ∧ BACKSLASH ∉ a ∧ b.head? ≠ some BACKSLASH := by
  induction u with
  | nil => exact nomatch hu
  | cons c u ih =>
    by_cases hc : c = BACKSLASH
    · subst hc
      have hrun : ∀ l : List UInt8, ∃ k b, l = backslashes k ++ b ∧ b.head? ≠ some BACKSLASH := by
        intro l
        induction l with
        | nil => exact ⟨0, [], rfl, nofun⟩
        | cons d l ih =>
          by_cases hd : d = BACKSLASH
          · obtain ⟨k, b, rfl, hb⟩ := ih
            exact ⟨k + 1, b, by rw [hd]; rfl, hb⟩
          · exact ⟨0, d :: l, rfl, fun h => hd (Option.some.inj h)⟩
      obtain ⟨k, b, rfl, hb⟩ := hrun u
      exact ⟨[], k, b, rfl, List.not_mem_nil, hb⟩
    · obtain ⟨a, k, b, rfl, ha, hb⟩ := ih ((List.mem_cons.1 hu).resolve_left fun h => hc h.symm)
      exact ⟨c :: a, k, b, rfl, fun h => (List.mem_cons.1 h).elim (fun h => hc h.symm) ha, hb⟩

/-- What the first two passes go over in a word with backslashes. -/
theorem passes_backslashes (hq : SINGLE ∈ q) (hsingle : SINGLE ∉ u) (hu : BACKSLASH ∉ u) (hc : c ≠ BACKSLASH)
    (k : ℕ) : ∃ s, passes n q {} (SINGLE :: (u ++ (backslashes k ++ [c]))) = some s ∧
      (c = SINGLE → k % 2 = 0 → s = {}) := by
  rw [passes_cons (by decide) (findStep_open ..), passes_append (passes_inSingle hq hsingle hu)]
  obtain ⟨m, rfl | rfl⟩ : ∃ m, k = m + m ∨ k = m + m + 1 := ⟨k / 2, by omega⟩
  · rw [backslashes_even, passes_append (passes_escape ..)]
    by_cases hcq : c = SINGLE
    · subst hcq
      exact ⟨{}, passes_cons hc (findStep_close hq), fun _ _ => rfl⟩
    · exact ⟨inSingle, passes_cons hc (findStep_inSingle hq hcq), fun h => absurd h hcq⟩
  · rw [backslashes_odd, List.append_nil, passes_escape]
    exact ⟨inSingle, rfl, fun _ h => by omega⟩

/-- The part of a line up to the first run of backslashes in single quotes and what ends it. -/
structure Spoiled (line start rest : List UInt8) (words : List (List UInt8)) : Prop where
  split : line = start ++ rest
  passes (n : List UInt8) (hn : strchr n BLANK = false) : ∃ s, passes n [SINGLE] {} start = some s
  words_ne (prev : Option UInt8) (quote : UInt8) (z : List UInt8) (hquote : IsQuote quote)
    (hz : rest = [] → z = []) : strWords (autospace prev quote (start ++ z)) ≠ .ok words

theorem spoiled_of_backslash (hw : w.quoted = true) (hback : BACKSLASH ∈ w.bytes) (words : List QuotedWord) :
    ∃ start rest, Spoiled (w.text ++ blanked words) start rest (w.bytes :: words.map QuotedWord.bytes) := by
  obtain ⟨u, k, v, hbytes, hu, hv⟩ := exists_run hback
  have hnoSingle := w.noSingle hw
  rw [hbytes] at hnoSingle ⊢
  have hsingle : SINGLE ∉ u := fun h => hnoSingle (List.mem_append_left _ h)
  have htext : w.text = SINGLE :: (u ++ (backslashes (k + 1) ++ (v ++ [SINGLE]))) := by
    rw [QuotedWord.text, if_pos hw, hbytes]
    simp
  cases v with
  | cons c v =>
    have hc : c ≠ BACKSLASH := fun h => hv (congrArg some h)
    have hcq : c ≠ SINGLE := fun h => hnoSingle (by simp [h])
    refine ⟨SINGLE :: (u ++ (backslashes (k + 1) ++ [c])), v ++ [SINGLE] ++ blanked words, ?_, ?_, ?_⟩
    · rw [htext]
      simp
    · intro n hn
      obtain ⟨s, hs, -⟩ := @passes_backslashes n [SINGLE] u c (by decide) hsingle hu hc (k + 1)
      exact ⟨s, hs⟩
    · intro prev quote z hquote hz
      have hne := @strWords_backslashes u (c :: v) z (words.map QuotedWord.bytes) prev quote c k hquote
        hsingle hu hc (Or.inl hcq)
      simpa using hne
  | nil =>
    have hq : SINGLE ≠ BACKSLASH := by decide
    by_cases hodd : (k + 1) % 2 = 1
    · refine ⟨SINGLE :: (u ++ (backslashes (k + 1) ++ [SINGLE])), blanked words, ?_, ?_, ?_⟩
      · rw [htext]
        simp
      · intro n hn
        obtain ⟨s, hs, -⟩ := @passes_backslashes n [SINGLE] u SINGLE (by decide) hsingle hu hq (k + 1)
        exact ⟨s, hs⟩
      · intro prev quote z hquote hz
        have hne := @strWords_backslashes u [] z (words.map QuotedWord.bytes) prev quote SINGLE k hquote
          hsingle hu hq (Or.inr (Or.inl hodd))
        simpa using hne
    · -- the quote closes, and the blank behind it is passed over too
      have hpass (n : List UInt8) : passes n [SINGLE] {} (SINGLE :: (u ++ (backslashes (k + 1) ++ [SINGLE]))) =
          some {} := by
        obtain ⟨s, hs, hclosed⟩ := @passes_backslashes n [SINGLE] u SINGLE (by decide) hsingle hu hq (k + 1)
        rw [hs, hclosed rfl (by omega)]
      cases words with
      | nil =>
        refine ⟨SINGLE :: (u ++ (backslashes (k + 1) ++ [SINGLE])), [], ?_, fun n _ => ⟨{}, hpass n⟩, ?_⟩
        · rw [htext]
          simp [blanked]
        · intro prev quote z hquote hz
          have hne := @strWords_backslashes u [] z [] prev quote SINGLE k hquote hsingle hu hq
            (Or.inr (Or.inr (Or.inl (hz rfl))))
          simpa using hne
      | cons w' words =>
        refine ⟨SINGLE :: (u ++ (backslashes (k + 1) ++ [SINGLE])) ++ [BLANK], w'.text ++ blanked words,
          ?_, ?_, ?_⟩
        · rw [htext, blanked_cons]
          simp
        · intro n hn
          refine ⟨{}, ?_⟩
          rw [passes_append (hpass n), passes_blank hn]
          rfl
        · intro prev quote z hquote hz
          have hne := @strWords_backslashes u [] (BLANK :: z) ((w' :: words).map QuotedWord.bytes) prev quote
            SINGLE k hquote hsingle hu hq (Or.inr (Or.inr (Or.inr ⟨z, rfl⟩)))
          simpa using hne

theorem Spoiled.cons {w' : QuotedWord} {start rest : List UInt8} (hw : w.Plain)
    (h : Spoiled (w'.text ++ blanked words) start rest (w'.bytes :: words.map QuotedWord.bytes)) :
    Spoiled (w.text ++ blanked (w' :: words)) (w.text ++ BLANK :: start) rest
      (w.bytes :: (w' :: words).map QuotedWord.bytes) where
  split := by
    rw [blanked_cons, List.cons_append, h.split]
    simp
  passes n hn := by
    obtain ⟨s, hs⟩ := h.passes n hn
    refine ⟨s, ?_⟩
    rw [passes_append (passes_text hw (by decide)), passes_blank hn, hs]
  words_ne prev quote z hquote hz heq := by
    rw [List.append_assoc, List.cons_append] at heq
    obtain ⟨prev', quote', hquote', -, hrest⟩ := autospace_word hw hquote (Or.inr ⟨_, rfl⟩) heq
    rw [autospace_blank hquote', strWords_blank] at hrest
    exact h.words_ne _ quote' z hquote' hz hrest

theorem QuotedWord.not_plain : ¬ w.Plain ↔ w.quoted = true ∧ BACKSLASH ∈ w.bytes := by
  rw [QuotedWord.Plain, Classical.not_imp, not_not]

theorem exists_spoiled (h : ¬ ∀ w' ∈ w :: words, w'.Plain) :
    ∃ start rest, Spoiled (w.text ++ blanked words) start rest (w.bytes :: words.map QuotedWord.bytes) := by
  by_cases hw : w.Plain
  · induction words generalizing w with
    | nil => exact absurd (fun w' hw' => List.mem_singleton.1 hw' ▸ hw) h
    | cons w' words ih =>
      have hrest : ¬ ∀ w'' ∈ w' :: words, w''.Plain := by
        intro hall
        apply h
        intro w'' hmem
        rcases List.mem_cons.1 hmem with rfl | hmem
        · exact hw
        · exact hall w'' hmem
      by_cases hw' : w'.Plain
      · obtain ⟨start, rest, hspoiled⟩ := ih hrest hw'
        exact ⟨_, rest, hspoiled.cons hw⟩
      · rw [QuotedWord.not_plain] at hw'
        obtain ⟨start, rest, hspoiled⟩ := spoiled_of_backslash hw'.1 hw'.2 words
        exact ⟨_, rest, hspoiled.cons hw⟩
  · rw [QuotedWord.not_plain] at hw
    exact spoiled_of_backslash hw.1 hw.2 words

/-! ## What the shell makes of a command line -/

theorem passes_commandLine (hn : strchr n BLANK = false) (hq : SINGLE ∈ q) (hplain : ∀ w ∈ words, w.Plain) :
    passes n q {} (commandLine words) = some {} := by
  cases words with
  | nil => rfl
  | cons w words =>
    rw [commandLine_cons, passes_append (passes_text (hplain w List.mem_cons_self) hq)]
    have hwords : ∀ w ∈ words, w.Plain := fun w h => hplain w (List.mem_cons_of_mem _ h)
    clear hplain
    induction words with
    | nil => rfl
    | cons w' words ih =>
      rw [blanked_cons, List.cons_append, passes_blank hn,
        passes_append (passes_text (hwords w' List.mem_cons_self) hq)]
      exact ih fun w h => hwords w (List.mem_cons_of_mem _ h)

theorem lone_commandLine (words : List QuotedWord) (r : List UInt8) : lone (commandLine words ++ r) = lone r := by
  cases words with
  | nil => rfl
  | cons w words => rw [commandLine_cons, List.append_assoc, lone_text, lone_blanked]

/-- The words come back exactly when the line is plain in both senses. -/
theorem shWords_eq_words_iff (env : ShellEnv) (words : List QuotedWord) :
    shWords env (commandLine words) = .ok (words.map QuotedWord.bytes) ↔
      (∀ w ∈ words, w.Plain) ∧ hasOperator 0 (commandLine words) = false := by
  constructor
  · intro h
    cases words with
    | nil => exact ⟨nofun, rfl⟩
    | cons w words =>
      by_cases hplain : ∀ w' ∈ w :: words, w'.Plain
      · refine ⟨hplain, ?_⟩
        rw [shWords_of_passes env (passes_commandLine (by decide) (by decide) hplain)
          (passes_commandLine (by decide) (by decide) hplain), commandLine_cons] at h
        rw [← @autospace_eq_self_iff none, commandLine_cons]
        exact autospace_words (hplain w List.mem_cons_self) (fun w h => hplain w (List.mem_cons_of_mem _ h))
          isQuote_zero h
      · obtain ⟨start, rest, hspoiled⟩ := exists_spoiled hplain
        obtain ⟨s, hvars⟩ := hspoiled.passes [DOLLAR] (by decide)
        obtain ⟨s', hbackticks⟩ := hspoiled.passes [BACKTICK] (by decide)
        rw [commandLine_cons, hspoiled.split, shWords, preprocLine] at h
        cases hout : preprocVars env (start ++ rest) with
        | error e =>
          rw [hout] at h
          exact nomatch h
        | ok out =>
          obtain ⟨z, rfl, hz⟩ := preprocVars_passes hvars hout
          rw [hout] at h
          simp only [bind, Except.bind] at h
          cases hout' : preprocBackticks env (start ++ z) with
          | error e =>
            rw [hout'] at h
            exact nomatch h
          | ok out' =>
            obtain ⟨z', rfl, hz'⟩ := preprocBackticks_passes hbackticks hout'
            simp only [hout', preprocAutospace_eq] at h
            exact absurd h (hspoiled.words_ne none 0 z' isQuote_zero fun hrest => hz' (hz hrest))
  · rintro ⟨hplain, hop⟩
    rw [shWords_of_passes env (passes_commandLine (by decide) (by decide) hplain)
      (passes_commandLine (by decide) (by decide) hplain), autospace_eq_self hop]
    cases words with
    | nil => rfl
    | cons w words =>
      rw [commandLine_cons]
      exact strWords_words (hplain w List.mem_cons_self) fun w h => hplain w (List.mem_cons_of_mem _ h)

/-- With an open quote behind them such lines are cut into words. -/
theorem shWords_open_quote (env : ShellEnv) (hplain : ∀ w ∈ words, w.Plain) (hc : c ∈ QUOTES) :
    ∃ l, shWords env (commandLine words ++ [c]) = .ok l := by
  have hback : c ≠ BACKSLASH := by
    rintro rfl
    exact absurd hc (by decide)
  have hpass (n : List UInt8) (hn : strchr n BLANK = false) :
      passes n [SINGLE] {} (commandLine words ++ [c]) = some { quote := c } := by
    rw [passes_append (passes_commandLine hn (by decide) hplain)]
    apply passes_cons hback
    rcases List.mem_pair.1 hc with rfl | rfl <;> simp +decide [findStep, strchr]
  rw [shWords_of_passes env (hpass _ (by decide)) (hpass _ (by decide))]
  apply (strWords_spec _).2
  rw [(lone_autospace ..).1, lone_commandLine, lone_cons hback]
  rfl

/-- Every line is done after finitely many steps.  A command line of quoted words is cut into these words exactly
when no word in single quotes has a backslash and no operator shows where only quote characters count.  With a lone
backslash behind it the line is run over; with an open quote it is not, when its quoted words have no
backslashes. -/
theorem commandLine_words (env : ShellEnv) (words : List QuotedWord) :
    (∀ line, shWords env line ≠ .error .endless) ∧
      (shWords env (commandLine words) = .ok (words.map QuotedWord.bytes) ↔
        (∀ w ∈ words, w.Plain) ∧ hasOperator 0 (commandLine words) = false) ∧
      shWords env (commandLine words ++ [BACKSLASH]) = .error .overrun ∧
      ((∀ w ∈ words, w.Plain) → ∀ c ∈ QUOTES, ∃ l, shWords env (commandLine words ++ [c]) = .ok l) := by
  refine ⟨shWords_returns env, shWords_eq_words_iff env words, ?_,
    fun hplain c hc => shWords_open_quote env hplain hc⟩
  apply shWords_lone
  rw [lone_commandLine]
  rfl

/-- A shell with nothing set. -/
def bareEnv : ShellEnv where
  shLastStatus := 0
  pid := 1
  shScriptArgs := []
  getVarValue _ := none
  commandOutput _ _ := []

/-- A backslash in single quotes comes back as a single quote, an escaped `>` with a blank before it, and an
escaped `a` with a lone backslash behind it makes the shell read past the end of the line. -/
theorem quoting_not_faithful :
    shWords bareEnv (commandLine [⟨[BACKSLASH], true, by decide, by decide, by decide, by decide⟩]) =
        .ok [[SINGLE]] ∧
      shWords bareEnv (commandLine [⟨[GREATER], false, by decide, by decide, by decide, by decide⟩]) =
        .ok [[BLANK, GREATER]] ∧
      shWords bareEnv (commandLine [⟨[0x61], false, by decide, by decide, by decide, by decide⟩] ++ [BACKSLASH]) =
        .error .overrun := by
  refine ⟨?_, ?_, ?_⟩ <;> decide

end Glidix.Sh
