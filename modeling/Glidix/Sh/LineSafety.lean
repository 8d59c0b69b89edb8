import Mathlib.Data.List.TakeWhile
import Glidix.Sh.Scan

/-!
# The passes over a line

Every pass returns, and the only other way it ends is over the end of a string.  A line that ends in a lone
backslash makes the first pass run over it.  What `str_find` passes over at the start of a line stays at the
start of the line.
-/

namespace Glidix.Sh

variable {env : ShellEnv} {fuel m : ℕ} {scan rest result out a b l : List UInt8} {value : Option (List UInt8)}
  {s : ScanState} {e : Crash}

/-! ## Variables -/

theorem lone_tail (h : scan.headD 0 ≠ BACKSLASH) : lone scan.tail = lone scan := by
  cases scan with
  | nil => rfl
  | cons c scan => exact (lone_cons h).symm

theorem lone_drop_takeWhile {p : UInt8 → Bool} (hp : p BACKSLASH = false) (l : List UInt8) :
    lone (l.drop (l.takeWhile p).length) = lone l := by
  have hdrop := @List.drop_left _ (l.takeWhile p) (l.dropWhile p)
  rw [List.takeWhile_append_dropWhile] at hdrop
  have hmem : BACKSLASH ∉ l.takeWhile p := by
    intro hmem
    have hbackslash := List.mem_takeWhile_imp hmem
    rw [hp] at hbackslash
    exact nomatch hbackslash
  have happ := lone_append_of_no_backslash (l := l.dropWhile p) hmem
  rw [List.takeWhile_append_dropWhile] at happ
  rw [hdrop, happ]

theorem varValue_spec (env : ShellEnv) (scan : List UInt8) :
    match varValue env scan with
    | .error e => e = .overrun
    | .ok (_, rest) => rest.length ≤ scan.length ∧ lone rest = lone scan := by
  have htail : scan.tail.length ≤ scan.length := by simp
  unfold varValue
  dsimp only
  split_ifs with h₁ h₂ h₃ h₄ h₅
  · exact ⟨htail, lone_tail (by rw [h₁]; decide)⟩
  · exact ⟨htail, lone_tail (by rw [h₂]; decide)⟩
  · refine ⟨htail, lone_tail fun h => ?_⟩
    rw [h] at h₃
    exact absurd h₃.2 (by decide)
  · exact ⟨htail, lone_tail (by rw [h₄]; decide)⟩
  · rfl
  · exact ⟨by simp, lone_drop_takeWhile (by decide) scan⟩

/-- One round of the loop. -/
theorem varsLoop_round (hne : scan ≠ []) : varsLoop env (fuel + 1) scan result =
    match strFind [DOLLAR] [SINGLE] {} scan with
    | .error e => .error e
    | .ok none => .ok (result ++ scan)
    | .ok (some i) =>
      match varValue env (scan.drop (i + 1)) with
      | .error e => .error e
      | .ok (value, rest) => varsLoop env fuel rest (result ++ scan.take i ++ value.getD []) :=
  if_neg hne

/-- With enough fuel the loop returns or runs over the end, and it does that on a lone backslash. -/
theorem varsLoop_spec (hfuel : scan.length < fuel) :
    varsLoop env fuel scan result ≠ .error .endless ∧
      (lone scan = true → varsLoop env fuel scan result = .error .overrun) := by
  induction fuel generalizing scan result with
  | zero => exact absurd hfuel (Nat.not_lt_zero _)
  | succ fuel ih =>
    obtain rfl | hne := eq_or_ne scan []
    · exact ⟨nofun, nofun⟩
    rw [varsLoop_round hne]
    split
    · next e hfind =>
      obtain ⟨rfl, hlone⟩ := strFind_error hfind
      exact ⟨by decide, fun _ => rfl⟩
    · next hfind =>
      refine ⟨nofun, fun hlone => ?_⟩
      rw [strFind_none hfind] at hlone
      exact nomatch hlone
    · next i hfind =>
      obtain ⟨hi, -, hdrop⟩ := strFind_some hfind
      have hspec := varValue_spec env (scan.drop (i + 1))
      split
      · next e hvalue =>
        rw [hvalue] at hspec
        subst hspec
        exact ⟨by decide, fun _ => rfl⟩
      · next value rest hvalue =>
        rw [hvalue] at hspec
        have hlt : rest.length < fuel := by
          have hle := hspec.1
          rw [List.length_drop] at hle
          omega
        obtain ⟨hendless, hoverrun⟩ := @ih rest (result ++ scan.take i ++ value.getD []) hlt
        exact ⟨hendless, fun hlone => hoverrun (by rw [hspec.2, hdrop, hlone])⟩

theorem varsLoop_prefix (h : varsLoop env fuel scan result = .ok out) : result <+: out := by
  induction fuel generalizing scan result with
  | zero => exact nomatch h
  | succ fuel ih =>
    obtain rfl | hne := eq_or_ne scan []
    · exact Except.ok.inj h ▸ List.prefix_rfl
    rw [varsLoop_round hne] at h
    split at h
    · exact nomatch h
    · exact ⟨scan, Except.ok.inj h⟩
    · next i hfind =>
      split at h
      · exact nomatch h
      · have hpre := ih h
        rw [List.append_assoc] at hpre
        exact (List.prefix_append result _).trans hpre

/-- What the scan passes over at the start of the line stays. -/
theorem preprocVars_passes (ha : passes [DOLLAR] [SINGLE] {} a = some s)
    (h : preprocVars env (a ++ b) = .ok out) : ∃ z, out = a ++ z ∧ (b = [] → z = []) := by
  unfold preprocVars at h
  by_cases hnil : a ++ b = []
  · obtain ⟨rfl, rfl⟩ := List.append_eq_nil_iff.1 hnil
    exact ⟨[], (Except.ok.inj h).symm, fun _ => rfl⟩
  rw [varsLoop_round hnil, strFind_append ha] at h
  cases hfind : strFind [DOLLAR] [SINGLE] s b with
  | error e => exact nomatch hfind ▸ h
  | ok o =>
    rw [hfind] at h
    cases o with
    | none => exact ⟨b, (Except.ok.inj h).symm, fun hb => hb⟩
    | some i =>
      have hi := (strFind_some hfind).1
      simp only [Except.map, Option.map] at h
      split at h
      · exact nomatch h
      · next value rest hvalue =>
        obtain ⟨z, rfl⟩ := varsLoop_prefix h
        rw [List.nil_append, Nat.add_comm i, List.take_length_add_append]
        refine ⟨b.take i ++ (value.getD [] ++ z), by simp only [List.append_assoc], fun hb => ?_⟩
        rw [hb] at hi
        exact absurd hi (Nat.not_lt_zero _)

theorem preprocVars_of_passes (ha : passes [DOLLAR] [SINGLE] {} a = some s) : preprocVars env a = .ok a := by
  unfold preprocVars
  obtain rfl | hne := eq_or_ne a []
  · rfl
  · rw [varsLoop_round hne, strFind_of_passes ha]
    rfl

/-! ## Commands -/

theorem backticksLoop_round {k : ℕ} (hne : scan ≠ []) : backticksLoop env (fuel + 1) k scan result =
    match strFind [BACKTICK] [SINGLE] {} scan with
    | .error e => .error e
    | .ok none => .ok (result ++ scan)
    | .ok (some i) =>
      match strFind [BACKTICK] [SINGLE] {} (scan.drop (i + 1)) with
      | .error e => .error e
      | .ok none => .ok (result ++ scan.take i)
      | .ok (some j) =>
        backticksLoop env fuel (k + 1) ((scan.drop (i + 1)).drop (j + 1))
          (result ++ scan.take i ++ env.commandOutput k ((scan.drop (i + 1)).take j)) := if_neg hne

theorem backticksLoop_spec {k : ℕ} (hfuel : scan.length < fuel) :
    backticksLoop env fuel k scan result ≠ .error .endless := by
  induction fuel generalizing k scan result with
  | zero => exact absurd hfuel (Nat.not_lt_zero _)
  | succ fuel ih =>
    obtain rfl | hne := eq_or_ne scan []
    · exact nofun
    rw [backticksLoop_round hne]
    split
    · next e hfind =>
      rw [(strFind_error hfind).1]
      decide
    · exact nofun
    · next i hfind =>
      split
      · next e hsecond =>
        rw [(strFind_error hsecond).1]
        decide
      · exact nofun
      · next j hsecond =>
        apply ih
        have hi := (strFind_some hfind).1
        rw [List.length_drop, List.length_drop]
        omega

theorem backticksLoop_prefix {k : ℕ} (h : backticksLoop env fuel k scan result = .ok out) : result <+: out := by
  induction fuel generalizing k scan result with
  | zero => exact nomatch h
  | succ fuel ih =>
    obtain rfl | hne := eq_or_ne scan []
    · exact Except.ok.inj h ▸ List.prefix_rfl
    rw [backticksLoop_round hne] at h
    split at h
    · exact nomatch h
    · exact ⟨scan, Except.ok.inj h⟩
    · next i hfind =>
      split at h
      · exact nomatch h
      · exact ⟨scan.take i, Except.ok.inj h⟩
      · have hpre := ih h
        rw [List.append_assoc] at hpre
        exact (List.prefix_append result _).trans hpre

theorem preprocBackticks_passes (ha : passes [BACKTICK] [SINGLE] {} a = some s)
    (h : preprocBackticks env (a ++ b) = .ok out) : ∃ z, out = a ++ z ∧ (b = [] → z = []) := by
  unfold preprocBackticks at h
  by_cases hnil : a ++ b = []
  · obtain ⟨rfl, rfl⟩ := List.append_eq_nil_iff.1 hnil
    exact ⟨[], (Except.ok.inj h).symm, fun _ => rfl⟩
  rw [backticksLoop_round hnil, strFind_append ha] at h
  cases hfind : strFind [BACKTICK] [SINGLE] s b with
  | error e => exact nomatch hfind ▸ h
  | ok o =>
    rw [hfind] at h
    cases o with
    | none => exact ⟨b, (Except.ok.inj h).symm, fun hb => hb⟩
    | some i =>
      have hi := (strFind_some hfind).1
      have hb : b = [] → False := fun hb => by
        rw [hb] at hi
        exact absurd hi (Nat.not_lt_zero _)
      have htake : (a ++ b).take (i + a.length) = a ++ b.take i := by
        rw [Nat.add_comm i, List.take_length_add_append]
      simp only [Except.map, Option.map, htake] at h
      split at h
      · exact nomatch h
      · exact ⟨b.take i, (Except.ok.inj h).symm, fun h => (hb h).elim⟩
      · obtain ⟨z, hz⟩ := backticksLoop_prefix h
        generalize env.commandOutput 0 _ = output at hz
        refine ⟨b.take i ++ (output ++ z), ?_, fun h => (hb h).elim⟩
        rw [← hz, List.nil_append]
        simp only [List.append_assoc]

theorem preprocBackticks_of_passes (ha : passes [BACKTICK] [SINGLE] {} a = some s) :
    preprocBackticks env a = .ok a := by
  unfold preprocBackticks
  obtain rfl | hne := eq_or_ne a []
  · rfl
  · rw [backticksLoop_round hne, strFind_of_passes ha]
    rfl

/-! ## Operators -/

variable {prev : Option UInt8} {quote : UInt8} {x : UInt8}

theorem length_autospace_le (prev : Option UInt8) (quote : UInt8) (l : List UInt8) :
    (autospace prev quote l).length ≤ l.length * 3 := by
  fun_induction autospace prev quote l with
  | case1 => exact Nat.zero_le _
  | case2 prev quote c rest hquote ih =>
    simp only [List.length_cons]
    omega
  | case3 prev quote rest hquote ih =>
    split <;> simp only [List.length_append, List.length_cons, List.length_nil] <;> omega
  | case4 prev quote c hquote hc => simp
  | case5 prev quote c hquote hc d rest hpair ih =>
    simp only [List.length_cons]
    omega
  | case6 prev quote c hquote hc d rest hpair ih =>
    simp only [List.length_cons] at ih ⊢
    omega

/-- The buffer is large enough. -/
theorem preprocAutospace_eq (line : List UInt8) : preprocAutospace line = .ok (autospace none 0 line) :=
  if_pos (Nat.succ_le_succ (length_autospace_le none 0 line))

/-- The blanks go before and behind bytes that are no backslashes. -/
theorem lone_autospace (prev : Option UInt8) (quote : UInt8) (l : List UInt8) :
    lone (autospace prev quote l) = lone l ∧
      lone (BACKSLASH :: autospace prev quote l) = lone (BACKSLASH :: l) := by
  fun_induction autospace prev quote l with
  | case1 => exact ⟨rfl, rfl⟩
  | case2 prev quote c rest hquote ih =>
    rw [lone_escaped, lone_escaped]
    refine ⟨?_, ih.1⟩
    by_cases hc : c = BACKSLASH
    · rw [hc] at ih ⊢
      exact ih.2
    · rw [lone_cons hc, lone_cons hc]
      exact ih.1
  | case3 prev quote rest hquote ih =>
    have hgreater : GREATER ≠ BACKSLASH := by decide
    have hblank : BLANK ≠ BACKSLASH := by decide
    split <;> simp only [List.nil_append, List.cons_append, lone_escaped, lone_cons hgreater,
      lone_cons hblank, ih.1, and_self]
  | case4 prev quote c hquote hc => exact ⟨rfl, rfl⟩
  | case5 prev quote c hquote hc d rest hpair ih =>
    have hblank : BLANK ≠ BACKSLASH := by decide
    obtain ⟨rfl, hpair⟩ := hpair
    have hne : c ≠ BACKSLASH := by
      rcases hpair with rfl | rfl <;> decide
    simp only [lone_escaped, lone_cons hblank, lone_cons hne, ih.1, and_self]
  | case6 prev quote c hquote hc d rest hpair ih =>
    rw [lone_escaped, lone_escaped]
    refine ⟨?_, ih.1⟩
    by_cases hc : c = BACKSLASH
    · rw [hc] at ih ⊢
      exact ih.2
    · rw [lone_cons hc, lone_cons hc]
      exact ih.1

/-! ## Tokens -/

/-- How many steps the tokens take at most. -/
def strpSize (strp : Option (List UInt8)) : ℕ := strp.elim 0 fun str => str.length + 1

theorem length_dropWhile_le (p : UInt8 → Bool) (l : List UInt8) : (l.dropWhile p).length ≤ l.length :=
  (List.dropWhile_suffix p).length_le

theorem strToken_spec {ws qs : List UInt8} (str : List UInt8) (hws : BACKSLASH ∉ ws) :
    match strToken ws qs (some str) with
    | .error e => e = .overrun ∧ lone str = true
    | .ok (none, strp) => strp = none
    | .ok (some token, strp) =>
      strpSize strp < strpSize (some str) ∧
        (lone str = false → lone token = false ∧ ∀ str' ∈ strp, lone str' = false) := by
  have hlone : lone (str.dropWhile (ws.contains ·)) = lone str := by
    have hmem : BACKSLASH ∉ str.takeWhile (ws.contains ·) := fun hmem =>
      hws (List.contains_iff_mem.1 (List.mem_takeWhile_imp hmem))
    have happ := lone_append_of_no_backslash (l := str.dropWhile (ws.contains ·)) hmem
    rwa [List.takeWhile_append_dropWhile, eq_comm] at happ
  have hlength := length_dropWhile_le (ws.contains ·) str
  unfold strToken
  dsimp only
  split_ifs with hnil
  · rfl
  cases hfind : strFind ws qs {} (str.dropWhile (ws.contains ·)) with
  | error e =>
    have herror := strFind_error hfind
    exact ⟨herror.1, hlone ▸ herror.2⟩
  | ok o =>
    cases o with
    | none =>
      refine ⟨Nat.succ_pos _, fun h => ⟨hlone.trans h, nofun⟩⟩
    | some i =>
      obtain ⟨hi, htake, hdrop⟩ := strFind_some hfind
      refine ⟨?_, fun h => ⟨htake, ?_⟩⟩
      · simp only [strpSize, Option.elim, List.length_drop]
        omega
      · intro str' hstr'
        obtain rfl := Option.some.inj hstr'
        rw [hdrop, hlone, h]

theorem backslash_not_whitespace : BACKSLASH ∉ WHITESPACES := by decide

/-- More fuel than steps makes no difference. -/
theorem strTokens_congr {fuel' : ℕ} {strp : Option (List UInt8)} (h : strpSize strp < fuel)
    (h' : strpSize strp < fuel') : strTokens fuel strp = strTokens fuel' strp := by
  induction fuel generalizing fuel' strp with
  | zero => exact absurd h (Nat.not_lt_zero _)
  | succ fuel ih =>
    obtain ⟨fuel', rfl⟩ := Nat.exists_eq_add_one_of_ne_zero (Nat.ne_zero_of_lt h')
    rw [strTokens, strTokens]
    cases strp with
    | none => rfl
    | some str =>
      have hspec := @strToken_spec WHITESPACES QUOTES str backslash_not_whitespace
      split
      · rfl
      · rfl
      · next token strp htoken =>
        rw [htoken] at hspec
        have hlt := hspec.1
        rw [@ih fuel' strp (by omega) (by omega)]

theorem strTokens_spec {strp : Option (List UInt8)} (h : strpSize strp < fuel) :
    strTokens fuel strp ≠ .error .endless ∧
      ((∀ str ∈ strp, lone str = false) →
        ∃ tokens, strTokens fuel strp = .ok tokens ∧ ∀ token ∈ tokens, lone token = false) := by
  induction fuel generalizing strp with
  | zero => exact absurd h (Nat.not_lt_zero _)
  | succ fuel ih =>
    rw [strTokens]
    cases strp with
    | none => exact ⟨nofun, fun _ => ⟨[], rfl, nofun⟩⟩
    | some str =>
      have hspec := @strToken_spec WHITESPACES QUOTES str backslash_not_whitespace
      split
      · next e htoken =>
        rw [htoken] at hspec
        rw [hspec.1]
        refine ⟨by decide, fun hlone => ?_⟩
        rw [hlone str rfl] at hspec
        exact nomatch hspec.2
      · exact ⟨nofun, fun _ => ⟨[], rfl, nofun⟩⟩
      · next token strp htoken =>
        rw [htoken] at hspec
        have hlt := hspec.1
        obtain ⟨hendless, hok⟩ := @ih strp (by omega)
        constructor
        · cases hrest : strTokens fuel strp with
          | error e =>
            rw [hrest] at hendless
            exact hendless
          | ok tokens => exact nofun
        · intro hlone
          obtain ⟨htok, hstrp⟩ := hspec.2 (hlone str rfl)
          obtain ⟨tokens, hrest, htokens⟩ := hok hstrp
          rw [hrest]
          refine ⟨token :: tokens, rfl, fun t ht => ?_⟩
          rcases List.mem_cons.1 ht with rfl | ht
          · exact htok
          · exact htokens t ht

/-! ## Words -/

theorem strCanon_spec (str : List UInt8) :
    strCanon str ≠ .error .endless ∧ (lone str = false → ∃ w, strCanon str = .ok w) := by
  have hspec := canonLoop_lone {} str
  unfold strCanon
  split
  · next e hloop =>
    rw [hloop] at hspec
    rw [hspec.1]
    refine ⟨by decide, fun hlone => ?_⟩
    rw [hlone] at hspec
    exact nomatch hspec.2
  · next out hloop =>
    rw [hloop] at hspec
    rw [if_pos hspec.1]
    exact ⟨nofun, fun _ => ⟨out, rfl⟩⟩

theorem mapM_strCanon_spec (tokens : List (List UInt8)) :
    tokens.mapM strCanon ≠ .error .endless ∧
      ((∀ token ∈ tokens, lone token = false) → ∃ words, tokens.mapM strCanon = .ok words) := by
  induction tokens with
  | nil => exact ⟨nofun, fun _ => ⟨[], rfl⟩⟩
  | cons token tokens ih =>
    rw [List.mapM_cons]
    obtain ⟨hendless, hok⟩ := strCanon_spec token
    constructor
    · cases hcanon : strCanon token with
      | error e =>
        simpa [hcanon, bind, Except.bind] using hendless
      | ok w =>
        cases hrest : tokens.mapM strCanon with
        | error e =>
          rw [hrest] at ih
          exact ih.1
        | ok words => exact nofun
    · intro hlone
      obtain ⟨w, hw⟩ := hok (hlone token List.mem_cons_self)
      obtain ⟨words, hwords⟩ := ih.2 fun t ht => hlone t (List.mem_cons_of_mem _ ht)
      rw [hw, hwords]
      exact ⟨w :: words, rfl⟩

theorem strWords_spec (line : List UInt8) :
    strWords line ≠ .error .endless ∧ (lone line = false → ∃ words, strWords line = .ok words) := by
  obtain ⟨hendless, hok⟩ := @strTokens_spec (line.length + 2) (some line) (Nat.lt_succ_self _)
  unfold strWords
  constructor
  · cases htokens : strTokens (line.length + 2) (some line) with
    | error e =>
      rw [htokens] at hendless
      exact hendless
    | ok tokens => exact (mapM_strCanon_spec tokens).1
  · intro hlone
    obtain ⟨tokens, htokens, hall⟩ := hok fun str hstr => Option.some.inj hstr ▸ hlone
    rw [htokens]
    exact (mapM_strCanon_spec tokens).2 hall

/-! ## Lines -/

/-- Every line is cut into words after finitely many steps, or a function runs over the end of a string. -/
theorem shWords_returns (env : ShellEnv) (line : List UInt8) : shWords env line ≠ .error .endless := by
  have hvars := (@varsLoop_spec env (line.length + 1) line [] (Nat.lt_succ_self _)).1
  unfold shWords preprocLine
  cases hv : preprocVars env line with
  | error e =>
    rw [← preprocVars, hv] at hvars
    simpa [bind, Except.bind] using hvars
  | ok line' =>
    have hbackticks := @backticksLoop_spec env (line'.length + 1) line' [] 0 (Nat.lt_succ_self _)
    cases hb : preprocBackticks env line' with
    | error e =>
      rw [← preprocBackticks, hb] at hbackticks
      simpa [hb, bind, Except.bind] using hbackticks
    | ok line'' =>
      simp only [bind, Except.bind, hb, preprocAutospace_eq]
      exact (strWords_spec _).1

theorem shWords_lone (env : ShellEnv) {line : List UInt8} (h : lone line = true) :
    shWords env line = .error .overrun := by
  have hvars := (@varsLoop_spec env (line.length + 1) line [] (Nat.lt_succ_self _)).2 h
  unfold shWords preprocLine preprocVars
  rw [hvars]
  rfl

/-- A line in which the first two passes find nothing goes through the third alone. -/
theorem shWords_of_passes {line : List UInt8} {s s' : ScanState} (env : ShellEnv)
    (hvars : passes [DOLLAR] [SINGLE] {} line = some s)
    (hbackticks : passes [BACKTICK] [SINGLE] {} line = some s') :
    shWords env line = strWords (autospace none 0 line) := by
  unfold shWords preprocLine
  rw [preprocVars_of_passes hvars]
  simp only [bind, Except.bind, preprocBackticks_of_passes hbackticks, preprocAutospace_eq]

end Glidix.Sh
