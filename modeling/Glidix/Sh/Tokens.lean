import Glidix.Sh.LineSafety

/-!
# The words of a line

What `str_token` and `str_canon` make of a token that stands at the start of a line, of escaped bytes and of
bytes in single quotes.
-/

namespace Glidix.Sh

variable {n q a b l raw r u w : List UInt8} {ws : List (List UInt8)} {s s' : ScanState} {c x : UInt8}

/-! ## Escaped and quoted bytes -/

/-- A backslash before every byte. -/
def escape (w : List UInt8) : List UInt8 := w.flatMap fun c => [BACKSLASH, c]

@[simp] theorem escape_nil : escape [] = [] := rfl

@[simp] theorem escape_cons (c : UInt8) (w : List UInt8) : escape (c :: w) = BACKSLASH :: c :: escape w := rfl

theorem escape_append (a b : List UInt8) : escape (a ++ b) = escape a ++ escape b := List.flatMap_append

/-- The state between single quotes. -/
abbrev inSingle : ScanState := { quote := SINGLE }

theorem passes_escape (n q : List UInt8) (s : ScanState) (w : List UInt8) : passes n q s (escape w) = some s := by
  induction w with
  | nil => rfl
  | cons c w ih => rw [escape_cons, passes_escaped, ih]

theorem canonLoop_escape (s : ScanState) (w r : List UInt8) :
    canonLoop s (escape w ++ r) = (canonLoop s r).map (w ++ ·) := by
  induction w with
  | nil =>
    cases h : canonLoop s r <;> simp [h, Except.map]
  | cons c w ih =>
    rw [escape_cons, List.cons_append, List.cons_append, canonLoop_escaped, ih]
    cases canonLoop s r <;> rfl

theorem findStep_open (n q : List UInt8) : findStep n q {} SINGLE = some inSingle := by
  simp +decide [findStep, strchr]

theorem findStep_close (hq : SINGLE ∈ q) : findStep n q inSingle SINGLE = some {} := by
  simp +decide [findStep, strchr, hq]

theorem findStep_inSingle (hq : SINGLE ∈ q) (hc : c ≠ SINGLE) : findStep n q inSingle c = some inSingle := by
  simp +decide [findStep, strchr, hq, hc.symm]

/-- A byte that is no needle and means nothing outside of quotes. -/
theorem findStep_plain (hn : strchr n c = false) (hq : strchr QUOTES c = false)
    (hb : isOpening c = false ∧ isClosing c = false) : findStep n q {} c = some {} := by
  simp [findStep, hn, hq, hb]

theorem passes_inSingle (hq : SINGLE ∈ q) (hu : SINGLE ∉ u) (hb : BACKSLASH ∉ u) :
    passes n q inSingle u = some inSingle := by
  induction u with
  | nil => rfl
  | cons c u ih =>
    rw [passes_cons (List.ne_of_not_mem_cons hb).symm (findStep_inSingle hq (List.ne_of_not_mem_cons hu).symm)]
    exact ih (List.not_mem_of_not_mem_cons hu) (List.not_mem_of_not_mem_cons hb)

theorem canonLoop_inSingle (hu : SINGLE ∉ u) (hb : BACKSLASH ∉ u) :
    canonLoop inSingle (u ++ r) = (canonLoop inSingle r).map (u ++ ·) := by
  induction u with
  | nil => cases h : canonLoop inSingle r <;> simp [h, Except.map]
  | cons c u ih =>
    have hc := (List.ne_of_not_mem_cons hu).symm
    have hstep : canonStep inSingle c = ([c], inSingle) := by
      simp +decide [canonStep, hc]
    rw [List.cons_append, canonLoop_cons (List.ne_of_not_mem_cons hb).symm, hstep,
      ih (List.not_mem_of_not_mem_cons hu) (List.not_mem_of_not_mem_cons hb)]
    cases canonLoop inSingle r <;> rfl

theorem canonLoop_open : canonLoop {} (SINGLE :: l) = canonLoop inSingle l := by
  rw [canonLoop_cons (by decide)]
  cases h : canonLoop inSingle l <;> simp +decide [canonStep, h, Except.map]

theorem canonLoop_close : canonLoop inSingle (SINGLE :: l) = canonLoop {} l := by
  rw [canonLoop_cons (by decide)]
  cases h : canonLoop {} l <;> simp +decide [canonStep, h, Except.map]

/-- Bytes in single quotes without a backslash are passed over, and are what they say. -/
theorem passes_single (hq : SINGLE ∈ q) (hu : SINGLE ∉ u) (hb : BACKSLASH ∉ u) :
    passes n q {} (SINGLE :: u ++ [SINGLE]) = some {} := by
  rw [List.cons_append, passes_cons (by decide) (findStep_open n q), passes_append (passes_inSingle hq hu hb),
    passes_cons (by decide) (findStep_close hq)]
  rfl

theorem strCanon_eq_ok : strCanon a = .ok w ↔ canonLoop {} a = .ok w := by
  have hspec := canonLoop_lone {} a
  unfold strCanon
  split
  · next e h => rw [h]
  · next out h =>
    rw [h] at hspec
    rw [if_pos hspec.1, h]

theorem strCanon_escape (w : List UInt8) : strCanon (escape w) = .ok w := by
  have h := canonLoop_escape {} w []
  rw [List.append_nil] at h
  rw [strCanon_eq_ok, h]
  exact congrArg Except.ok (List.append_nil w)

theorem strCanon_single (hu : SINGLE ∉ u) (hb : BACKSLASH ∉ u) : strCanon (SINGLE :: u ++ [SINGLE]) = .ok u := by
  rw [strCanon_eq_ok, List.cons_append, canonLoop_open, canonLoop_inSingle hu hb, canonLoop_close]
  exact congrArg Except.ok (List.append_nil u)

/-! ## The first token -/

theorem mapM_cons_ok {t : List UInt8} {ts : List (List UInt8)} :
    (t :: ts).mapM strCanon = .ok (w :: ws) ↔ strCanon t = .ok w ∧ ts.mapM strCanon = .ok ws := by
  rw [List.mapM_cons]
  cases strCanon t <;> cases ts.mapM strCanon <;> simp [bind, Except.bind, pure, Except.pure]

theorem strWords_nil : strWords [] = .ok [] := rfl

theorem strTokens_some (l : List UInt8) (fuel : ℕ) (h : l.length + 1 < fuel) :
    strTokens fuel (some l) = strTokens (l.length + 2) (some l) :=
  strTokens_congr h (Nat.lt_succ_self _)

theorem strWords_blank (l : List UInt8) : strWords (BLANK :: l) = strWords l := by
  have htokens : strTokens (l.length + 3) (some (BLANK :: l)) = strTokens (l.length + 3) (some l) := rfl
  unfold strWords
  rw [List.length_cons, htokens, strTokens_some l _ (by omega)]

theorem dropWhile_token (hx : x ∉ WHITESPACES) : (x :: l).dropWhile (WHITESPACES.contains ·) = x :: l :=
  List.dropWhile_cons_of_neg (by simpa using hx)

/-- What follows a word: nothing, or a blank and more. -/
def Ends (r : List UInt8) : Prop := r = [] ∨ ∃ r', r = BLANK :: r'

theorem strToken_token (raw : List UInt8) (hx : x ∉ WHITESPACES) :
    strToken WHITESPACES QUOTES (some (x :: raw)) =
      match strFind WHITESPACES QUOTES {} (x :: raw) with
      | .error e => .error e
      | .ok none => .ok (some (x :: raw), none)
      | .ok (some i) => .ok (some ((x :: raw).take i), some ((x :: raw).drop (i + 1))) := by
  rw [strToken, dropWhile_token hx]
  rfl

/-- A token ends with the line or before a blank. -/
theorem strWords_token (hx : x ∉ WHITESPACES) (hraw : passes WHITESPACES QUOTES {} (x :: raw) = some {})
    (hr : Ends r) :
    strWords (x :: raw ++ r) = .ok (w :: ws) ↔ strCanon (x :: raw) = .ok w ∧ strWords r = .ok ws := by
  have hfind := strFind_append (b := r) hraw
  have htoken := strToken_token (raw ++ r) hx
  rw [← List.cons_append] at htoken
  rcases hr with rfl | ⟨r', rfl⟩
  · rw [hfind] at htoken
    have htokens : strTokens ((x :: raw ++ []).length + 2) (some (x :: raw ++ [])) = .ok [x :: raw] := by
      rw [strTokens, htoken, List.append_nil]
      rfl
    rw [strWords, htokens]
    exact mapM_cons_ok
  · have hblank : strFind WHITESPACES QUOTES {} (BLANK :: r') = .ok (some 0) := by
      rw [strFind_cons (by decide)]
      rfl
    rw [hfind, hblank] at htoken
    simp only [Except.map, Option.map, Nat.zero_add, List.take_left', List.drop_length_add_append,
      List.drop_succ_cons, List.drop_zero] at htoken
    rw [strWords_blank, strWords, strTokens, htoken]
    dsimp only
    rw [strTokens_some _ _ (by simp; omega), strWords]
    cases strTokens (r'.length + 2) (some r') with
    | error e => simp [bind, Except.bind, Except.map]
    | ok tokens => exact mapM_cons_ok

/-- A token holds at least what the scan passes over. -/
theorem strWords_prefix (hx : x ∉ WHITESPACES) (hraw : passes WHITESPACES QUOTES {} (x :: raw) = some s)
    (h : strWords (x :: raw ++ r) = .ok (w :: ws)) : ∃ y, strCanon (x :: raw ++ y) = .ok w := by
  rw [strWords, strTokens, strToken, List.cons_append, dropWhile_token hx, ← List.cons_append,
    strFind_append hraw] at h
  cases hfind : strFind WHITESPACES QUOTES s r with
  | error e => simp [hfind, Except.map, bind, Except.bind] at h
  | ok o =>
    have hne : x :: raw ++ r ≠ [] := by simp
    rw [hfind, if_neg hne] at h
    cases o with
    | none =>
      refine ⟨r, ?_⟩
      exact (mapM_cons_ok.1 h).1
    | some i =>
      refine ⟨r.take i, ?_⟩
      simp only [Except.map, Option.map, Nat.add_comm i, List.take_length_add_append] at h
      cases htokens : strTokens ((x :: raw ++ r).length + 1)
          (some ((x :: raw ++ r).drop ((x :: raw).length + i + 1))) with
      | error e =>
        rw [htokens] at h
        cases h
      | ok tokens =>
        rw [htokens] at h
        exact (mapM_cons_ok.1 h).1

end Glidix.Sh
