import Glidix.Sh.Preproc

/-!
# Scanning a line

`Lone` lines end in a backslash that nothing escapes; the functions run past the end of exactly these.
`passes` follows the scan of `str_find` over a part of a line in which it finds nothing.
-/

namespace Glidix.Sh

variable {n q l a b : List UInt8} {s s' : ScanState} {i : ℕ} {c : UInt8} {e : Crash}

/-! ## One byte -/

theorem strFind_escaped (c : UInt8) :
    strFind n q s (BACKSLASH :: c :: l) = (strFind n q s l).map (Option.map (· + 2)) :=
  if_pos rfl

theorem strFind_cons (hc : c ≠ BACKSLASH) :
    strFind n q s (c :: l) =
      match findStep n q s c with
      | none => .ok (some 0)
      | some s => (strFind n q s l).map (Option.map (· + 1)) := by
  cases l with
  | nil => exact if_neg hc
  | cons d l => exact if_neg hc

theorem canonLoop_escaped (c : UInt8) :
    canonLoop s (BACKSLASH :: c :: l) = (canonLoop s l).map (c :: ·) := if_pos rfl

theorem canonLoop_cons (hc : c ≠ BACKSLASH) :
    canonLoop s (c :: l) = (canonLoop (canonStep s c).2 l).map ((canonStep s c).1 ++ ·) := by
  cases l with
  | nil => exact if_neg hc
  | cons d l => exact if_neg hc

/-! ## Lone backslashes -/

/-- The last byte is a backslash that nothing escapes. -/
def lone : List UInt8 → Bool
  | [] => false
  | c :: rest =>
    if c = BACKSLASH then
      match rest with
      | [] => true
      | _ :: rest => lone rest
    else lone rest

example : lone [BACKSLASH] = true := rfl

example : lone [DOLLAR] = false := rfl

theorem lone_cons (hc : c ≠ BACKSLASH) : lone (c :: l) = lone l := by
  cases l with
  | nil => exact if_neg hc
  | cons d l => exact if_neg hc

theorem lone_escaped (c : UInt8) : lone (BACKSLASH :: c :: l) = lone l := if_pos rfl

theorem lone_append_of_no_backslash (ha : BACKSLASH ∉ a) : lone (a ++ l) = lone l := by
  induction a with
  | nil => rfl
  | cons c a ih =>
    rw [List.cons_append, lone_cons (List.ne_of_not_mem_cons ha).symm]
    exact ih (List.not_mem_of_not_mem_cons ha)

/-- What the scan says about the backslashes. -/
theorem strFind_lone (n q : List UInt8) (s : ScanState) (l : List UInt8) :
    match strFind n q s l with
    | .error e => e = .overrun ∧ lone l = true
    | .ok none => lone l = false
    | .ok (some i) => i < l.length ∧ lone (l.take i) = false ∧ lone (l.drop (i + 1)) = lone l := by
  fun_induction strFind n q s l with
  | case1 => rfl
  | case2 s => exact ⟨rfl, rfl⟩
  | case3 s d rest ih =>
    cases hfind : strFind n q s rest with
    | error e => simpa [hfind, Except.map, lone] using ih
    | ok o =>
      cases o with
      | none => simpa [hfind, Except.map, lone] using ih
      | some i => simpa [hfind, Except.map, lone] using ih
  | case4 s c rest hc hstep =>
    exact ⟨Nat.succ_pos _, rfl, (lone_cons hc).symm⟩
  | case5 s c rest hc s' hstep ih =>
    cases hfind : strFind n q s' rest with
    | error e => simpa [hfind, Except.map, lone_cons hc] using ih
    | ok o =>
      cases o with
      | none => simpa [hfind, Except.map, lone_cons hc] using ih
      | some i => simpa [hfind, Except.map, lone_cons hc] using ih

theorem strFind_error (h : strFind n q s l = .error e) : e = .overrun ∧ lone l = true := by
  have hlone := strFind_lone n q s l
  rwa [h] at hlone

theorem strFind_none (h : strFind n q s l = .ok none) : lone l = false := by
  have hlone := strFind_lone n q s l
  rwa [h] at hlone

theorem strFind_some (h : strFind n q s l = .ok (some i)) :
    i < l.length ∧ lone (l.take i) = false ∧ lone (l.drop (i + 1)) = lone l := by
  have hlone := strFind_lone n q s l
  rwa [h] at hlone

theorem canonLoop_lone (s : ScanState) (l : List UInt8) :
    match canonLoop s l with
    | .error e => e = .overrun ∧ lone l = true
    | .ok out => out.length ≤ l.length ∧ lone l = false := by
  fun_induction canonLoop s l with
  | case1 => exact ⟨Nat.le_refl _, rfl⟩
  | case2 s => exact ⟨rfl, rfl⟩
  | case3 s d rest ih =>
    cases hloop : canonLoop s rest with
    | error e => simpa [hloop, Except.map, lone] using ih
    | ok out =>
      rw [hloop] at ih
      refine ⟨?_, by rw [lone_escaped]; exact ih.2⟩
      have hle := ih.1
      simp only [List.length_cons]
      omega
  | case4 s c rest hc ih =>
    cases hloop : canonLoop (canonStep s c).2 rest with
    | error e => simpa [hloop, Except.map, lone_cons hc] using ih
    | ok out =>
      rw [hloop] at ih
      refine ⟨?_, by rw [lone_cons hc]; exact ih.2⟩
      have hle := ih.1
      have hstep : (canonStep s c).1.length ≤ 1 := by
        unfold canonStep
        split_ifs <;> simp
      simp only [List.length_append, List.length_cons]
      omega

/-! ## Passing over a part of a line -/

/-- The state of the scan behind a part of a line in which it finds nothing. -/
def passes (needleList quoteChars : List UInt8) : ScanState → List UInt8 → Option ScanState
  | s, [] => some s
  | s, c :: rest =>
    if c = BACKSLASH then
      match rest with
      | [] => none
      | _ :: rest => passes needleList quoteChars s rest
    else
      match findStep needleList quoteChars s c with
      | none => none
      | some s => passes needleList quoteChars s rest

theorem passes_escaped (c : UInt8) : passes n q s (BACKSLASH :: c :: l) = passes n q s l :=
  if_pos rfl

theorem passes_cons (hc : c ≠ BACKSLASH) (hstep : findStep n q s c = some s') :
    passes n q s (c :: l) = passes n q s' l := by
  cases l with
  | nil =>
    refine (if_neg hc).trans ?_
    rw [hstep]
  | cons d l =>
    refine (if_neg hc).trans ?_
    rw [hstep]

theorem strFind_append (h : passes n q s a = some s') :
    strFind n q s (a ++ b) = (strFind n q s' b).map (Option.map (· + a.length)) := by
  fun_induction passes n q s a with
  | case1 s =>
    obtain rfl := Option.some.inj h
    cases hfind : strFind n q s b with
    | error e => simp [hfind, Except.map]
    | ok o => cases o <;> simp [hfind, Except.map]
  | case2 s => exact nomatch h
  | case3 s d rest ih =>
    simp only [List.cons_append, strFind_escaped, ih h]
    cases hfind : strFind n q s' b with
    | error e => rfl
    | ok o => cases o <;> simp [Except.map, Nat.add_assoc]
  | case4 s c rest hc hstep => exact nomatch h
  | case5 s c rest hc s₁ hstep ih =>
    simp only [List.cons_append, strFind_cons hc, hstep, ih h]
    cases hfind : strFind n q s' b with
    | error e => rfl
    | ok o => cases o <;> simp [Except.map, Nat.add_assoc]

theorem strFind_of_passes (h : passes n q s l = some s') : strFind n q s l = .ok none := by
  have happ := strFind_append (b := []) h
  rwa [List.append_nil] at happ

theorem passes_append (h : passes n q s a = some s') : passes n q s (a ++ b) = passes n q s' b := by
  fun_induction passes n q s a with
  | case1 s =>
    obtain rfl := Option.some.inj h
    rfl
  | case2 s => exact nomatch h
  | case3 s d rest ih =>
    simpa only [List.cons_append, passes_escaped] using ih h
  | case4 s c rest hc hstep => exact nomatch h
  | case5 s c rest hc s₁ hstep ih =>
    simpa only [List.cons_append, passes_cons hc hstep] using ih h

end Glidix.Sh
