import Mathlib.Data.List.TakeWhile
import Mathlib.Tactic.Common

/-!
# `strtok`

A call skips separators, and the token it returns ends where it overwrites the next one.  A string is the list of
the bytes before its terminator, and the saved pointer is the string behind it.  Calls with the same separators
return the nonempty pieces between the separators, one after the other.
-/

namespace Glidix.Libc.Strtok

/-- The loop over leading separators: `p` walks along `s2`, and starts over after a match. -/
def skip (s2 : List UInt8) : List UInt8 → List UInt8 → List UInt8
  | [], s1 => s1
  | _ :: _, [] => []
  | d :: p, c :: s1 => if c = d then skip s2 s2 s1 else skip s2 p (c :: s1)
termination_by p s1 => (s1.length, p.length)

/-- The loop over the token: its bytes, and the string behind the separator that became its terminator. -/
def cut (s2 token : List UInt8) : List UInt8 → List UInt8 × Option (List UInt8)
  | [] => (token, none)
  | c :: s => if s2.contains c then (token, some s) else cut s2 (token ++ [c]) s

/-- The token and the new value of `*tmp`. -/
def strtok_r (s1 : Option (List UInt8)) (s2 : List UInt8) (tmp : Option (List UInt8)) :
    Option (List UInt8) × Option (List UInt8) :=
  match s1.or tmp with
  | none => (none, none)
  | some s =>
    match skip s2 s2 s with
    | [] => (none, none)
    | c :: s => (some (cut s2 [] (c :: s)).1, (cut s2 [] (c :: s)).2)

/-- What the next `fuel` calls with a null string return, up to the first that returns nothing. -/
def tokensFrom (s2 : List UInt8) : ℕ → Option (List UInt8) → List (List UInt8)
  | 0, _ => []
  | fuel + 1, tmp =>
    match strtok_r none s2 tmp with
    | (none, _) => []
    | (some token, tmp) => token :: tokensFrom s2 fuel tmp

/-- The tokens a loop of calls sees.  The first call stores its string where the later ones find it. -/
def tokens (s2 s : List UInt8) : List (List UInt8) := tokensFrom s2 (s.length + 1) (some s)

variable {s2 s s1 token t : List UInt8} {c : UInt8} {fuel : ℕ}

/-! ## One call -/

theorem skip_cons (p : List UInt8) :
    skip s2 p (c :: s1) = if c ∈ p then skip s2 s2 s1 else c :: s1 := by
  induction p with
  | nil => simp [skip]
  | cons d p ih =>
    rw [skip]
    by_cases h : c = d
    · rw [if_pos h, if_pos (List.mem_cons.2 (.inl h))]
    · rw [if_neg h, ih]
      simp [h]

theorem skip_nil (p : List UInt8) : skip s2 p [] = [] := by
  cases p <;> rw [skip]

theorem skip_eq (s : List UInt8) : skip s2 s2 s = s.dropWhile s2.contains := by
  induction s with
  | nil => exact skip_nil s2
  | cons c s ih =>
    rw [skip_cons, ih]
    by_cases h : c ∈ s2 <;> simp [h]

/-- The token grows up to the first separator. -/
theorem cut_append (ht : ∀ c ∈ t, c ∉ s2) (hc : c ∈ s2) :
    cut s2 token (t ++ c :: s) = (token ++ t, some s) := by
  induction t generalizing token with
  | nil => simp [cut, hc]
  | cons x t ih =>
    have hx : x ∉ s2 := ht x List.mem_cons_self
    rw [List.cons_append, cut, if_neg (by simpa using hx), ih fun y hy => ht y (List.mem_cons_of_mem x hy),
      List.append_assoc, List.singleton_append]

theorem cut_last (ht : ∀ c ∈ t, c ∉ s2) : cut s2 token t = (token ++ t, none) := by
  induction t generalizing token with
  | nil => simp [cut]
  | cons x t ih =>
    have hx : x ∉ s2 := ht x List.mem_cons_self
    rw [cut, if_neg (by simpa using hx), ih fun y hy => ht y (List.mem_cons_of_mem x hy),
      List.append_assoc, List.singleton_append]

theorem strtok_r_blank (h : s.dropWhile s2.contains = []) : strtok_r none s2 (some s) = (none, none) := by
  simp [strtok_r, skip_eq, h]

/-- A string is blank, or it has a first token: the last one, or one with a separator behind it. -/
theorem split_token (s2 s : List UInt8) :
    (∀ c ∈ s, c ∈ s2) ∨ ∃ blank t, (∀ c ∈ blank, c ∈ s2) ∧ t ≠ [] ∧ (∀ c ∈ t, c ∉ s2) ∧
      (s = blank ++ t ∨ ∃ c r, c ∈ s2 ∧ s = blank ++ t ++ c :: r) := by
  have hblank : ∀ c ∈ s.takeWhile s2.contains, c ∈ s2 := fun c hc => by
    simpa using List.mem_takeWhile_imp hc
  have hsplit := List.takeWhile_append_dropWhile (p := s2.contains) (l := s)
  cases hu : s.dropWhile s2.contains with
  | nil =>
    rw [hu, List.append_nil] at hsplit
    exact .inl (hsplit ▸ hblank)
  | cons x u =>
    have hx : x ∉ s2 := by
      have hhead := List.head?_dropWhile_not s2.contains s
      rw [hu] at hhead
      simpa using hhead
    have htoken : ∀ c ∈ (x :: u).takeWhile (fun c => !s2.contains c), c ∉ s2 := fun c hc => by
      simpa using List.mem_takeWhile_imp hc
    have hrest := List.takeWhile_append_dropWhile (p := fun c => !s2.contains c) (l := x :: u)
    refine .inr ⟨s.takeWhile s2.contains, (x :: u).takeWhile (fun c => !s2.contains c), hblank, ?_,
      htoken, ?_⟩
    · simp [hx]
    · rw [hu] at hsplit
      cases hr : (x :: u).dropWhile (fun c => !s2.contains c) with
      | nil =>
        rw [hr, List.append_nil] at hrest
        exact .inl (by rw [hrest, hsplit])
      | cons c r =>
        have hc : c ∈ s2 := by
          have hhead := List.head?_dropWhile_not (fun c => !s2.contains c) (x :: u)
          rw [hr] at hhead
          simpa using hhead
        exact .inr ⟨c, r, hc, by rw [List.append_assoc, ← hr, hrest, hsplit]⟩

theorem dropWhile_blank {blank : List UInt8} (hblank : ∀ c ∈ blank, c ∈ s2) (ht : t ≠ [])
    (hsep : ∀ c ∈ t, c ∉ s2) (r : List UInt8) : (blank ++ t ++ r).dropWhile s2.contains = t ++ r := by
  cases t with
  | nil => exact absurd rfl ht
  | cons x t =>
    have hx : x ∉ s2 := hsep x List.mem_cons_self
    rw [List.append_assoc, List.dropWhile_append_of_pos (by simpa using hblank), List.cons_append,
      List.dropWhile_cons_of_neg (by simpa using hx)]

theorem strtok_r_token {blank : List UInt8} (hblank : ∀ c ∈ blank, c ∈ s2) (ht : t ≠ [])
    (hsep : ∀ c ∈ t, c ∉ s2) (hc : c ∈ s2) :
    strtok_r none s2 (some (blank ++ t ++ c :: s)) = (some t, some s) := by
  have hskip := dropWhile_blank hblank ht hsep (c :: s)
  have hcut : cut s2 [] (t ++ c :: s) = ([] ++ t, some s) := cut_append hsep hc
  cases t with
  | nil => exact absurd rfl ht
  | cons x t =>
    simp only [strtok_r, Option.none_or, skip_eq, hskip, List.cons_append] at hcut ⊢
    rw [hcut, List.nil_append]

theorem strtok_r_last {blank : List UInt8} (hblank : ∀ c ∈ blank, c ∈ s2) (ht : t ≠ [])
    (hsep : ∀ c ∈ t, c ∉ s2) : strtok_r none s2 (some (blank ++ t)) = (some t, none) := by
  have hskip := dropWhile_blank hblank ht hsep []
  have hcut : cut s2 [] t = ([] ++ t, none) := cut_last hsep
  cases t with
  | nil => exact absurd rfl ht
  | cons x t =>
    simp only [strtok_r, Option.none_or, skip_eq, List.append_nil] at hskip hcut ⊢
    rw [hskip]
    dsimp only
    rw [hcut, List.nil_append]

/-! ## All calls -/

/-- The nonempty pieces of a string. -/
def pieces (s2 s : List UInt8) : List (List UInt8) := (s.splitOnP s2.contains).filter (· ≠ [])

theorem pieces_blank (h : ∀ c ∈ s, c ∈ s2) (r : List UInt8) : pieces s2 (s ++ r) = pieces s2 r := by
  induction s with
  | nil => rfl
  | cons c s ih =>
    have hc : s2.contains c = true := by simpa using h c List.mem_cons_self
    rw [← ih fun x hx => h x (List.mem_cons_of_mem c hx), pieces, pieces, List.cons_append,
      List.splitOnP_cons_eq_if_modifyHead, if_pos hc]
    rfl

theorem pieces_last (ht : t ≠ []) (hsep : ∀ c ∈ t, c ∉ s2) : pieces s2 t = [t] := by
  rw [pieces, List.splitOnP_eq_singleton fun c hc => by simpa using hsep c hc]
  simp [ht]

theorem pieces_token (ht : t ≠ []) (hsep : ∀ c ∈ t, c ∉ s2) (hc : c ∈ s2) :
    pieces s2 (t ++ c :: s) = t :: pieces s2 s := by
  have hall : ∀ x ∈ t, s2.contains x = false := fun x hx => by simpa using hsep x hx
  rw [pieces, List.splitOnP_append_cons_of_forall_mem hall c (by simpa using hc)]
  simp [ht, pieces]

/-- Enough calls return every piece: each call that returns a token leaves a shorter string. -/
theorem tokensFrom_eq (h : s.length < fuel) : tokensFrom s2 fuel (some s) = pieces s2 s := by
  induction fuel generalizing s with
  | zero => exact absurd h (Nat.not_lt_zero _)
  | succ fuel ih =>
    rw [tokensFrom]
    obtain hs | ⟨blank, t, hblank, ht, hsep, rfl | ⟨c, r, hc, rfl⟩⟩ := split_token s2 s
    · rw [strtok_r_blank (List.dropWhile_eq_nil_iff.2 fun c hc => by simpa using hs c hc)]
      simpa [pieces] using (pieces_blank hs []).symm
    · rw [strtok_r_last hblank ht hsep, pieces_blank hblank, pieces_last ht hsep]
      cases fuel <;> rfl
    · rw [strtok_r_token hblank ht hsep hc, List.append_assoc, pieces_blank hblank, pieces_token ht hsep hc]
      dsimp only
      rw [ih (by simp at h; omega)]

theorem tokens_eq (s2 s : List UInt8) : tokens s2 s = pieces s2 s := tokensFrom_eq (Nat.lt_succ_self _)

theorem mem_pieces (h : t ∈ pieces s2 s) : t ≠ [] ∧ ∀ c ∈ t, c ∈ s ∧ c ∉ s2 := by
  induction hn : s.length using Nat.strong_induction_on generalizing s with
  | _ n ih =>
    obtain hs | ⟨blank, u, hblank, hu, hsep, rfl | ⟨c, r, hc, rfl⟩⟩ := split_token s2 s
    · have hnone := pieces_blank hs []
      rw [List.append_nil] at hnone
      rw [hnone] at h
      simp [pieces] at h
    · rw [pieces_blank hblank, pieces_last hu hsep, List.mem_singleton] at h
      rw [h]
      exact ⟨hu, fun x hx => ⟨List.mem_append_right blank hx, hsep x hx⟩⟩
    · rw [List.append_assoc, pieces_blank hblank, pieces_token hu hsep hc, List.mem_cons] at h
      rcases h with rfl | h
      · exact ⟨hu, fun x hx => ⟨by simp [hx], hsep x hx⟩⟩
      · obtain ⟨hne, hall⟩ := ih r.length (by simp at hn; omega) h rfl
        exact ⟨hne, fun x hx => ⟨by simp [(hall x hx).1], (hall x hx).2⟩⟩

/-- Fields with a separator between them. -/
theorem tokens_intercalate {ts : List (List UInt8)} (hts : ∀ t ∈ ts, t ≠ [] ∧ c ∉ t) :
    tokens [c] ([c].intercalate ts) = ts := by
  rw [tokens_eq]
  induction ts with
  | nil => simp [pieces]
  | cons t ts ih =>
    obtain ⟨ht, hc⟩ := hts t List.mem_cons_self
    have hsep : ∀ x ∈ t, x ∉ [c] := fun x hx hxc => hc (List.mem_singleton.1 hxc ▸ hx)
    cases ts with
    | nil => simpa using pieces_last ht hsep
    | cons u us =>
      rw [List.intercalate_cons_cons, List.append_assoc, List.singleton_append,
        pieces_token ht hsep (List.mem_singleton.2 rfl), ih fun v hv => hts v (List.mem_cons_of_mem t hv)]

/-- Lines with a terminator each. -/
theorem tokens_lines {ts : List (List UInt8)} (hts : ∀ t ∈ ts, t ≠ [] ∧ c ∉ t) :
    tokens [c] (ts.flatMap (· ++ [c])) = ts := by
  rw [tokens_eq]
  induction ts with
  | nil => simp [pieces]
  | cons t ts ih =>
    obtain ⟨ht, hc⟩ := hts t List.mem_cons_self
    have hsep : ∀ x ∈ t, x ∉ [c] := fun x hx hxc => hc (List.mem_singleton.1 hxc ▸ hx)
    rw [List.flatMap_cons, List.append_assoc, List.singleton_append,
      pieces_token ht hsep (List.mem_singleton.2 rfl), ih fun v hv => hts v (List.mem_cons_of_mem t hv)]

end Glidix.Libc.Strtok
