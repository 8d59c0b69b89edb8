import Mathlib.Data.List.Basic
import Mathlib.Data.List.DropRight

/-!
# Lists of terminated strings

A string is a non-empty list of bytes without the terminator 0.  `terminated` writes strings one after the
other, each with its terminator; an empty string ends such a list.  `splitStrings` reads the strings of a
list back, up to the empty one, with what stands behind it.
-/

namespace Cstring

/-- Each string with its terminator. -/
def terminated (l : List (List UInt8)) : List UInt8 := l.flatMap fun s => s ++ [0]

@[simp] theorem terminated_nil : terminated [] = [] := rfl

@[simp] theorem terminated_cons (s : List UInt8) (l : List (List UInt8)) :
    terminated (s :: l) = s ++ 0 :: terminated l := by
  rw [terminated, List.flatMap_cons, List.append_assoc]
  rfl

theorem terminated_append (l l' : List (List UInt8)) :
    terminated (l ++ l') = terminated l ++ terminated l' := List.flatMap_append

theorem length_terminated_replicate (n : ℕ) (s : List UInt8) :
    (terminated (List.replicate n s)).length = n * (s.length + 1) := by
  induction n with
  | zero => rw [Nat.zero_mul]; rfl
  | succ n ih =>
    rw [List.replicate_succ, terminated_cons, List.length_append, List.length_cons, ih, Nat.succ_mul]
    omega

def IsString (s : List UInt8) : Prop := s ≠ [] ∧ 0 ∉ s

variable {s bs : List UInt8}

/-- The string at the start of some bytes. -/
theorem takeWhile_string (hs : 0 ∉ s) : (s ++ 0 :: bs).takeWhile (· ≠ 0) = s := by
  rw [List.takeWhile_append_of_pos fun c hc => decide_eq_true (ne_of_mem_of_not_mem hc hs),
    List.takeWhile_cons_of_neg (by decide), List.append_nil]

theorem dropWhile_string (hs : 0 ∉ s) : (s ++ 0 :: bs).dropWhile (· ≠ 0) = 0 :: bs := by
  rw [List.dropWhile_append_of_pos fun c hc => decide_eq_true (ne_of_mem_of_not_mem hc hs),
    List.dropWhile_cons_of_neg (by decide)]

/-- The strings of a list up to the first empty one, and what stands behind that; `token` is the start of
the current string. -/
def splitStrings (token : List UInt8) : List UInt8 → List (List UInt8) × Option (List UInt8)
  | [] => ([], none)
  | b :: bs =>
    if b = 0 then
      if token = [] then ([], some bs)
      else
        let r := splitStrings [] bs
        (token :: r.1, r.2)
    else splitStrings (token ++ [b]) bs

theorem splitStrings_end : splitStrings [] (0 :: bs) = ([], some bs) := rfl

theorem splitStrings_close {token : List UInt8} (h : token ≠ []) :
    splitStrings token (0 :: bs) = (token :: (splitStrings [] bs).1, (splitStrings [] bs).2) := if_neg h

theorem splitStrings_char {token : List UInt8} {b : UInt8} (h : b ≠ 0) :
    splitStrings token (b :: bs) = splitStrings (token ++ [b]) bs := if_neg h

/-- The strings are strings, and they are the bytes that were read. -/
theorem splitStrings_spec {token bs rest : List UInt8} {l : List (List UInt8)} (htoken : 0 ∉ token)
    (h : splitStrings token bs = (l, some rest)) :
    (∀ s ∈ l, IsString s) ∧ token ++ bs = terminated l ++ 0 :: rest := by
  induction bs generalizing token l with
  | nil => exact nomatch h
  | cons b bs ih =>
    by_cases hb : b = 0
    · subst hb
      by_cases htok : token = []
      · subst htok
        obtain ⟨rfl, hrest⟩ := Prod.mk.inj h
        obtain rfl := Option.some.inj hrest
        exact ⟨nofun, rfl⟩
      · rw [splitStrings_close htok] at h
        obtain ⟨rfl, hrest⟩ := Prod.mk.inj h
        obtain ⟨hl, heq⟩ := ih List.not_mem_nil (Prod.ext rfl hrest)
        refine ⟨fun s hs => ?_, ?_⟩
        · rcases List.mem_cons.1 hs with rfl | hs
          · exact ⟨htok, htoken⟩
          · exact hl s hs
        · rw [List.nil_append] at heq
          rw [terminated_cons, List.append_assoc, List.cons_append, ← heq]
    · have hnot : 0 ∉ token ++ [b] := by
        rw [List.mem_append, List.mem_singleton]
        rintro (hin | rfl)
        · exact htoken hin
        · exact hb rfl
      rw [splitStrings_char hb] at h
      obtain ⟨hl, heq⟩ := ih hnot h
      refine ⟨hl, ?_⟩
      rw [← heq, List.append_assoc, List.singleton_append]

/-- Reading a string up to its terminator. -/
theorem splitStrings_string {token s bs : List UInt8} (hs : 0 ∉ s) (hne : token ++ s ≠ []) :
    splitStrings token (s ++ 0 :: bs) =
      ((token ++ s) :: (splitStrings [] bs).1, (splitStrings [] bs).2) := by
  induction s generalizing token with
  | nil =>
    rw [List.append_nil] at hne
    rw [List.nil_append, List.append_nil, splitStrings_close hne]
  | cons b s ih =>
    obtain ⟨hb, hs⟩ := List.ne_and_not_mem_of_not_mem_cons hs
    rw [List.cons_append, splitStrings_char (Ne.symm hb), ih hs (by simp)]
    simp only [List.append_assoc, List.singleton_append]

/-- What is written is read back. -/
theorem splitStrings_terminated {l : List (List UInt8)} {rest : List UInt8}
    (hl : ∀ s ∈ l, IsString s) : splitStrings [] (terminated l ++ 0 :: rest) = (l, some rest) := by
  induction l with
  | nil => rfl
  | cons s l ih =>
    have hs := hl s List.mem_cons_self
    have hrest := ih fun t ht => hl t (List.mem_cons_of_mem _ ht)
    rw [terminated_cons, List.append_assoc, List.cons_append, splitStrings_string hs.2 (by simpa using hs.1),
      hrest, List.nil_append]

/-- Bytes that end in an empty string: they may be read after a string as well as in the middle of one. -/
theorem splitStrings_isSome {token bs : List UInt8} (h : [0, 0] <:+ bs ∨ token = [] ∧ bs = [0]) :
    ∃ rest, (splitStrings token bs).2 = some rest ∧ (rest = [] ∨ rest = [0] ∨ [0, 0] <:+ rest) := by
  induction bs generalizing token with
  | nil =>
    rcases h with h | ⟨-, h⟩
    · exact absurd h.length_le (by decide)
    · exact nomatch h
  | cons b bs ih =>
    by_cases hb : b = 0
    · subst hb
      have htail : bs = [] ∧ token = [] ∨ bs = [0] ∨ [0, 0] <:+ bs := by
        rcases h with h | ⟨htok, h⟩
        · rcases List.suffix_cons_iff.1 h with h | h
          · exact .inr (.inl (List.cons.inj h).2.symm)
          · exact .inr (.inr h)
        · exact .inl ⟨(List.cons.inj h).2, htok⟩
      by_cases htok : token = []
      · subst htok
        exact ⟨bs, rfl, htail.imp_left And.left⟩
      · rw [splitStrings_close htok]
        rcases htail with ⟨-, hnil⟩ | hend | hend
        · exact absurd hnil htok
        · exact ih (.inr ⟨rfl, hend⟩)
        · exact ih (.inl hend)
    · rw [splitStrings_char hb]
      refine ih (.inl ?_)
      rcases h with h | ⟨-, h⟩
      · rcases List.suffix_cons_iff.1 h with h | h
        · exact absurd (List.cons.inj h).1.symm hb
        · exact h
      · exact absurd (List.cons.inj h).1 hb

/-! ## Where the strings are -/

/-- The places of the strings if the first one is at `pos`. -/
def places (pos : ℕ) : List (List UInt8) → List ℕ
  | [] => []
  | s :: l => pos :: places (pos + s.length + 1) l

@[simp] theorem length_places (pos : ℕ) (l : List (List UInt8)) : (places pos l).length = l.length := by
  induction l generalizing pos with
  | nil => rfl
  | cons s l ih => rw [places, List.length_cons, List.length_cons, ih]

theorem places_lt {pos k : ℕ} {l : List (List UInt8)} (h : k ∈ places pos l) :
    k < pos + (terminated l).length := by
  induction l generalizing pos with
  | nil => exact nomatch h
  | cons s l ih =>
    rw [terminated_cons, List.length_append, List.length_cons]
    rcases List.mem_cons.1 h with rfl | h
    · omega
    · have hlt := ih h
      omega

/-- At the place of each string there is the string and its terminator. -/
theorem places_spec (pre post : List UInt8) (l : List (List UInt8)) :
    List.Forall₂ (fun k s => ((pre ++ terminated l ++ post).drop k).take (s.length + 1) = s ++ [0])
      (places pre.length l) l := by
  induction l generalizing pre with
  | nil => exact .nil
  | cons s l ih =>
    refine .cons ?_ ?_
    · have hsplit : pre ++ terminated (s :: l) ++ post = pre ++ ((s ++ [0]) ++ (terminated l ++ post)) := by
        simp
      rw [hsplit, List.drop_left]
      exact List.take_left' (List.length_append ..)
    · have hrest := ih (pre ++ s ++ [0])
      simp only [List.length_append, List.length_singleton] at hrest
      rw [terminated_cons]
      simpa only [List.append_assoc, List.nil_append, List.cons_append] using hrest

end Cstring
