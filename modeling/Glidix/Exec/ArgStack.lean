import Mathlib.Data.List.Forall2
import Glidix.Exec.ArgBlock

/-!
# What a program finds on its stack

A program starts with `argc`, its arguments, its environment and the auxiliary vector on the stack, if its
block has no more strings than `argOffsets` has room for, fits on the stack, and has an environment or no
interpreter.
-/

namespace Glidix.Exec

open Bytes Cstring

/-! ## Strings of the block -/

/-- The number of strings that the scan finds, the empty ones included. -/
def totalTokens (pars : List UInt8) : ℕ :=
  (argStrings pars).length + 1 + if behindArgs pars = [] then 0 else (envStrings pars).length + 1

theorem totalTokens_ne (pars : List UInt8) : totalTokens pars ≠ 0 := by
  unfold totalTokens
  omega

variable {pars : List UInt8} {u scan : ℕ} {bs s : List UInt8} {st : Scan} {l : List (List UInt8)}

/-! ## The scan -/

/-- The address of a place in the block. -/
def ptr (u pos : ℕ) : ℕ := (u + pos) % 2 ^ 64

theorem scanPars_nil : scanPars u scan false [] st = some st := rfl

/-- The end of a string. -/
theorem scanPars_end : scanPars u scan true (0 :: bs) st = scanPars u (scan + 1) false bs st := if_pos rfl

theorem scanPars_char {c : UInt8} (hc : c ≠ 0) :
    scanPars u scan true (c :: bs) st = scanPars u (scan + 1) true bs st := if_neg hc

/-- The first byte of a string. -/
theorem scanPars_first {c : UInt8} (hc : c ≠ 0) : scanPars u scan false (c :: bs) st =
    (st.put (ptr u scan)).bind fun st =>
      scanPars u (scan + 1) true bs { st with argc := if st.stillArgs then st.argc + 1 else st.argc } :=
  if_neg hc

theorem scanPars_inside (hs : 0 ∉ s) :
    scanPars u scan true (s ++ 0 :: bs) st = scanPars u (scan + s.length + 1) false bs st := by
  induction s generalizing scan with
  | nil => exact scanPars_end
  | cons c s ih =>
    obtain ⟨hc, hs⟩ := List.ne_and_not_mem_of_not_mem_cons hs
    rw [List.cons_append, scanPars_char (Ne.symm hc), ih hs, List.length_cons]
    congr 1
    omega

/-- The scan after strings have been found from `scan` on. -/
def Scan.strings (st : Scan) (u scan : ℕ) (l : List (List UInt8)) : Scan :=
  ⟨st.argOffsets ++ (places scan l).map (ptr u), st.stillArgs,
    if st.stillArgs then st.argc + l.length else st.argc⟩

/-- The scan over strings: their places are put into `argOffsets` if there is room for all of them. -/
theorem scanPars_strings (hl : ∀ s ∈ l, IsString s) (hroom : st.argOffsets.length ≤ 2048) :
    scanPars u scan false (terminated l ++ bs) st =
      if st.argOffsets.length + l.length ≤ 2048 then
        scanPars u (scan + (terminated l).length) false bs (st.strings u scan l)
      else none := by
  induction l generalizing scan st with
  | nil => simp [places, hroom, Scan.strings]
  | cons s l ih =>
    have hs := hl s List.mem_cons_self
    obtain ⟨c, t, rfl⟩ := List.exists_cons_of_ne_nil hs.1
    obtain ⟨hc, ht⟩ := List.ne_and_not_mem_of_not_mem_cons hs.2
    rw [terminated_cons, List.append_assoc, List.cons_append, List.cons_append, scanPars_first (Ne.symm hc),
      Scan.put]
    by_cases hfull : st.argOffsets.length < 2048
    · rw [if_pos hfull, Option.bind_some, scanPars_inside ht, ih fun x hx => hl x (List.mem_cons_of_mem _ hx)]
      · simp only [List.length_append, List.length_cons, List.length_nil, Scan.strings, places, List.map_cons,
          List.append_assoc, List.singleton_append]
        refine if_congr (by omega) ?_ rfl
        rw [show scan + 1 + t.length + 1 = scan + (t.length + 1) + 1 by omega]
        congr 1
        · omega
        · cases st.stillArgs <;> simp [ptr]
          omega
      · simp only [List.length_append, List.length_singleton]
        omega
    · rw [if_neg hfull, if_neg (by rw [List.length_cons]; omega)]
      rfl

/-- The offsets that the scan writes. -/
def offsets (u : ℕ) (pars : List UInt8) : List ℕ :=
  (places 0 (argStrings pars)).map (ptr u) ++ 0 ::
    if behindArgs pars = [] then []
    else (places ((terminated (argStrings pars)).length + 1) (envStrings pars)).map (ptr u) ++ [0]

theorem length_offsets (u : ℕ) (pars : List UInt8) : (offsets u pars).length = totalTokens pars := by
  rw [offsets, totalTokens, List.length_append, List.length_cons, List.length_map, length_places]
  split
  · rfl
  · rw [List.length_append, List.length_map, length_places, List.length_singleton]
    omega

/-- The scan over an empty string, the first one or the second one. -/
theorem scanPars_empty : scanPars u scan false (0 :: bs) st =
    if st.argOffsets.length < 2048 then
      if st.stillArgs then scanPars u (scan + 1) false bs ⟨st.argOffsets ++ [0], false, st.argc⟩
      else some ⟨st.argOffsets ++ [0], st.stillArgs, st.argc⟩
    else none := by
  refine (if_pos rfl).trans ?_
  rw [Scan.put]
  by_cases hfull : st.argOffsets.length < 2048
  · rw [if_pos hfull, if_pos hfull, Option.bind_some]
  · rw [if_neg hfull, if_neg hfull]
    rfl

/-- The scan of a block that ends in two terminators. -/
theorem scanPars_block (h : [0, 0] <:+ pars) :
    scanPars u 0 false pars ⟨[], true, 0⟩ =
      if totalTokens pars ≤ 2048 then some ⟨offsets u pars, false, (argStrings pars).length⟩ else none := by
  obtain ⟨hargs, heq, henvs⟩ := block_cases h
  rw [totalTokens, offsets]
  generalize argStrings pars = args at *
  generalize behindArgs pars = behind at *
  generalize envStrings pars = envs at *
  rw [heq, scanPars_strings hargs (Nat.zero_le _), scanPars_empty]
  simp only [Scan.strings, List.nil_append, List.length_map, length_places, List.length_nil, Nat.zero_add,
    if_true]
  by_cases hbehind : behind = []
  · subst hbehind
    simp only [if_true, scanPars_nil]
    by_cases hroom : args.length < 2048
    · rw [if_pos (by omega), if_pos hroom, if_pos (by omega)]
    · rw [if_neg hroom, ite_self, if_neg (by omega)]
  · obtain ⟨henvs, rest, hrest⟩ := henvs hbehind
    simp only [if_neg hbehind]
    by_cases hroom : args.length < 2048
    · have hsize : (List.map (ptr u) (places 0 args) ++ [0]).length ≤ 2048 := by
        rw [List.length_append, List.length_map, length_places, List.length_singleton]
        exact hroom
      rw [if_pos (by omega), if_pos hroom, hrest, scanPars_strings henvs hsize, scanPars_empty]
      simp only [Scan.strings, List.length_append, List.length_map, length_places, List.length_singleton,
        Bool.false_eq_true, if_false]
      by_cases hall : args.length + 1 + envs.length < 2048
      · rw [if_pos (by omega), if_pos hall, if_pos (by omega)]
        simp only [List.append_assoc, List.nil_append, List.cons_append]
      · rw [if_neg hall, ite_self, if_neg (by omega)]
    · rw [if_neg hroom, ite_self, if_neg (by omega)]

/-! ## Copies to the stack -/

section Copies

variable {m m' : UserMem} {dst n : ℕ} {src : List UInt8} {ws : List ℕ}

@[simp] theorem length_words (ws : List ℕ) : (words ws).length = 8 * ws.length := by
  induction ws with
  | nil => rfl
  | cons w ws ih =>
    rw [words, List.flatMap_cons, List.length_append, length_leBytes, List.length_cons, ← words, ih]
    omega

theorem words_append (ws ws' : List ℕ) : words (ws ++ ws') = words ws ++ words ws' :=
  List.flatMap_append

theorem words_concat {ws' : List ℕ} {v w : ℕ} (h : words (ws ++ [v]) = words (ws' ++ [w])) :
    leBytes 8 v = leBytes 8 w := by
  rw [words_append, words_append] at h
  have hlast := (List.append_inj' h (by simp)).2
  simpa [words] using hlast

theorem length_auxv (execfd : Option ℕ) : (auxv execfd).length = 4 := by
  cases execfd <;> rfl

def HasStack (mapped : ℕ → Bool) : Prop := ∀ a, 0x200000 ≤ a → a < 0x400000 → mapped a = true

theorem memcpy_k2u_spec (h : memcpy_k2u m dst src = some m') (hne : src.length ≠ 0) :
    0x200000 ≤ dst ∧ dst < 0x8000000000 ∧ dst ≤ (dst + src.length) % 2 ^ 64 ∧ m'.mapped = m.mapped := by
  unfold memcpy_k2u at h
  simp only [if_neg hne] at h
  obtain ⟨hstart, h⟩ := Option.ite_none_left_eq_some.1 h
  obtain ⟨-, h⟩ := Option.ite_none_left_eq_some.1 h
  obtain ⟨hwrap, h⟩ := Option.ite_none_left_eq_some.1 h
  obtain ⟨-, h⟩ := Option.ite_none_right_eq_some.1 h
  obtain rfl := Option.some.inj h
  unfold ADDR_MIN ADDR_MAX at hstart
  exact ⟨by omega, by omega, by omega, rfl⟩

theorem memcpy_k2u_stack {b : Bytes} {mapped : ℕ → Bool} (hm : HasStack mapped) (hne : src.length ≠ 0)
    (hlo : 0x200000 ≤ dst) (hhi : dst + src.length ≤ 0x400000) :
    memcpy_k2u ⟨b, mapped⟩ dst src = some ⟨setRange b dst src, mapped⟩ := by
  have hmod : (dst + src.length) % 2 ^ 64 = dst + src.length := Nat.mod_eq_of_lt (by omega)
  have hall : (List.range src.length).all (fun k => mapped (dst + k)) = true := by
    rw [List.all_eq_true]
    intro k hk
    rw [List.mem_range] at hk
    exact hm _ (by omega) (by omega)
  unfold memcpy_k2u
  simp only [hmod, hall, ADDR_MIN, ADDR_MAX, if_true]
  rw [if_neg hne, if_neg (by omega), if_neg (by omega), if_neg (by omega)]

theorem back_of_le {a : ℕ} (h : n ≤ a) (ha : a < 2 ^ 64) : back a n = a - n := by
  unfold back
  omega

theorem mapStack_hasStack (image : Image) : HasStack image.mapStack.mapped := fun a hlo hhi => by
  simp [Image.mapStack, hlo, hhi]

end Copies

/-! ## The layout of the stack -/

/-- The memory that the copies need fits between the bounds of the stack. -/
def Room (parsz tokens : ℕ) : Prop :=
  (parsz + 15) / 16 * 16 + 32 + (tokens + 2) / 2 * 16 ≤ 0x200000

instance (parsz tokens : ℕ) : Decidable (Room parsz tokens) := inferInstanceAs (Decidable (_ ≤ _))

def blockAt (parsz : ℕ) : ℕ := (0x400000 - parsz) / 16 * 16

/-- The stack pointer; the offsets are behind `argc`, and the auxiliary vector behind them. -/
def stackAt (parsz tokens : ℕ) : ℕ := blockAt parsz - 32 - (tokens + 2) / 2 * 16

variable {m m' : UserMem} {execfd : Option ℕ} {tokens : ℕ}

/-- The bytes of the memory after the four copies. -/
def stackBytes (b : Bytes) (execfd : Option ℕ) (pars : List UInt8) (s : Scan) : Bytes :=
  let stack := stackAt pars.length s.argOffsets.length
  setRange (setRange (setRange (setRange b (blockAt pars.length) pars)
    (stack + 8 + 8 * s.argOffsets.length) (words (auxv execfd)))
    (stack + 8) (words s.argOffsets)) stack (words [s.argc])

theorem stackAt_of_room (h : Room parsz tokens) :
    0x200000 ≤ stackAt parsz tokens ∧ stackAt parsz tokens % 16 = 0 ∧
      stackAt parsz tokens + 8 + 8 * tokens + 32 + (if tokens % 2 = 0 then 8 else 0) = blockAt parsz ∧
      blockAt parsz + parsz ≤ 0x400000 := by
  unfold Room at h
  unfold stackAt blockAt
  split
  · refine ⟨?_, ?_, ?_, ?_⟩ <;> omega
  · refine ⟨?_, ?_, ?_, ?_⟩ <;> omega

theorem uptrPars_of_le {parsz : ℕ} (h : parsz ≤ 0x400000) : uptrPars parsz = blockAt parsz := by
  rw [uptrPars, back_of_le h (by decide), blockAt]

/-- With enough room the four copies succeed. -/
theorem placeArgs_of_room (execfd : Option ℕ) (hm : HasStack m.mapped) (hroom : Room pars.length st.argOffsets.length)
    (hpars : pars.length ≠ 0) (hoffs : st.argOffsets.length ≠ 0) :
    placeArgs m execfd pars st = some (stackAt pars.length st.argOffsets.length,
      ⟨stackBytes m.bytes execfd pars st, m.mapped⟩) := by
  obtain ⟨b, mapped⟩ := m
  obtain ⟨hlow, -, hblock, hhigh⟩ := stackAt_of_room hroom
  have hu : uptrPars pars.length = blockAt pars.length := uptrPars_of_le (by omega)
  have h32 : back (blockAt pars.length) 32 = blockAt pars.length - 32 := back_of_le (by omega) (by omega)
  have haux : (if st.argOffsets.length % 2 = 0 then back (back (blockAt pars.length) 32) 8
      else back (blockAt pars.length) 32) =
        stackAt pars.length st.argOffsets.length + 8 + 8 * st.argOffsets.length := by
    rw [h32]
    split_ifs at hblock ⊢ with heven
    · rw [back_of_le (by omega) (by omega)]
      omega
    · omega
  have hlist : back (stackAt pars.length st.argOffsets.length + 8 + 8 * st.argOffsets.length)
      (8 * st.argOffsets.length) = stackAt pars.length st.argOffsets.length + 8 := by
    rw [back_of_le (by omega) (by omega)]
    omega
  have hstack : back (stackAt pars.length st.argOffsets.length + 8) 8 =
      stackAt pars.length st.argOffsets.length := by
    rw [back_of_le (by omega) (by omega)]
    omega
  unfold placeArgs
  simp only [hu, haux, hlist, hstack, Option.bind_eq_bind]
  rw [memcpy_k2u_stack hm hpars (by omega) hhigh, Option.bind_some,
    memcpy_k2u_stack hm (by rw [length_words, length_auxv]; omega) (by omega)
      (by rw [length_words, length_auxv]; omega), Option.bind_some,
    memcpy_k2u_stack hm (by rw [length_words]; omega) (by omega) (by rw [length_words]; omega),
    Option.bind_some,
    memcpy_k2u_stack hm (by rw [length_words, List.length_singleton]; omega) hlow
      (by rw [length_words, List.length_singleton]; omega), Option.bind_some]
  rfl

/-- If the four copies succeed, there is enough room. -/
theorem room_of_placeArgs {r : ℕ × UserMem} (hlen : pars.length < 2 ^ 64) (hpars : pars.length ≠ 0)
    (hoffs : st.argOffsets.length ≠ 0) (hmax : st.argOffsets.length ≤ 2048)
    (h : placeArgs m execfd pars st = some r) : Room pars.length st.argOffsets.length := by
  obtain ⟨m₁, h₁, h⟩ := Option.bind_eq_some_iff.1 h
  obtain ⟨m₂, h₂, h⟩ := Option.bind_eq_some_iff.1 h
  obtain ⟨m₃, h₃, h⟩ := Option.bind_eq_some_iff.1 h
  obtain ⟨m₄, h₄, h⟩ := Option.bind_eq_some_iff.1 h
  obtain ⟨hlo₁, hhi₁, hwrap₁, -⟩ := memcpy_k2u_spec h₁ hpars
  obtain ⟨hlo₂, hhi₂, -⟩ := memcpy_k2u_spec h₂ (by rw [length_words, length_auxv]; omega)
  obtain ⟨hlo₃, hhi₃, -⟩ := memcpy_k2u_spec h₃ (by rw [length_words]; omega)
  obtain ⟨hlo₄, hhi₄, -⟩ := memcpy_k2u_spec h₄ (by rw [length_words, List.length_singleton]; omega)
  have hle : pars.length ≤ 0x400000 := by
    unfold uptrPars back at hlo₁ hhi₁ hwrap₁
    omega
  have hu : uptrPars pars.length = blockAt pars.length := uptrPars_of_le hle
  have h32 : back (blockAt pars.length) 32 = blockAt pars.length - 32 := back_of_le (by omega) (by omega)
  simp only [hu, h32] at hlo₁ hhi₁ hlo₂ hhi₂ hlo₃ hhi₃ hlo₄ hhi₄
  -- each copy is low enough for the next address not to wrap around
  split_ifs at hlo₂ hhi₂ hlo₃ hhi₃ hlo₄ hhi₄ with heven
  · rw [back_of_le (by omega) (by omega)] at hlo₂ hhi₂
    rw [back_of_le (a := blockAt pars.length - 32) (by omega) (by omega)] at hlo₃ hhi₃ hlo₄ hhi₄
    rw [back_of_le (by omega) (by omega)] at hlo₃ hhi₃
    rw [back_of_le (n := 8 * st.argOffsets.length) (by omega) (by omega), back_of_le (by omega) (by omega)]
      at hlo₄ hhi₄
    unfold blockAt at hlo₄
    unfold Room
    omega
  · rw [back_of_le (by omega) (by omega)] at hlo₃ hhi₃
    rw [back_of_le (n := 8 * st.argOffsets.length) (by omega) (by omega), back_of_le (by omega) (by omega)]
      at hlo₄ hhi₄
    unfold blockAt at hlo₄
    unfold Room
    omega

/-! ## What the program reads -/

/-- The auxiliary vector up to the entry that ends it. -/
def auxVector : (execfd : Option ℕ) → List ℕ
  | none => [0, 0]
  | some fd => [AT_EXECFD, fd, 0, 0]

/-- At the stack pointer there are `argc`, the arguments, the environment and the auxiliary vector; the
pointers are those of the strings. -/
structure Laid (b : Bytes) (rsp : ℕ) (args envs : List (List UInt8)) (execfd : Option ℕ) : Prop where
  aligned : rsp % 16 = 0
  laid : ∃ argv envp : List ℕ,
    List.Forall₂ (fun p s => slice b p (s.length + 1) = s ++ [0]) argv args ∧
    List.Forall₂ (fun p s => slice b p (s.length + 1) = s ++ [0]) envp envs ∧
    slice b rsp (8 * (args.length :: argv ++ 0 :: (envp ++ 0 :: auxVector execfd)).length) =
      words (args.length :: argv ++ 0 :: (envp ++ 0 :: auxVector execfd))

/-- The scan stays inside `argOffsets`, there is no panic, and a program that is started finds its
strings. -/
def ExecResult.Right (args envs : List (List UInt8)) (execfd : Option ℕ) : ExecResult → Prop
  | .refused => True
  | .overrun => False
  | .panic => False
  | .started rsp m => Laid m.bytes rsp args envs execfd

section Read

variable {b : Bytes} {execfd : Option ℕ}

theorem slice_prefix {pos : ℕ} {x y : List UInt8} (h : slice b pos (x.length + y.length) = x ++ y) :
    slice b pos x.length = x := by
  rw [slice_add] at h
  exact (List.append_inj h (length_slice ..)).1

theorem slice_words_prefix {pos : ℕ} {ws ws' : List ℕ}
    (h : slice b pos (8 * (ws ++ ws').length) = words (ws ++ ws')) :
    slice b pos (8 * ws.length) = words ws := by
  rw [List.length_append, Nat.mul_add, ← length_words ws, ← length_words ws', words_append] at h
  have hprefix := slice_prefix h
  rwa [length_words] at hprefix

/-- The block is where it was copied to. -/
theorem slice_block (hroom : Room pars.length st.argOffsets.length) :
    slice (stackBytes b execfd pars st) (blockAt pars.length) pars.length = pars := by
  obtain ⟨-, -, hblock, -⟩ := stackAt_of_room hroom
  unfold stackBytes
  rw [slice_setRange_after (by rw [length_words, List.length_singleton]; omega),
    slice_setRange_after (by rw [length_words]; omega),
    slice_setRange_after (by rw [length_words, length_auxv]; omega), slice_setRange_self]

/-- `argc`, the offsets and the auxiliary vector are one behind the other. -/
theorem slice_stack (b : Bytes) (execfd : Option ℕ) (hroom : Room pars.length st.argOffsets.length) :
    slice (stackBytes b execfd pars st) (stackAt pars.length st.argOffsets.length)
      (8 * (st.argc :: st.argOffsets ++ auxv execfd).length) =
        words (st.argc :: st.argOffsets ++ auxv execfd) := by
  obtain ⟨-, -, hblock, -⟩ := stackAt_of_room hroom
  have hargc : slice (stackBytes b execfd pars st) (stackAt pars.length st.argOffsets.length) 8 =
      words [st.argc] := slice_setRange_self _ _ (words [st.argc])
  have hoffs : slice (stackBytes b execfd pars st) (stackAt pars.length st.argOffsets.length + 8)
      (8 * st.argOffsets.length) = words st.argOffsets := by
    unfold stackBytes
    rw [slice_setRange_after (by rw [length_words, List.length_singleton]), ← length_words,
      slice_setRange_self]
  have haux : slice (stackBytes b execfd pars st)
      (stackAt pars.length st.argOffsets.length + 8 + 8 * st.argOffsets.length) 32 =
        words (auxv execfd) := by
    have h32 : (words (auxv execfd)).length = 32 := by rw [length_words, length_auxv]
    unfold stackBytes
    rw [slice_setRange_after (by rw [length_words, List.length_singleton]; omega),
      slice_setRange_after (by rw [length_words]), ← h32, slice_setRange_self]
  have hsize : 8 * (st.argc :: st.argOffsets ++ auxv execfd).length = 8 + 8 * st.argOffsets.length + 32 := by
    rw [List.length_append, List.length_cons, length_auxv]
    omega
  have hcons : words (st.argc :: st.argOffsets) = words [st.argc] ++ words st.argOffsets :=
    words_append [st.argc] st.argOffsets
  rw [hsize, Nat.add_assoc, slice_add, hargc, slice_add, hoffs, haux, words_append, hcons,
    List.append_assoc]

/-- The pointers are those of the strings. -/
theorem forall₂_strings (b : Bytes) (execfd : Option ℕ) (pre post : List UInt8)
    (hroom : Room pars.length st.argOffsets.length) (hpars : pars = pre ++ terminated l ++ post) :
    List.Forall₂ (fun p s => slice (stackBytes b execfd pars st) p (s.length + 1) = s ++ [0])
      ((places pre.length l).map (ptr (blockAt pars.length))) l := by
  obtain ⟨-, -, hblock, hhigh⟩ := stackAt_of_room hroom
  rw [List.forall₂_map_left_iff]
  refine (places_spec pre post l).imp fun k s h => ?_
  rw [← hpars] at h
  have hlen := congrArg List.length h
  rw [List.length_take, List.length_drop, List.length_append, List.length_singleton] at hlen
  have hptr : ptr (blockAt pars.length) k = blockAt pars.length + k := Nat.mod_eq_of_lt (by omega)
  rw [hptr, ← drop_take_slice (n := pars.length) (by omega), slice_block hroom, h]

end Read

/-- The block has no more strings than `argOffsets` has room for, it fits on the stack, and there is
something behind its arguments or the program has no interpreter. -/
structure ArgsFit (execfd : Option ℕ) (pars : List UInt8) : Prop where
  tokens : totalTokens pars ≤ 2048
  room : Room pars.length (totalTokens pars)
  behind : behindArgs pars ≠ [] ∨ execfd = none

section Laid

variable {b : Bytes} {execfd : Option ℕ}

/-- The scan of the block when it stays inside `argOffsets`. -/
def blockScan (pars : List UInt8) : Scan :=
  ⟨offsets (blockAt pars.length) pars, false, (argStrings pars).length⟩

theorem laid_of_fits (hend : [0, 0] <:+ pars) (hfit : ArgsFit execfd pars) :
    Laid (stackBytes b execfd pars (blockScan pars)) (stackAt pars.length (totalTokens pars))
      (argStrings pars) (envStrings pars) execfd := by
  obtain ⟨hargs, heq, henvs⟩ := block_cases hend
  have hcount : (blockScan pars).argOffsets.length = totalTokens pars := length_offsets _ pars
  have hroom : Room pars.length (blockScan pars).argOffsets.length := hcount ▸ hfit.room
  have hstack := slice_stack b execfd hroom
  rw [hcount] at hstack
  refine ⟨(stackAt_of_room hfit.room).2.1, (places 0 (argStrings pars)).map (ptr (blockAt pars.length)),
    ?_⟩
  have hargv := forall₂_strings b execfd [] (0 :: behindArgs pars) hroom heq
  by_cases hbehind : behindArgs pars = []
  · -- the words of `auxv` are read as the end of the environment and as the vector
    obtain rfl := hfit.behind.resolve_left (not_not_intro hbehind)
    have hnil : envStrings pars = [] := by rw [envStrings, hbehind]; rfl
    refine ⟨[], hargv, hnil ▸ .nil, ?_⟩
    have hwords : (blockScan pars).argc :: (blockScan pars).argOffsets ++ auxv none =
        ((argStrings pars).length :: (places 0 (argStrings pars)).map (ptr (blockAt pars.length)) ++
          0 :: ([] ++ 0 :: auxVector none)) ++ [0] := by
      simp [blockScan, offsets, hbehind, auxv, auxVector]
    rw [hwords] at hstack
    exact slice_words_prefix hstack
  · obtain ⟨-, rest, hrest⟩ := henvs hbehind
    have hblock : pars = (terminated (argStrings pars) ++ [0]) ++ terminated (envStrings pars) ++ 0 :: rest := by
      rw [List.append_assoc, ← hrest, List.append_assoc, List.singleton_append, ← heq]
    have henvp := forall₂_strings b execfd _ _ hroom hblock
    rw [List.length_append, List.length_singleton] at henvp
    refine ⟨_, hargv, henvp, ?_⟩
    have hwords : (blockScan pars).argc :: (blockScan pars).argOffsets ++ auxv execfd =
        ((argStrings pars).length :: (places 0 (argStrings pars)).map (ptr (blockAt pars.length)) ++
          0 :: ((places ((terminated (argStrings pars)).length + 1) (envStrings pars)).map
            (ptr (blockAt pars.length)) ++ 0 :: auxVector execfd)) ++
          if execfd = none then [0, 0] else [] := by
      cases execfd <;> simp [blockScan, offsets, hbehind, auxv, auxVector]
    rw [hwords] at hstack
    exact slice_words_prefix hstack

/-- With an interpreter and nothing behind the arguments, the program reads the type of the first auxiliary
entry as its environment. -/
theorem not_laid {fd : ℕ} (hroom : Room pars.length (totalTokens pars)) (hbehind : behindArgs pars = []) :
    ¬Laid (stackBytes b (some fd) pars (blockScan pars)) (stackAt pars.length (totalTokens pars))
      (argStrings pars) (envStrings pars) (some fd) := by
  rintro ⟨-, argv, envp, hargv, henvp, hlaid⟩
  have hcount : (blockScan pars).argOffsets.length = totalTokens pars := length_offsets _ pars
  have hstack := slice_stack b (some fd) (hcount ▸ hroom)
  have hnil : envStrings pars = [] := by rw [envStrings, hbehind]; rfl
  rw [hnil, List.forall₂_nil_right_iff] at henvp
  have hread : (argStrings pars).length :: argv ++ 0 :: (envp ++ 0 :: auxVector (some fd)) =
      ((argStrings pars).length :: argv ++ [0] ++ [0]) ++ auxVector (some fd) := by
    simp [henvp]
  have hwritten : (blockScan pars).argc :: (blockScan pars).argOffsets ++ auxv (some fd) =
      ((argStrings pars).length :: (places 0 (argStrings pars)).map (ptr (blockAt pars.length)) ++ [0] ++
        [AT_EXECFD]) ++ [fd, 0, 0] := by
    simp [blockScan, offsets, hbehind, auxv]
  rw [hread] at hlaid
  rw [hwritten, hcount] at hstack
  have hread := slice_words_prefix hlaid
  have hwritten := slice_words_prefix hstack
  have hlen : 8 * ((argStrings pars).length :: argv ++ [0] ++ [0]).length =
      8 * ((argStrings pars).length :: (places 0 (argStrings pars)).map (ptr (blockAt pars.length)) ++ [0] ++
        [AT_EXECFD]).length := by
    simp [hargv.length_eq]
  rw [hlen, hwritten] at hread
  exact absurd (words_concat hread) (by decide)

theorem elfExec_of_block (hlen : ¬pars.length < 4) (hend : [0, 0] <:+ pars) (image : Image) :
    elfExec image execfd pars =
      match scanPars (uptrPars pars.length) 0 false pars ⟨[], true, 0⟩ with
      | none => .overrun
      | some s =>
        match placeArgs image.mapStack execfd pars s with
        | none => .panic
        | some (rsp, m) => .started rsp m := by
  obtain ⟨front, rfl⟩ := hend
  unfold elfExec
  simp only [if_neg hlen]
  have htwo : ¬((front ++ [0, 0]).getD ((front ++ [0, 0]).length - 1) 0 ≠ 0 ∨
      (front ++ [0, 0]).getD ((front ++ [0, 0]).length - 2) 0 ≠ 0) := by simp
  exact if_neg htwo

theorem elfExec_overrun (hlen : ¬pars.length < 4) (hend : [0, 0] <:+ pars) (image : Image)
    (htokens : ¬totalTokens pars ≤ 2048) : elfExec image execfd pars = .overrun := by
  rw [elfExec_of_block hlen hend, scanPars_block hend, if_neg htokens]

theorem elfExec_started (hlen : ¬pars.length < 4) (hend : [0, 0] <:+ pars) (image : Image)
    (htokens : totalTokens pars ≤ 2048) (hroom : Room pars.length (totalTokens pars)) :
    elfExec image execfd pars = .started (stackAt pars.length (totalTokens pars))
      ⟨stackBytes image.mapStack.bytes execfd pars (blockScan pars), image.mapStack.mapped⟩ := by
  obtain ⟨-, -, -, hhigh⟩ := stackAt_of_room hroom
  have hu : uptrPars pars.length = blockAt pars.length := uptrPars_of_le (by omega)
  have hcount : (blockScan pars).argOffsets.length = totalTokens pars := length_offsets _ pars
  have hplace := @placeArgs_of_room pars (blockScan pars) _ execfd (mapStack_hasStack image)
    (hcount ▸ hroom) (by omega) (hcount ▸ totalTokens_ne pars)
  rw [elfExec_of_block hlen hend, scanPars_block hend, if_pos htokens, hu]
  rw [hcount] at hplace
  change (match placeArgs image.mapStack execfd pars (blockScan pars) with
    | none => ExecResult.panic
    | some (rsp, m) => .started rsp m) = _
  rw [hplace]

theorem elfExec_panic (hlen : ¬pars.length < 4) (hbound : pars.length < 2 ^ 64) (hend : [0, 0] <:+ pars)
    (image : Image) (htokens : totalTokens pars ≤ 2048) (hroom : ¬Room pars.length (totalTokens pars)) :
    elfExec image execfd pars = .panic := by
  rw [elfExec_of_block hlen hend, scanPars_block hend, if_pos htokens]
  have hcount : (offsets (uptrPars pars.length) pars).length = totalTokens pars := length_offsets _ pars
  simp only
  split
  · rfl
  · next hplace =>
    have hr := room_of_placeArgs hbound (by omega) (hcount ▸ totalTokens_ne pars) (hcount ▸ htokens) hplace
    rw [hcount] at hr
    exact absurd hr hroom

end Laid

/-! ## The program starts right -/

variable {execfd : Option ℕ}

/-- Exactly when the block fits, `elfExec` stays inside `argOffsets`, does not panic, and the program finds
its strings; it refuses a block of less than four bytes. -/
theorem elfExec_right_iff (image : Image) (hlen : pars.length < 2 ^ 64) (hend : [0, 0] <:+ pars) :
    (elfExec image execfd pars).Right (argStrings pars) (envStrings pars) execfd ↔
      pars.length < 4 ∨ ArgsFit execfd pars := by
  by_cases hshort : pars.length < 4
  · have hrefused : elfExec image execfd pars = .refused := by
      unfold elfExec
      simp only [if_pos hshort]
    rw [hrefused]
    exact iff_of_true trivial (.inl hshort)
  · rw [or_iff_right hshort]
    by_cases htokens : totalTokens pars ≤ 2048
    · by_cases hroom : Room pars.length (totalTokens pars)
      · rw [elfExec_started hshort hend image htokens hroom]
        constructor
        · intro hright
          refine ⟨htokens, hroom, or_iff_not_imp_left.2 fun hbehind => ?_⟩
          cases execfd with
          | none => rfl
          | some fd => exact absurd hright (not_laid hroom (not_not.1 hbehind))
        · exact fun hfit => laid_of_fits hend hfit
      · rw [elfExec_panic hshort hlen hend image htokens hroom]
        exact iff_of_false id fun h => hroom h.room
    · rw [elfExec_overrun hshort hend image htokens]
      exact iff_of_false id fun h => htokens h.tokens

/-- An image without segments. -/
def emptyImage : Image := ⟨⟨fun _ => 0, fun _ => false⟩, fun _ _ => rfl⟩

theorem elfExec_right_hello :
    (elfExec emptyImage (some 3) [104, 105, 0, 0, 69, 61, 49, 0, 0]).Right [[104, 105]] [[69, 61, 49]]
      (some 3) :=
  (elfExec_right_iff emptyImage (by decide) ⟨[104, 105, 0, 0, 69, 61, 49], rfl⟩).2
    (.inr ⟨by decide, by decide, .inl (by decide)⟩)

/-- A block of 4096 bytes with 2047 arguments. -/
def manyArgs : List UInt8 := terminated (List.replicate 2047 [97]) ++ [0, 0]

theorem totalTokens_manyArgs : totalTokens manyArgs = 2049 := by
  have hstrings : ∀ s ∈ List.replicate 2047 [(97 : UInt8)], IsString s := fun s hs => by
    rw [List.eq_of_mem_replicate hs]
    exact ⟨by decide, by decide⟩
  have hsplit : splitStrings [] manyArgs = (List.replicate 2047 [97], some [0]) :=
    splitStrings_terminated hstrings
  have hargs : argStrings manyArgs = List.replicate 2047 [97] := congrArg Prod.fst hsplit
  have hbehind : behindArgs manyArgs = [0] := by rw [behindArgs, hsplit]; rfl
  rw [totalTokens, hargs, envStrings, hbehind, List.length_replicate]
  decide

/-- The scan of a block that `sys_exec` accepts writes behind the end of `argOffsets`. -/
theorem argOffsets_overrun : manyArgs.length = 4096 ∧ [0, 0] <:+ manyArgs ∧
    elfExec emptyImage none manyArgs = .overrun ∧
      ¬(elfExec emptyImage none manyArgs).Right (argStrings manyArgs) (envStrings manyArgs) none := by
  have hlen : manyArgs.length = 4096 := by
    rw [manyArgs, List.length_append, length_terminated_replicate]
    rfl
  have hend : [0, 0] <:+ manyArgs := ⟨_, rfl⟩
  have hover : elfExec emptyImage none manyArgs = .overrun :=
    elfExec_overrun (by omega) hend emptyImage (by rw [totalTokens_manyArgs]; decide)
  refine ⟨hlen, hend, hover, ?_⟩
  rw [hover]
  exact id

end Glidix.Exec
