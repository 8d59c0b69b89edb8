import Glidix.Exec.ArgStack

/-!
# From `execve` to the program that it starts

`execve` of the C library writes the arguments and the environment into one block, each string with its
terminator, and an empty string behind the arguments; `elfExec` reads the block back.  The program finds
what was passed if and only if no string that was passed is empty.
-/

namespace Glidix.Exec

open Bytes Cstring

/-! ## The block of `execve` -/

/-- `strcpy` into a buffer; `none` if it writes behind the end. -/
def strcpy (execpars : List UInt8) (offset : ℕ) (s : List UInt8) : Option (List UInt8) :=
  if offset + s.length + 1 ≤ execpars.length then
    some (execpars.take offset ++ (s ++ [0]) ++ execpars.drop (offset + s.length + 1))
  else none

/-- The two loops of `execve`; the buffer and `offset` behind the strings. -/
def copyStrings : List (List UInt8) → List UInt8 × ℕ → Option (List UInt8 × ℕ)
  | [], r => some r
  | s :: l, (execpars, offset) =>
    (strcpy execpars offset s).bind fun execpars =>
      copyStrings l (execpars, (offset + s.length + 1) % 2 ^ 64)

/-- `argsize` and `envsize`. -/
def stringsSize (l : List (List UInt8)) : ℕ := (l.map List.length).sum

/-- The block that `execve` passes to the kernel. -/
def execve (argv envp : List (List UInt8)) : Option (List UInt8) :=
  let execparsz := (argv.length + stringsSize argv + envp.length + stringsSize envp + 4) % 2 ^ 64
  (copyStrings argv (List.replicate execparsz 0, 0)).bind fun (execpars, offset) =>
    (copyStrings envp (execpars, (offset + 1) % 2 ^ 64)).map Prod.fst

/-- `sys_exec`; `none` if the block is too large for it. -/
def sys_exec (image : Image) (execfd : Option ℕ) (pars : List UInt8) : Option ExecResult :=
  if pars.length > 4096 then none else some (elfExec image execfd pars)

/-! ## What the program reads -/

def StringAt (b : Bytes) (p : ℕ) (s : List UInt8) : Prop :=
  0 ∉ s ∧ slice b p (s.length + 1) = s ++ [0]

/-- The strings of an array of pointers at `a`; a null pointer ends it. -/
inductive Strings (b : Bytes) : ℕ → List (List UInt8) → Prop
  | nil {a : ℕ} (h : slice b a 8 = leBytes 8 0) : Strings b a []
  | cons {a p : ℕ} {s : List UInt8} {l : List (List UInt8)} (h : slice b a 8 = leBytes 8 p) (hne : p ≠ 0)
      (hlt : p < 2 ^ 64) (hs : StringAt b p s) (hl : Strings b (a + 8) l) : Strings b a (s :: l)

/-- `_start` takes `argc` from the stack pointer, `argv` from above it and `envp` from behind the null
pointer of `argv`. -/
structure Found (b : Bytes) (rsp : ℕ) (argv envp : List (List UInt8)) : Prop where
  count : slice b rsp 8 = leBytes 8 argv.length
  args : Strings b (rsp + 8) argv
  envs : Strings b (rsp + 8 + 8 * (argv.length + 1)) envp

variable {b : Bytes} {a p q rsp : ℕ} {s t : List UInt8} {l l' argv argv' envp envp' : List (List UInt8)}

theorem StringAt.unique (h : StringAt b p s) (h' : StringAt b p t) : s = t := by
  -- the shorter of two strings would have its terminator inside the other one
  have key : ∀ {s t : List UInt8}, StringAt b p s → StringAt b p t → s.length ≤ t.length → s = t := by
    intro s t hs ht hle
    have hsplit := ht.2
    rw [show t.length + 1 = (s.length + 1) + (t.length - s.length) by omega, slice_add, hs.2,
      List.append_assoc] at hsplit
    rcases Nat.eq_or_lt_of_le hle with heq | hlt
    · exact (List.append_inj hsplit heq).1
    · have hget := congrArg (fun l : List UInt8 => l[s.length]?) hsplit
      simp only [List.getElem?_append_right (Nat.le_refl _), Nat.sub_self, List.singleton_append,
        List.getElem?_cons_zero, List.getElem?_append_left hlt] at hget
      exact absurd (List.mem_of_getElem? hget.symm) ht.1
  rcases Nat.le_total s.length t.length with hle | hle
  · exact key h h' hle
  · exact (key h' h hle).symm

theorem leBytes_inj (hp : p < 2 ^ 64) (hq : q < 2 ^ 64) (h : leBytes 8 p = leBytes 8 q) : p = q := by
  have hval := congrArg (leAt 0 8) h
  rw [leAt_leBytes, leAt_leBytes] at hval
  have hpow : (256 : ℕ) ^ 8 = 2 ^ 64 := by decide
  rwa [hpow, Nat.mod_eq_of_lt hp, Nat.mod_eq_of_lt hq] at hval

theorem Strings.unique (h : Strings b a l) (h' : Strings b a l') : l = l' := by
  induction h generalizing l' with
  | nil h =>
    cases h' with
    | nil => rfl
    | cons hp hne hlt =>
      exact absurd (leBytes_inj hlt (by decide) (hp.symm.trans h)) hne
  | cons hp hne hlt hs _ ih =>
    cases h' with
    | nil h => exact absurd (leBytes_inj hlt (by decide) (hp.symm.trans h)) hne
    | cons hp' _ hlt' hs' hl' =>
      obtain rfl := leBytes_inj hlt hlt' (hp.symm.trans hp')
      rw [hs.unique hs', ih hl']

/-- The program finds one list of arguments and one environment. -/
theorem Found.unique (h : Found b rsp argv envp) (h' : Found b rsp argv' envp') :
    argv = argv' ∧ envp = envp' := by
  obtain rfl := h.args.unique h'.args
  exact ⟨rfl, h.envs.unique h'.envs⟩

theorem Strings.of_words {ptrs : List ℕ} (hs : List.Forall₂ (StringAt b) ptrs l)
    (hptrs : ∀ p ∈ ptrs, p ≠ 0 ∧ p < 2 ^ 64)
    (hw : slice b a (8 * (ptrs ++ [0]).length) = words (ptrs ++ [0])) : Strings b a l := by
  induction hs generalizing a with
  | nil => exact .nil hw
  | @cons p s ptrs l hp _ ih =>
    have hlen : 8 * (p :: ptrs ++ [0]).length = 8 + 8 * (ptrs ++ [0]).length := by
      rw [List.cons_append, List.length_cons]
      omega
    have hcons : words (p :: ptrs ++ [0]) = leBytes 8 p ++ words (ptrs ++ [0]) := List.flatMap_cons
    rw [hlen, slice_add, hcons] at hw
    obtain ⟨hhead, htail⟩ := List.append_inj hw (by rw [length_slice, length_leBytes])
    obtain ⟨hne, hlt⟩ := hptrs p List.mem_cons_self
    exact .cons hhead hne hlt hp (ih (fun q hq => hptrs q (List.mem_cons_of_mem _ hq)) htail)

/-! ## The kernel's side -/

section Kernel

variable {pars pre post : List UInt8} {m : UserMem} {image : Image} {execfd : Option ℕ}

/-- A pointer to a string of the block is not null. -/
theorem ptr_ne_zero (hroom : Room pars.length (totalTokens pars)) (hpars : pars = pre ++ terminated l ++ post)
    (hp : p ∈ (places pre.length l).map (ptr (blockAt pars.length))) : p ≠ 0 ∧ p < 2 ^ 64 := by
  obtain ⟨hlow, -, hblock, hhigh⟩ := stackAt_of_room hroom
  obtain ⟨k, hk, rfl⟩ := List.mem_map.1 hp
  have hlt : k < pars.length := by
    have hlen := congrArg List.length hpars
    rw [List.length_append, List.length_append] at hlen
    have := places_lt hk
    omega
  have hval : ptr (blockAt pars.length) k = blockAt pars.length + k := Nat.mod_eq_of_lt (by omega)
  rw [hval]
  omega

theorem slice_words_append {ws ws' : List ℕ}
    (h : slice b a (8 * (ws ++ ws').length) = words (ws ++ ws')) :
    slice b a (8 * ws.length) = words ws ∧ slice b (a + 8 * ws.length) (8 * ws'.length) = words ws' := by
  rw [List.length_append, Nat.mul_add, slice_add, words_append] at h
  exact List.append_inj h (by rw [length_slice, length_words])

theorem strings_of_block (hroom : Room pars.length (totalTokens pars)) (hpars : pars = pre ++ terminated l ++ post)
    (hl : ∀ s ∈ l, 0 ∉ s)
    (hw : slice (stackBytes b execfd pars (blockScan pars)) a
      (8 * ((places pre.length l).map (ptr (blockAt pars.length)) ++ [0]).length) =
        words ((places pre.length l).map (ptr (blockAt pars.length)) ++ [0])) :
    Strings (stackBytes b execfd pars (blockScan pars)) a l := by
  have hcount : (blockScan pars).argOffsets.length = totalTokens pars := length_offsets _ pars
  have hbytes := @forall₂_strings _ (blockScan pars) _ b execfd pre post (hcount ▸ hroom) hpars
  refine .of_words ?_ (fun p hp => ptr_ne_zero hroom hpars hp) hw
  have hnul := (List.forall₂_and_left (p := fun s : List UInt8 => 0 ∉ s) l _).2 ⟨hl, hbytes.flip⟩
  exact hnul.flip

/-- A program that is started finds the strings of its block. -/
theorem found_of_started (hlen : pars.length < 2 ^ 64) (hend : [0, 0] <:+ pars) (hbehind : behindArgs pars ≠ [])
    (hstart : elfExec image execfd pars = .started rsp m) :
    Found m.bytes rsp (argStrings pars) (envStrings pars) := by
  have hshort : ¬pars.length < 4 := fun h => by
    unfold elfExec at hstart
    simp only [if_pos h] at hstart
    exact nomatch hstart
  have htokens : totalTokens pars ≤ 2048 := by
    by_contra h
    rw [elfExec_overrun hshort hend image h] at hstart
    exact nomatch hstart
  have hroom : Room pars.length (totalTokens pars) := by
    by_contra h
    rw [elfExec_panic hshort hlen hend image htokens h] at hstart
    exact nomatch hstart
  rw [elfExec_started hshort hend image htokens hroom] at hstart
  obtain ⟨rfl, rfl⟩ := ExecResult.started.inj hstart
  obtain ⟨hargs, heq, henvs⟩ := block_cases hend
  obtain ⟨henvs, rest, hrest⟩ := henvs hbehind
  have hblock : pars = (terminated (argStrings pars) ++ [0]) ++ terminated (envStrings pars) ++ 0 :: rest := by
    rw [List.append_assoc, ← hrest, List.append_assoc, List.singleton_append, ← heq]
  have hcount : (blockScan pars).argOffsets.length = totalTokens pars := length_offsets _ pars
  have hstack := @slice_stack _ (blockScan pars) image.mapStack.bytes execfd (hcount ▸ hroom)
  have hwords : (blockScan pars).argc :: (blockScan pars).argOffsets ++ auxv execfd =
      [(argStrings pars).length] ++ (((places 0 (argStrings pars)).map (ptr (blockAt pars.length)) ++ [0]) ++
        (((places ((terminated (argStrings pars)).length + 1) (envStrings pars)).map
          (ptr (blockAt pars.length)) ++ [0]) ++ auxv execfd)) := by
    simp [blockScan, offsets, hbehind]
  rw [hcount, hwords] at hstack
  obtain ⟨hargc, hstack⟩ := slice_words_append hstack
  obtain ⟨hargv, hstack⟩ := slice_words_append hstack
  obtain ⟨henvp, -⟩ := slice_words_append hstack
  rw [List.length_append, List.length_map, length_places, List.length_singleton, List.length_singleton,
    Nat.mul_one] at henvp
  refine ⟨?_, ?_, ?_⟩
  · exact hargc.trans (List.flatMap_singleton ..)
  · exact @strings_of_block _ _ _ _ [] _ _ hroom heq (fun s hs => (hargs s hs).2) hargv
  · refine strings_of_block hroom hblock (fun s hs => (henvs s hs).2) ?_
    rw [@List.length_append _ (terminated (argStrings pars)) [0], List.length_singleton]
    exact henvp

end Kernel

/-! ## The library's side -/

section Library

variable {pre pars : List UInt8} {n : ℕ}

theorem length_terminated (l : List (List UInt8)) : (terminated l).length = l.length + stringsSize l := by
  induction l with
  | nil => rfl
  | cons s l ih =>
    rw [terminated_cons, List.length_append, List.length_cons, ih, List.length_cons, stringsSize, stringsSize,
      List.map_cons, List.sum_cons]
    omega

theorem strcpy_zeros (pre : List UInt8) (n : ℕ) (s : List UInt8) :
    strcpy (pre ++ List.replicate n 0) pre.length s =
      if s.length + 1 ≤ n then some (pre ++ (s ++ [0]) ++ List.replicate (n - (s.length + 1)) 0) else none := by
  unfold strcpy
  rw [List.length_append, List.length_replicate]
  refine if_congr (by omega) ?_ rfl
  rw [List.take_left, Nat.add_assoc, ← List.drop_drop, List.drop_left, List.drop_replicate]

/-- The strings are written one behind the other, if there is room for them. -/
theorem copyStrings_zeros (h : pre.length + n < 2 ^ 64) :
    copyStrings l (pre ++ List.replicate n 0, pre.length) =
      if (terminated l).length ≤ n then
        some (pre ++ terminated l ++ List.replicate (n - (terminated l).length) 0,
          pre.length + (terminated l).length)
      else none := by
  induction l generalizing pre n with
  | nil => simp [copyStrings]
  | cons s l ih =>
    rw [copyStrings, strcpy_zeros, terminated_cons, List.length_append, List.length_cons]
    by_cases hroom : s.length + 1 ≤ n
    · have hlen : (pre ++ (s ++ [0])).length = pre.length + s.length + 1 := by
        rw [List.length_append, List.length_append, List.length_singleton]
        omega
      have hmod : (pre.length + s.length + 1) % 2 ^ 64 = (pre ++ (s ++ [0])).length := by
        rw [hlen]
        exact Nat.mod_eq_of_lt (by omega)
      rw [if_pos hroom, Option.bind_some, hmod, ih (by rw [hlen]; omega), hlen]
      refine if_congr (by omega) ?_ rfl
      have hrest : n - (s.length + 1) - (terminated l).length = n - (s.length + ((terminated l).length + 1)) := by
        omega
      have hplace : pre.length + s.length + 1 + (terminated l).length =
          pre.length + (s.length + ((terminated l).length + 1)) := by
        omega
      simp only [List.append_assoc, List.singleton_append, hrest, hplace]
    · rw [if_neg hroom, if_neg (by omega)]
      rfl

theorem length_of_strcpy {buf buf' : List UInt8} {offset : ℕ} (h : strcpy buf offset s = some buf') :
    offset + s.length + 1 ≤ buf.length ∧ buf'.length = buf.length := by
  unfold strcpy at h
  obtain ⟨hroom, h⟩ := Option.ite_none_right_eq_some.1 h
  obtain rfl := Option.some.inj h
  refine ⟨hroom, ?_⟩
  simp only [List.length_append, List.length_take, List.length_drop, List.length_singleton]
  omega

theorem length_of_copyStrings {r r' : List UInt8 × ℕ} (h : copyStrings l r = some r') :
    r'.1.length = r.1.length := by
  induction l generalizing r with
  | nil =>
    obtain rfl := Option.some.inj h
    rfl
  | cons s l ih =>
    obtain ⟨buf, hbuf, h⟩ := Option.bind_eq_some_iff.1 h
    exact (ih h).trans (length_of_strcpy hbuf).2

/-- The tokens of the block of `execve`; the last three are what it has reserved and not used. -/
def tokens (argv envp : List (List UInt8)) : List (List UInt8) := argv ++ [] :: (envp ++ [[], [], []])

theorem execve_block (h : execve argv envp = some pars) (hlen : pars.length ≤ 4096) :
    pars = terminated (tokens argv envp) := by
  have hargv := length_terminated argv
  have henvp := length_terminated envp
  unfold execve at h
  obtain ⟨⟨buf, offset⟩, hcopy, h⟩ := Option.bind_eq_some_iff.1 h
  obtain ⟨r, hcopy', rfl⟩ := Option.map_eq_some_iff.1 h
  have hbuf := length_of_copyStrings hcopy
  have hpars := length_of_copyStrings hcopy'
  rw [List.length_replicate] at hbuf
  -- the size does not wrap around, since all strings have been written into it
  generalize hn : (argv.length + stringsSize argv + envp.length + stringsSize envp + 4) % 2 ^ 64 = n at *
  simp only at hpars hbuf
  have hfirst := @copyStrings_zeros argv [] n (by rw [List.length_nil]; omega)
  rw [List.length_nil, List.nil_append, hcopy] at hfirst
  obtain ⟨hroom, hfirst⟩ := Option.ite_none_right_eq_some.1 hfirst.symm
  obtain ⟨rfl, rfl⟩ := Prod.mk.inj (Option.some.inj hfirst)
  rw [List.nil_append, Nat.zero_add, Nat.mod_eq_of_lt (by omega)] at hcopy'
  by_cases hfull : n = (terminated argv).length
  · rw [hfull, Nat.sub_self, List.replicate_zero, List.append_nil] at hcopy'
    cases envp with
    | nil =>
      rw [terminated_nil, List.length_nil] at henvp
      rw [List.length_nil] at hn
      omega
    | cons s l =>
      obtain ⟨buf, hover, -⟩ := Option.bind_eq_some_iff.1 hcopy'
      have := (length_of_strcpy hover).1
      omega
  · have hzeros : terminated argv ++ List.replicate (n - (terminated argv).length) 0 =
        (terminated argv ++ [0]) ++ List.replicate (n - (terminated argv).length - 1) 0 := by
      rw [List.append_assoc, List.singleton_append, ← List.replicate_succ,
        show n - (terminated argv).length - 1 + 1 = n - (terminated argv).length by omega]
    have hplace : (terminated argv).length + 1 = (terminated argv ++ [0]).length := by
      rw [List.length_append, List.length_singleton]
    rw [hzeros, hplace, copyStrings_zeros (by rw [← hplace]; omega)] at hcopy'
    obtain ⟨hroom', hcopy'⟩ := Option.ite_none_right_eq_some.1 hcopy'
    obtain rfl := Option.some.inj hcopy'
    have hspare : n - (terminated argv).length - 1 - (terminated envp).length = 3 := by omega
    rw [hspare, tokens, terminated_append, terminated_cons, terminated_append, List.append_assoc,
      List.append_assoc]
    rfl

end Library

/-! ## Both sides -/

section Both

variable {toks rest : List (List UInt8)} {pars : List UInt8} {image : Image} {execfd : Option ℕ} {m : UserMem}

theorem terminated_ne_nil (h : l ≠ []) : terminated l ≠ [] := by
  obtain ⟨s, l, rfl⟩ := List.exists_cons_of_ne_nil h
  simp

/-- The block of some tokens: the arguments stand before its first empty token, the environment before the
next one. -/
theorem strings_of_tokens {args envs : List (List UInt8)} (hnul : ∀ s ∈ args ++ envs, 0 ∉ s)
    (hargs : [] ∉ args) (henvs : [] ∉ envs) :
    argStrings (terminated (args ++ [] :: (envs ++ [] :: rest))) = args ∧
      behindArgs (terminated (args ++ [] :: (envs ++ [] :: rest))) = terminated (envs ++ [] :: rest) ∧
      envStrings (terminated (args ++ [] :: (envs ++ [] :: rest))) = envs := by
  have hstrings : ∀ {l : List (List UInt8)}, (∀ s ∈ l, 0 ∉ s) → [] ∉ l → ∀ s ∈ l, IsString s :=
    fun hl hempty s hs => ⟨ne_of_mem_of_not_mem hs hempty, hl s hs⟩
  have hsplit : ∀ {l r : List (List UInt8)}, (∀ s ∈ l, IsString s) →
      splitStrings [] (terminated (l ++ [] :: r)) = (l, some (terminated r)) := by
    intro l r hl
    rw [terminated_append, terminated_cons, List.nil_append]
    exact splitStrings_terminated hl
  have hfirst := hsplit (r := envs ++ [] :: rest)
    (hstrings (fun s hs => hnul s (List.mem_append_left _ hs)) hargs)
  have hsecond := hsplit (r := rest) (hstrings (fun s hs => hnul s (List.mem_append_right _ hs)) henvs)
  have hbehind : behindArgs (terminated (args ++ [] :: (envs ++ [] :: rest))) = terminated (envs ++ [] :: rest) := by
    rw [behindArgs, hfirst, Option.getD_some]
  refine ⟨by rw [argStrings, hfirst], hbehind, by rw [envStrings, hbehind, hsecond]⟩

/-- Tokens with at least four empty ones have two in the block. -/
theorem tokens_split (h : 4 ≤ toks.count []) :
    ∃ args envs rest, toks = args ++ [] :: (envs ++ [] :: rest) ∧ [] ∉ args ∧ [] ∉ envs ∧ 2 ≤ rest.count [] := by
  obtain ⟨args, more, rfl, hargs⟩ := List.eq_append_cons_of_mem (List.count_pos_iff.1 (by omega : 0 < toks.count []))
  rw [List.count_append, List.count_cons_self, List.count_eq_zero_of_not_mem hargs] at h
  obtain ⟨envs, rest, rfl, henvs⟩ := List.eq_append_cons_of_mem (List.count_pos_iff.1 (by omega : 0 < more.count []))
  rw [List.count_append, List.count_cons_self, List.count_eq_zero_of_not_mem henvs] at h
  exact ⟨args, envs, rest, rfl, hargs, henvs, by omega⟩

theorem two_mul_length_le (h : [] ∉ l) : 2 * l.length ≤ (terminated l).length := by
  induction l with
  | nil => exact Nat.le_refl _
  | cons s l ih =>
    obtain ⟨hs, hl⟩ := List.ne_and_not_mem_of_not_mem_cons h
    have hpos := List.length_pos_iff.2 (Ne.symm hs)
    have htail := ih hl
    rw [terminated_cons, List.length_append, List.length_cons, List.length_cons]
    omega

theorem count_tokens (argv envp : List (List UInt8)) : 4 ≤ (tokens argv envp).count [] := by
  rw [tokens, List.count_append, List.count_cons_self, List.count_append]
  have hthree : List.count ([] : List UInt8) [[], [], []] = 3 := by decide
  omega

theorem tokens_end (argv envp : List (List UInt8)) : [0, 0] <:+ terminated (tokens argv envp) := by
  refine ⟨terminated (argv ++ [] :: (envp ++ [[]])), ?_⟩
  rw [tokens, terminated_append, terminated_append, terminated_cons, terminated_cons, terminated_append,
    terminated_append]
  simp

theorem nul_of_tokens {args envs : List (List UInt8)} (hargv : ∀ s ∈ argv, 0 ∉ s) (henvp : ∀ s ∈ envp, 0 ∉ s)
    (h : tokens argv envp = args ++ [] :: (envs ++ [] :: rest)) : ∀ s ∈ args ++ envs, 0 ∉ s := by
  intro s hs
  have hmem : s ∈ tokens argv envp := by
    rw [h]
    simp only [List.mem_append, List.mem_cons] at hs ⊢
    tauto
  simp only [tokens, List.mem_append, List.mem_cons, List.not_mem_nil, or_false] at hmem
  rcases hmem with hmem | rfl | hmem | rfl | rfl | rfl
  · exact hargv s hmem
  · exact List.not_mem_nil
  · exact henvp s hmem
  · exact List.not_mem_nil
  · exact List.not_mem_nil
  · exact List.not_mem_nil

/-- A block of `execve` that `sys_exec` takes always starts the program. -/
theorem sys_exec_started (hargv : ∀ s ∈ argv, 0 ∉ s) (henvp : ∀ s ∈ envp, 0 ∉ s)
    (hexecve : execve argv envp = some pars) (hlen : pars.length ≤ 4096) (image : Image) (execfd : Option ℕ) :
    ∃ rsp m, sys_exec image execfd pars = some (.started rsp m) := by
  obtain rfl := execve_block hexecve hlen
  obtain ⟨args, envs, rest, heq, hargs, henvs, htwo⟩ := tokens_split (count_tokens argv envp)
  obtain ⟨hA, hB, hE⟩ := @strings_of_tokens rest _ _ (nul_of_tokens hargv henvp heq) hargs henvs
  rw [← heq] at hA hB hE
  have htotal : totalTokens (terminated (tokens argv envp)) = args.length + 1 + (envs.length + 1) := by
    rw [totalTokens, hA, hE, hB, if_neg (terminated_ne_nil (by simp))]
  have hsize : (terminated (tokens argv envp)).length =
      (terminated args).length + 1 + ((terminated envs).length + 1 + (terminated rest).length) := by
    rw [heq, terminated_append, terminated_cons, terminated_append, terminated_cons]
    simp only [List.nil_append, List.length_append, List.length_cons]
    omega
  have hrest : 2 ≤ (terminated rest).length := by
    have hcount := List.count_le_length (a := ([] : List UInt8)) (l := rest)
    rw [length_terminated]
    omega
  have hargsLen := two_mul_length_le hargs
  have henvsLen := two_mul_length_le henvs
  have hstart := @elfExec_started _ execfd (by omega) (tokens_end argv envp) image (by omega)
    (by unfold Room; omega)
  exact ⟨_, _, by rw [sys_exec, if_neg (by omega), hstart]⟩

/-- What the program finds: the tokens before the first empty one and those before the next. -/
theorem found_tokens {args envs : List (List UInt8)} (hargv : ∀ s ∈ argv, 0 ∉ s) (henvp : ∀ s ∈ envp, 0 ∉ s)
    (hexecve : execve argv envp = some pars) (hstart : sys_exec image execfd pars = some (.started rsp m))
    (htoks : tokens argv envp = args ++ [] :: (envs ++ [] :: rest)) (hargs : [] ∉ args) (henvs : [] ∉ envs) :
    Found m.bytes rsp args envs := by
  obtain ⟨hlen, hstart⟩ := Option.ite_none_left_eq_some.1 hstart
  obtain rfl := execve_block hexecve (by omega)
  obtain ⟨hA, hB, hE⟩ := @strings_of_tokens rest _ _ (nul_of_tokens hargv henvp htoks) hargs henvs
  rw [← htoks] at hA hB hE
  have hfound := found_of_started (by omega) (tokens_end argv envp) (hB ▸ terminated_ne_nil (by simp))
    (Option.some.inj hstart)
  rwa [hA, hE] at hfound

/-- A program that `execve` starts finds the arguments and the environment that were passed, if and only
if none of their strings is empty. -/
theorem execve_found_iff (hargv : ∀ s ∈ argv, 0 ∉ s) (henvp : ∀ s ∈ envp, 0 ∉ s)
    (hexecve : execve argv envp = some pars) (hstart : sys_exec image execfd pars = some (.started rsp m)) :
    Found m.bytes rsp argv envp ↔ [] ∉ argv ∧ [] ∉ envp := by
  constructor
  · intro hfound
    obtain ⟨args, envs, rest, htoks, hargs, henvs, -⟩ := tokens_split (count_tokens argv envp)
    obtain ⟨rfl, rfl⟩ := hfound.unique (found_tokens hargv henvp hexecve hstart htoks hargs henvs)
    exact ⟨hargs, henvs⟩
  · rintro ⟨hargs, henvs⟩
    exact found_tokens hargv henvp hexecve hstart rfl hargs henvs

theorem execve_found_hello : ∃ pars rsp m, execve [[104, 105]] [[69, 61, 49]] = some pars ∧
    sys_exec emptyImage none pars = some (.started rsp m) ∧
      (Found m.bytes rsp [[104, 105]] [[69, 61, 49]] ↔
        ([] : List UInt8) ∉ [[104, 105]] ∧ ([] : List UInt8) ∉ [[69, 61, 49]]) := by
  have hexecve : execve [[104, 105]] [[69, 61, 49]] = some [104, 105, 0, 0, 69, 61, 49, 0, 0, 0, 0] := by decide
  obtain ⟨rsp, m, hstart⟩ := sys_exec_started (by decide) (by decide) hexecve (by decide) emptyImage none
  exact ⟨_, rsp, m, hexecve, hstart, execve_found_iff (by decide) (by decide) hexecve hstart⟩

/-- An empty string among the arguments: those behind it become the environment. -/
theorem execve_empty_argument : ∃ pars rsp m, execve [[97], [], [98]] [[69, 61, 49]] = some pars ∧
    sys_exec emptyImage none pars = some (.started rsp m) ∧ Found m.bytes rsp [[97]] [[98]] ∧
      ¬Found m.bytes rsp [[97], [], [98]] [[69, 61, 49]] := by
  have hexecve : execve [[97], [], [98]] [[69, 61, 49]] =
      some [97, 0, 0, 98, 0, 0, 69, 61, 49, 0, 0, 0, 0] := by decide
  obtain ⟨rsp, m, hstart⟩ := sys_exec_started (by decide) (by decide) hexecve (by decide) emptyImage none
  have hfound := @found_tokens _ [[97], [], [98]] [[69, 61, 49]] [[69, 61, 49], [], [], []] _ emptyImage none m
    [[97]] [[98]] (by decide) (by decide) hexecve hstart rfl (by decide) (by decide)
  exact ⟨_, rsp, m, hexecve, hstart, hfound, fun h => absurd (hfound.unique h).1 (by decide)⟩

end Both

end Glidix.Exec
