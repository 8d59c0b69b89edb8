import Glidix.Exec.Script

/-!
# What a script passes on

A script passes on the right parameters if its line ends within the part of it that is read, and if the block
that it gets has a byte more than it needs: `execScript` does not count the terminator behind the interpreter
and so takes one byte off the end.  Nothing else ends a chain of scripts that name each other.
-/

namespace Glidix.Exec

open Cstring

/-! ## The scans of the line -/

section Scans

variable {p : UInt8 → Bool} {l w rest : List UInt8}

/-- A scan that stops does the same whatever follows. -/
theorem scanWhile_spec (h : scanWhile p l = some (w, rest)) (l' : List UInt8) :
    scanWhile p (l ++ l') = some (w, rest ++ l') ∧ (l ++ l').takeWhile p = w ∧
      (l ++ l').dropWhile p = rest ++ l' ∧ l = w ++ rest ∧ ∃ c cs, rest = c :: cs ∧ p c = false := by
  induction l generalizing w with
  | nil => exact nomatch h
  | cons c l ih =>
    rw [scanWhile] at h
    split at h
    · next hp =>
      obtain ⟨⟨w', rest'⟩, hscan, h⟩ := Option.map_eq_some_iff.1 h
      obtain ⟨rfl, rfl⟩ := Prod.mk.inj h
      obtain ⟨happ, htake, hdrop, heq, hstop⟩ := ih hscan
      refine ⟨?_, ?_, ?_, ?_, hstop⟩
      · rw [List.cons_append, scanWhile, if_pos hp, happ, Option.map_some]
      · rw [List.cons_append, List.takeWhile_cons_of_pos hp, htake]
      · rw [List.cons_append, List.dropWhile_cons_of_pos hp, hdrop]
      · rw [List.cons_append, ← heq]
    · next hp =>
      obtain ⟨rfl, rfl⟩ := Prod.mk.inj (Option.some.inj h)
      refine ⟨?_, ?_, ?_, rfl, c, l, rfl, by simpa using hp⟩
      · rw [List.cons_append, scanWhile, if_neg hp]
      · rw [List.cons_append, List.takeWhile_cons_of_neg hp]
      · rw [List.cons_append, List.dropWhile_cons_of_neg hp]

theorem scanWhile_eq_none (h : ∀ c ∈ l, p c = true) : scanWhile p l = none := by
  induction l with
  | nil => rfl
  | cons c l ih =>
    rw [scanWhile, if_pos (h c List.mem_cons_self), ih fun x hx => h x (List.mem_cons_of_mem _ hx),
      Option.map_none]

end Scans

variable {file pars path : List UInt8} {interp word line : List UInt8}

/-- The scans of a line that ends are right, whatever follows in the array or in the file. -/
theorem scanLine_spec (h : scanLine line = some (interp, word)) (l' : List UInt8) :
    scanLine (line ++ l') = some (interp, word) ∧
      ((line ++ l').dropWhile isspace).takeWhile (fun c => !isspace c) = interp ∧
      ((((line ++ l').dropWhile isspace).dropWhile fun c => !isspace c).dropWhile
        fun c => isspace c && c != 10).takeWhile (fun c => !isspace c) = word ∧
      interp ≠ [] ∧ interp.length + word.length + 1 ≤ line.length := by
  unfold scanLine at h
  obtain ⟨⟨sp, r₁⟩, h₁, h⟩ := Option.bind_eq_some_iff.1 h
  obtain ⟨⟨i, r₂⟩, h₂, h⟩ := Option.bind_eq_some_iff.1 h
  obtain ⟨⟨bl, r₃⟩, h₃, h⟩ := Option.bind_eq_some_iff.1 h
  obtain ⟨⟨wd, r₄⟩, h₄, h⟩ := Option.bind_eq_some_iff.1 h
  obtain ⟨rfl, rfl⟩ := Prod.mk.inj (Option.some.inj h)
  obtain ⟨happ₁, -, hdrop₁, heq₁, c, cs, hc, hspace⟩ := scanWhile_spec h₁ l'
  obtain ⟨happ₂, htake₂, hdrop₂, heq₂, -⟩ := scanWhile_spec h₂ l'
  obtain ⟨happ₃, -, hdrop₃, heq₃, -⟩ := scanWhile_spec h₃ l'
  obtain ⟨happ₄, htake₄, -, heq₄, d, ds, hd, -⟩ := scanWhile_spec h₄ l'
  refine ⟨?_, ?_, ?_, ?_, ?_⟩
  · unfold scanLine
    simp only [happ₁, happ₂, happ₃, happ₄, Option.bind_eq_bind, Option.bind_some]
  · rw [hdrop₁, htake₂]
  · rw [hdrop₁, hdrop₂, hdrop₃, htake₄]
  · rintro rfl
    subst hc
    rw [scanWhile, hspace] at h₂
    obtain ⟨r, -, hr⟩ := Option.map_eq_some_iff.1 h₂
    exact nomatch (Prod.mk.inj hr).1
  · rw [heq₁, heq₂, heq₃, heq₄, hd]
    simp only [List.length_append, List.length_cons]
    omega

/-! ## The new block -/

/-- What stands behind the empty string that ends the environment. -/
def behindEnv (pars : List UInt8) : List UInt8 := (splitStrings [] (behindArgs pars)).2.getD []

/-- The scans end inside the part of the line that is read, and find no terminators. -/
def LineFits (file : List UInt8) : Prop :=
  (scanLine ((file.take 1023).drop 2)).any (fun r => decide (0 ∉ r.1 ∧ 0 ∉ r.2)) = true

/-- The block has an argument, and something behind its environment: it ends in three terminators. -/
structure BlockFits (pars : List UInt8) : Prop where
  args : argStrings pars ≠ []
  behind : behindEnv pars ≠ []
  three : [0, 0, 0] <:+ pars

instance (file : List UInt8) : Decidable (LineFits file) := inferInstanceAs (Decidable (_ = _))

instance (pars : List UInt8) : Decidable (BlockFits pars) :=
  decidable_of_iff (argStrings pars ≠ [] ∧ behindEnv pars ≠ [] ∧ [0, 0, 0] <:+ pars)
    ⟨fun h => ⟨h.1, h.2.1, h.2.2⟩, fun h => ⟨h.args, h.behind, h.three⟩⟩

theorem BlockFits.two (h : BlockFits pars) : [0, 0] <:+ pars :=
  List.IsSuffix.trans ⟨[0], rfl⟩ h.three

/-- The block is its arguments, its environment and what stands behind that. -/
theorem BlockFits.eq (h : BlockFits pars) : pars = terminated (argStrings pars) ++
    0 :: (terminated (envStrings pars) ++ 0 :: behindEnv pars) := by
  obtain ⟨-, heq, henvs⟩ := block_cases h.two
  have hne : behindArgs pars ≠ [] := fun hnil => h.behind (by rw [behindEnv, hnil]; rfl)
  obtain ⟨henvs, rest, hrest⟩ := henvs hne
  have hbehind : behindEnv pars = rest := by
    rw [behindEnv, hrest, splitStrings_terminated henvs, Option.getD_some]
  rw [hbehind, ← hrest, ← heq]

/-- The block that is passed on, except for its last byte. -/
def scriptBlock (file path pars : List UInt8) : List UInt8 :=
  terminated (scriptArgs file path (argStrings pars)) ++
    0 :: (terminated (envStrings pars) ++ 0 :: (behindEnv pars).dropLast)

theorem scriptBlock_eq (h : behindEnv pars ≠ []) : scriptBlock file path pars =
    (terminated (scriptArgs file path (argStrings pars)) ++
      0 :: (terminated (envStrings pars) ++ 0 :: behindEnv pars)).dropLast := by
  have hlast : terminated (scriptArgs file path (argStrings pars)) ++
      0 :: (terminated (envStrings pars) ++ 0 :: behindEnv pars) =
        (terminated (scriptArgs file path (argStrings pars)) ++
          0 :: (terminated (envStrings pars) ++ [0])) ++ behindEnv pars := by
    simp
  rw [hlast, List.dropLast_append_of_ne_nil h, scriptBlock]
  simp

/-- `intline` holds the part of the file that is read. -/
theorem intline_drop (junk : Bytes) {read : List UInt8} (h : 2 ≤ read.length) :
    ∃ l, (intline junk read).drop 2 = read.drop 2 ++ l :=
  ⟨_, List.drop_append_of_le_length h⟩

/-- The script calls `elfExec` for its interpreter with the new block. -/
theorem execScript_of_fits (junk : Bytes) (hread : 4 ≤ (file.take 1023).length) (hline : LineFits file)
    (hblock : BlockFits pars) :
    interpreter file ≠ [] ∧ 0 ∉ interpreter file ∧ 0 ∉ optionalArg file ∧
    execScript junk file path pars = .elfExec (interpreter file) (scriptBlock file path pars) := by
  obtain ⟨⟨interp, word⟩, hscan, hzero⟩ := (Option.any_eq_true ..).1 hline
  obtain ⟨hinterp, hword⟩ := of_decide_eq_true hzero
  have hfile : file.drop 2 = (file.take 1023).drop 2 ++ file.drop 1023 := by
    rw [← List.drop_append_of_le_length (by omega), List.take_append_drop]
  obtain ⟨-, hi, hw, hne, hlen⟩ := scanLine_spec hscan (file.drop 1023)
  rw [← hfile] at hi hw
  change interpreter file = interp at hi
  change optionalArg file = word at hw
  obtain ⟨l, hl⟩ := @intline_drop junk (file.take 1023) (by omega)
  have happ := (scanLine_spec hscan l).1
  rw [hi, hw]
  refine ⟨hne, hinterp, hword, ?_⟩
  obtain ⟨a, args, hargs⟩ := List.exists_cons_of_ne_nil hblock.args
  have hpars := hblock.eq
  have ha : 0 ∉ a := by
    have hstrings := (block_cases hblock.two).1
    rw [hargs] at hstrings
    exact (hstrings a List.mem_cons_self).2
  rw [hargs, terminated_cons, List.append_assoc, List.cons_append] at hpars
  have htake : word.takeWhile (· ≠ 0) = word := by
    rw [List.takeWhile_eq_self_iff]
    intro c hc
    exact decide_eq_true (ne_of_mem_of_not_mem hc hword)
  have hdrop : pars.dropWhile (· ≠ 0) = 0 :: (terminated args ++
      0 :: (terminated (envStrings pars) ++ 0 :: behindEnv pars)) := by
    conv_lhs => rw [hpars, dropWhile_string ha]
  obtain ⟨next, hnext, hsize, hwritten⟩ : ∃ next : List UInt8,
      (if word.length ≠ 0 then word ++ [0] else []) = next ∧ next.length ≤ word.length + 1 ∧
        terminated (scriptArgs file path (argStrings pars)) =
          interp ++ [0] ++ next ++ path ++ 0 :: terminated args := by
    refine ⟨_, rfl, ?_, ?_⟩
    · split
      · exact (List.length_append ..).le
      · exact Nat.zero_le _
    · rw [scriptArgs, hi, hw, hargs]
      by_cases hnil : word = [] <;> simp [hnil]
  have hlong := congrArg List.length hpars
  rw [List.length_append] at hlong
  rw [List.length_drop] at hlen
  have hmax := List.length_take_le 1023 file
  unfold execScript
  simp only
  rw [if_neg (by omega), hl, happ]
  simp only [htake, hdrop, hnext]
  rw [if_neg (by simp only [List.length_append, List.length_singleton]; omega)]
  congr 1
  · rw [List.append_assoc, List.append_assoc, List.append_assoc, List.singleton_append, takeWhile_string hinterp]
  · have hall : interp ++ [0] ++ next ++ path ++ 0 :: (terminated args ++
        0 :: (terminated (envStrings pars) ++ 0 :: behindEnv pars)) =
          terminated (scriptArgs file path (argStrings pars)) ++
            0 :: (terminated (envStrings pars) ++ 0 :: behindEnv pars) := by
      rw [hwritten]
      simp
    have hcount : interp.length + next.length + path.length + (0 :: (terminated args ++
        0 :: (terminated (envStrings pars) ++ 0 :: behindEnv pars))).length =
          (interp ++ [0] ++ next ++ path ++ 0 :: (terminated args ++
            0 :: (terminated (envStrings pars) ++ 0 :: behindEnv pars))).length - 1 := by
      simp only [List.length_append, List.length_singleton]
      omega
    rw [hcount, ← List.dropLast_eq_take, hall, scriptBlock_eq hblock.behind]

/-! ## Chains of scripts -/

/-- The parameters that a call has got, or that the program gets. -/
def ExecCall.target : ExecCall → Option (List UInt8 × List UInt8)
  | .elfExec path pars => some (path, pars)
  | .load path pars => some (path, pars)
  | _ => none

/-- No array is left; there are no more calls than bytes behind the environment of the first block; and what
is passed on is a block with the right arguments, the environment and its terminator, for the interpreter. -/
structure ExecChain.Right (s : ExecChain) : Prop where
  inside : s.call ≠ .outside
  depth : s.depth ≤ (behindEnv s.first).length
  passed : ∀ path pars, s.call.target = some (path, pars) → argStrings pars = s.args ∧
    envStrings pars = s.envs ∧
    (0 < s.depth → s.args.head? = some path ∧ behindArgs pars ≠ [] ∧ [0, 0] <:+ pars)

variable {fs : Files} {s s' : ExecChain} {junk : Bytes}

/-- The script that a call hands to `execScript`, if that reads enough of it. -/
def ExecCall.script (fs : Files) : ExecCall → Option (List UInt8 × List UInt8)
  | .elfExec path pars =>
    if pars.length < 4 ∨ ¬[0, 0] <:+ pars then none
    else
      match fs.content path with
      | none => none
      | some file => if file.take 2 = [35, 33] ∧ 4 ≤ (file.take 1023).length then some (file, pars) else none
  | _ => none

/-- The line of a script ends in the part that is read, and its block has room for another chain link. -/
def ScriptFits (fs : Files) (s : ExecChain) (_ : Bytes) : Prop :=
  ∀ r ∈ s.call.script fs, LineFits r.1 ∧ BlockFits r.2

instance (fs : Files) : ∀ s, DecidablePred (ScriptFits fs s) := fun s _ =>
  inferInstanceAs (Decidable (∀ r ∈ s.call.script fs, _))

structure ExecChain.Kept (s : ExecChain) : Prop where
  right : s.Right
  path : ∀ path pars, s.call.target = some (path, pars) →
    0 ∉ path ∧ s.depth + (behindEnv pars).length = (behindEnv s.first).length

/-- What a new block is made of. -/
theorem scriptBlock_strings (hargs : ∀ a ∈ scriptArgs file path (argStrings pars), IsString a)
    (henvs : ∀ e ∈ envStrings pars, IsString e) :
    argStrings (scriptBlock file path pars) = scriptArgs file path (argStrings pars) ∧
      envStrings (scriptBlock file path pars) = envStrings pars ∧
        behindArgs (scriptBlock file path pars) ≠ [] ∧
          behindEnv (scriptBlock file path pars) = (behindEnv pars).dropLast := by
  have hsplit : splitStrings [] (scriptBlock file path pars) = _ := splitStrings_terminated hargs
  have hbehind : behindArgs (scriptBlock file path pars) =
      terminated (envStrings pars) ++ 0 :: (behindEnv pars).dropLast := by
    rw [behindArgs, hsplit, Option.getD_some]
  have hsplit' : splitStrings [] (behindArgs (scriptBlock file path pars)) = _ :=
    hbehind ▸ splitStrings_terminated henvs
  refine ⟨congrArg Prod.fst hsplit, by rw [envStrings, hsplit'], ?_, ?_⟩
  · rw [hbehind]
    simp
  · rw [behindEnv, hsplit', Option.getD_some]

/-- The new block ends in two terminators. -/
theorem scriptBlock_two (h : BlockFits pars) : [0, 0] <:+ scriptBlock file path pars := by
  have hcommon : 0 :: (terminated (envStrings pars) ++ 0 :: behindEnv pars) <:+ pars :=
    ⟨terminated (argStrings pars), h.eq.symm⟩
  have hthree : [0, 0, 0] <:+ 0 :: (terminated (envStrings pars) ++ 0 :: behindEnv pars) := by
    refine List.suffix_of_suffix_length_le h.three hcommon ?_
    have hpos := List.length_pos_iff.2 h.behind
    simp only [List.length_cons, List.length_append, List.length_nil]
    omega
  obtain ⟨front, hfront⟩ := hthree
  rw [scriptBlock_eq h.behind, ← hfront, ← List.append_assoc, List.dropLast_append_of_ne_nil (by simp)]
  exact ⟨_, rfl⟩

/-- The interpreter, its argument, the path and the arguments are strings. -/
theorem scriptArgs_strings (hinterp : interpreter file ≠ [] ∧ 0 ∉ interpreter file)
    (hopt : 0 ∉ optionalArg file) (hpath : path ≠ [] ∧ 0 ∉ path) {args : List (List UInt8)}
    (hargs : ∀ a ∈ args, IsString a) : ∀ a ∈ scriptArgs file path args, IsString a := by
  intro a ha
  rw [scriptArgs, List.mem_append, List.mem_cons, List.mem_cons] at ha
  rcases ha with (rfl | ha) | rfl | ha
  · exact hinterp
  · split at ha
    · exact absurd ha List.not_mem_nil
    · next hne =>
      rw [List.mem_singleton.1 ha]
      exact ⟨hne, hopt⟩
  · exact hpath
  · exact hargs a (List.mem_of_mem_tail ha)

namespace ExecChain

theorem Kept.failed {e : ExecError} (h : s.Kept) : Kept { s with call := .failed e } :=
  ⟨⟨nofun, h.right.depth, nofun⟩, nofun⟩

theorem Kept.load {path pars : List UInt8} (h : s.Kept) (hcall : s.call = .elfExec path pars) :
    Kept { s with call := .load path pars } := by
  have htarget : s.call.target = some (path, pars) := by rw [hcall]; rfl
  refine ⟨⟨nofun, h.right.depth, fun p q hpq => ?_⟩, fun p q hpq => ?_⟩
  · obtain ⟨rfl, rfl⟩ := Prod.mk.inj (Option.some.inj hpq)
    exact h.right.passed _ _ htarget
  · obtain ⟨rfl, rfl⟩ := Prod.mk.inj (Option.some.inj hpq)
    exact h.path _ _ htarget

/-- A script passes its parameters on. -/
theorem Kept.script (h : s.Kept) (hcall : s.call = .elfExec path pars) (hfile : fs.content path = some file)
    (hline : interpreter file ≠ [] ∧ 0 ∉ interpreter file ∧ 0 ∉ optionalArg file)
    (hblock : BlockFits pars) :
    Kept { s with
      call := .elfExec (interpreter file) (scriptBlock file path pars)
      depth := s.depth + 1
      args := scriptArgs file path s.args } := by
  have htarget : s.call.target = some (path, pars) := by rw [hcall]; rfl
  obtain ⟨hargs, henvs, -⟩ := h.right.passed _ _ htarget
  obtain ⟨hpath, hdepth⟩ := h.path _ _ htarget
  have hne : path ≠ [] := fun hnil => by
    rw [hnil, fs.content_nil] at hfile
    exact nomatch hfile
  obtain ⟨hstrings, heq, hrest⟩ := block_cases hblock.two
  have hbehind : behindArgs pars ≠ [] := fun hnil => hblock.behind (by rw [behindEnv, hnil]; rfl)
  obtain ⟨hargs', henvs', hterm, hspare⟩ := scriptBlock_strings
    (scriptArgs_strings ⟨hline.1, hline.2.1⟩ hline.2.2 ⟨hne, hpath⟩ hstrings) (hrest hbehind).1
  have hcount := List.length_pos_iff.2 hblock.behind
  have hspare : s.depth + 1 + (behindEnv (scriptBlock file path pars)).length =
      (behindEnv s.first).length := by
    rw [hspare, List.length_dropLast]
    omega
  refine ⟨⟨nofun, by simp only; omega, fun p q hpq => ?_⟩, fun p q hpq => ?_⟩
  · obtain ⟨rfl, rfl⟩ := Prod.mk.inj (Option.some.inj hpq)
    rw [hargs] at hargs'
    exact ⟨hargs', henvs'.trans henvs, fun _ => ⟨rfl, hterm, scriptBlock_two hblock⟩⟩
  · obtain ⟨rfl, rfl⟩ := Prod.mk.inj (Option.some.inj hpq)
    exact ⟨hline.2.1, hspare⟩

theorem two_of_getD {pars : List UInt8} (hlen : ¬pars.length < 4)
    (h : ¬(pars.getD (pars.length - 1) 0 ≠ 0 ∨ pars.getD (pars.length - 2) 0 ≠ 0)) : [0, 0] <:+ pars := by
  rw [not_or, not_not, not_not, List.getD_eq_getElem _ _ (by omega),
    List.getD_eq_getElem _ _ (by omega)] at h
  have hdrop : pars.drop (pars.length - 2) = [0, 0] := by
    rw [List.drop_eq_getElem_cons (by omega), List.drop_eq_getElem_cons (by omega),
      List.drop_eq_nil_of_le (by omega), h.2]
    simp only [show pars.length - 2 + 1 = pars.length - 1 by omega, h.1]
  exact ⟨_, hdrop ▸ List.take_append_drop _ _⟩

/-- What a call of `elfExec` comes to if a script fits. -/
theorem elfExecFile_cases (hfit : ∀ r ∈ (ExecCall.elfExec path pars).script fs, LineFits r.1 ∧ BlockFits r.2) :
    (∃ e, elfExecFile fs junk path pars = .failed e) ∨ elfExecFile fs junk path pars = .load path pars ∨
      ∃ file, fs.content path = some file ∧
        (interpreter file ≠ [] ∧ 0 ∉ interpreter file ∧ 0 ∉ optionalArg file) ∧ BlockFits pars ∧
        elfExecFile fs junk path pars = .elfExec (interpreter file) (scriptBlock file path pars) := by
  unfold elfExecFile
  by_cases hlen : pars.length < 4
  · exact .inl ⟨_, if_pos hlen⟩
  · simp only [if_neg hlen]
    by_cases htwo : pars.getD (pars.length - 1) 0 ≠ 0 ∨ pars.getD (pars.length - 2) 0 ≠ 0
    · exact .inl ⟨_, if_pos htwo⟩
    · simp only [if_neg htwo]
      cases hfile : fs.content path with
      | none => exact .inl ⟨_, rfl⟩
      | some file =>
        simp only
        by_cases hshort : file.length < 2
        · exact .inl ⟨_, if_pos hshort⟩
        · simp only [if_neg hshort]
          by_cases hscript : file.take 2 = [35, 33]
          · simp only [if_pos hscript]
            by_cases hread : (file.take 1023).length < 4
            · exact .inl ⟨.ENOEXEC, if_pos hread⟩
            · have hmem : (file, pars) ∈ (ExecCall.elfExec path pars).script fs := by
                unfold ExecCall.script
                simp only [hfile, Option.mem_def]
                rw [if_neg (not_or.2 ⟨hlen, not_not_intro (two_of_getD hlen htwo)⟩),
                  if_pos ⟨hscript, by omega⟩]
              obtain ⟨hline, hblock⟩ := hfit _ hmem
              obtain ⟨hne, hinterp, hopt, hcall⟩ :=
                @execScript_of_fits file pars path junk (Nat.le_of_not_lt hread) hline hblock
              exact .inr (.inr ⟨file, rfl, ⟨hne, hinterp, hopt⟩, hblock, hcall⟩)
          · exact .inr (.inl (if_neg hscript))

theorem Kept.step (h : s.Kept) (hfit : ScriptFits fs s junk) (hs : s.step fs junk = some s') : s'.Kept := by
  unfold ExecChain.step at hs
  split at hs
  · next path pars hcall =>
    have hcases := @elfExecFile_cases pars path fs junk (hcall ▸ hfit)
    rcases hcases with ⟨e, hfail⟩ | hload | ⟨file, hfile, hline, hblock, hscript⟩
    · rw [hfail] at hs
      obtain rfl := Option.some.inj hs
      exact h.failed
    · rw [hload] at hs
      obtain rfl := Option.some.inj hs
      exact h.load hcall
    · rw [hscript, hfile] at hs
      obtain rfl := Option.some.inj hs
      exact h.script hcall hfile hline hblock
  · exact nomatch hs

end ExecChain

/-- The only file is a script at the path `s`. -/
def oneScript (file : List UInt8) : Files := ⟨fun path => if path = [115] then some file else none, rfl⟩

/-- 1024 bytes without a newline. -/
def longLine : List UInt8 := 35 :: 33 :: List.replicate 1022 97

theorem longLine_outside (junk : Bytes) (path pars : List UInt8) :
    execScript junk longLine path pars = .outside := by
  have hread : longLine.take 1023 = 35 :: 33 :: List.replicate 1021 97 := by
    rw [longLine, List.take_succ_cons, List.take_succ_cons, List.take_replicate]
    rfl
  have hlen : (longLine.take 1023).length = 1023 := by
    rw [hread, List.length_cons, List.length_cons, List.length_replicate]
  have hline : (intline junk (longLine.take 1023)).drop 2 = 97 :: (List.replicate 1020 97 ++ [0]) := by
    unfold intline
    rw [hlen, hread]
    rfl
  have hword : scanWhile (fun c => !isspace c) (97 :: (List.replicate 1020 97 ++ [0])) = none := by
    refine scanWhile_eq_none fun c hc => ?_
    rw [List.mem_cons, List.mem_append, List.mem_replicate, List.mem_singleton] at hc
    rcases hc with rfl | ⟨-, rfl⟩ | rfl
    · decide
    · decide
    · decide
  have hscan : scanLine (97 :: (List.replicate 1020 97 ++ [0])) = none := by
    unfold scanLine
    rw [scanWhile, if_neg (by decide), Option.bind_eq_bind, Option.bind_some]
    simp only [hword]
    rfl
  unfold execScript
  simp only
  rw [if_neg (by omega), hline, hscan]

theorem elfExecFile_script {fs : Files} {junk : Bytes} (hlen : 4 ≤ pars.length) (htwo : [0, 0] <:+ pars)
    (hfile : fs.content path = some file) (hscript : file.take 2 = [35, 33]) :
    elfExecFile fs junk path pars = execScript junk file path pars := by
  obtain ⟨front, rfl⟩ := htwo
  have hlong : ¬file.length < 2 := by
    have htake := congrArg List.length hscript
    rw [List.length_take] at htake
    simp only [List.length_cons, List.length_nil] at htake
    omega
  unfold elfExecFile
  simp only [if_neg (Nat.not_lt.2 hlen), hfile, if_neg hlong, if_pos hscript]
  rw [if_neg (by simp)]

/-- A block without an environment, with a number of bytes behind it. -/
def spareBlock (args : List (List UInt8)) (n : ℕ) : List UInt8 :=
  terminated args ++ 0 :: (terminated [] ++ 0 :: List.replicate n 0)

theorem spareBlock_strings {args : List (List UInt8)} (hargs : ∀ a ∈ args, IsString a) (n : ℕ) :
    argStrings (spareBlock args n) = args ∧ envStrings (spareBlock args n) = [] ∧
      behindEnv (spareBlock args n) = List.replicate n 0 := by
  have hsplit : splitStrings [] (spareBlock args n) = _ := splitStrings_terminated hargs
  have hbehind : behindArgs (spareBlock args n) = 0 :: List.replicate n 0 := by
    rw [behindArgs, hsplit]
    rfl
  refine ⟨congrArg Prod.fst hsplit, ?_, ?_⟩
  · rw [envStrings, hbehind]
    rfl
  · rw [behindEnv, hbehind]
    rfl

theorem spareBlock_fits {args : List (List UInt8)} (hargs : ∀ a ∈ args, IsString a) (hne : args ≠ [])
    (n : ℕ) : BlockFits (spareBlock args (n + 1)) := by
  obtain ⟨hstrings, -, hbehind⟩ := spareBlock_strings hargs (n + 1)
  refine ⟨by rwa [hstrings], by rw [hbehind]; exact nofun, ?_⟩
  refine List.IsSuffix.trans ⟨List.replicate n 0, ?_⟩ (List.suffix_append (terminated args) _)
  change List.replicate n 0 ++ List.replicate 3 0 = List.replicate (n + 3) 0
  rw [List.replicate_append_replicate]

/-- The script at the path `s` names itself. -/
def selfScript : List UInt8 := [35, 33, 115, 10]

/-- A script that names itself is called as often as there are bytes behind the environment. -/
theorem selfScript_depth (n d : ℕ) (hd : d ≤ n) : ∃ s, (execSystem (oneScript selfScript)).Reachable s ∧
    s.depth = d ∧ ∃ args, args ≠ [] ∧ (∀ a ∈ args, IsString a) ∧
      s.call = .elfExec [115] (spareBlock args (n - d)) := by
  induction d with
  | zero =>
    refine ⟨_, .init ⟨[115], spareBlock [[97]] n, by decide, rfl⟩, rfl, [[97]], by decide, fun a ha => ?_, rfl⟩
    rw [List.mem_singleton.1 ha]
    exact ⟨by decide, by decide⟩
  | succ d ih =>
    obtain ⟨s, hs, hdepth, args, hne, hargs, hcall⟩ := ih (by omega)
    obtain ⟨k, hk⟩ : ∃ k, n - d = k + 1 := ⟨n - d - 1, by omega⟩
    rw [hk] at hcall
    obtain ⟨hstrings, hnil, hbehind⟩ := spareBlock_strings hargs (k + 1)
    have hfits := spareBlock_fits hargs hne k
    obtain ⟨-, -, -, hexec⟩ :=
      @execScript_of_fits selfScript _ [115] (fun _ => 0) (by decide) (by decide) hfits
    have hblock : scriptBlock selfScript [115] (spareBlock args (k + 1)) =
        spareBlock (scriptArgs selfScript [115] args) k := by
      rw [scriptBlock, hstrings, hnil, hbehind, List.dropLast_replicate, Nat.add_sub_cancel]
      rfl
    have hlen : 4 ≤ (spareBlock args (k + 1)).length := by
      obtain ⟨a, as, rfl⟩ := List.exists_cons_of_ne_nil hne
      simp only [spareBlock, terminated_cons, terminated_nil, List.nil_append, List.length_append,
        List.length_cons, List.length_replicate]
      omega
    have hcalled : elfExecFile (oneScript selfScript) (fun _ => 0) [115] (spareBlock args (k + 1)) =
        .elfExec [115] (spareBlock (scriptArgs selfScript [115] args) k) := by
      rw [@elfExecFile_script selfScript _ _ (oneScript selfScript) _ hlen hfits.two rfl rfl, hexec, hblock]
      rfl
    have hstep : s.step (oneScript selfScript) (fun _ => 0) = some { s with
        call := .elfExec [115] (spareBlock (scriptArgs selfScript [115] args) k)
        depth := s.depth + 1
        args := scriptArgs selfScript [115] s.args } := by
      unfold ExecChain.step
      simp only [hcall, hcalled]
      rfl
    refine ⟨_, .step (a := fun _ => 0) hs trivial hstep, congrArg (· + 1) hdepth,
      scriptArgs selfScript [115] args, nofun, ?_, ?_⟩
    · exact scriptArgs_strings ⟨by decide, by decide⟩ (by decide) ⟨by decide, by decide⟩ hargs
    · rw [show n - (d + 1) = k by omega]

end Glidix.Exec
