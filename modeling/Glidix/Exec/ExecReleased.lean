import Glidix.Exec.ExecErrors

/-!
# What a failed call of `elfExec` releases

Every error exit closes the files that are open and frees the table of segments, but for one: when the addresses
of a segment of the interpreter are refused, the file of the program stays open.
-/

namespace Glidix.Exec

open Use

/-! ## What is released -/

/-- What was opened or allocated is closed or freed once, and the process is as before. -/
def ExecOutcome.Released (r : ExecOutcome) (p : ExecProcess) : Prop := Use.Balanced r.uses ∧ r.process = p

/-- The interpreter that a header names is examined, and its first header that is not for an acceptable segment
is for one whose addresses are out of range. -/
def InterpOutOfRange (env : ExecEnv) (execfp : OpenFile) (proghead : Phdr) : Prop :=
  let interpPath := ((execfp.vfsSeek proghead.p_offset).vfsRead proghead.p_filesz).1
  proghead.p_filesz < 256 ∧ interpPath.length = proghead.p_filesz ∧
    ∃ file, env.vfsOpen (interpPath.takeWhile (· ≠ 0)) = .ok file ∧ file.hasTree = true ∧
      let (data, fp) := OpenFile.vfsRead ⟨file, 0⟩ EHDR_SIZE
      let header := Ehdr.ofBytes data
      data.length = EHDR_SIZE ∧ header.valid = true ∧
        interpLoop header header.e_phnum 0 fp = .outOfRange

/-- A program names such an interpreter in the first header that is not for an acceptable segment or
ignored. -/
def ProgramInterpOutOfRange (env : ExecEnv) (fp : OpenFile) : Prop :=
  let (data, fp) := (fp.vfsSeek 0).vfsRead EHDR_SIZE
  let header := Ehdr.ofBytes data
  EHDR_SIZE ≤ data.length ∧ header.valid = true ∧
    ∃ execfp proghead, programLoop header header.e_phnum 0 fp = .interp execfp proghead ∧
      InterpOutOfRange env execfp proghead

/-- The path is that of such a program, or of a script whose interpreter is. -/
def ExecInterpOutOfRange (env : ExecEnv) : (fuel : ℕ) → (path pars : List UInt8) → Prop
  | 0, _, _ => False
  | fuel + 1, path, pars =>
    (4 ≤ pars.length ∧ pars.getD (pars.length - 1) 0 = 0 ∧ pars.getD (pars.length - 2) 0 = 0) ∧
      ∃ file, env.vfsOpen path = .ok file ∧ file.hasTree = true ∧ file.execAllowed = true ∧
        let (shebang, fp) := OpenFile.vfsRead ⟨file, 0⟩ 2
        2 ≤ shebang.length ∧
          if shebang = [35, 33] then
            ∃ newPath newPars, execScript (env.junk fuel) (file.read 0 1023) path pars =
              .elfExec newPath newPars ∧ ExecInterpOutOfRange env fuel newPath newPars
          else ProgramInterpOutOfRange env fp

variable {env : ExecEnv} {p : ExecProcess} {path pars : List UInt8} {n fuel : ℕ} {fp execfp : OpenFile}
  {proghead : Phdr} {e : ExecErrno} {r : ExecOutcome}

/-- The numbers of the files and the heap blocks are different. -/
theorem balanced_opened (l : List (Use ExecResource)) :
    Use.Balanced (opened n :: closed n :: l) ↔ Use.Balanced l := by
  have hpair : Use.Balanced [opened n, closed n] := by
    simp [Use.Balanced, useAll, Use.apply, opened, closed]
  exact hpair.append_iff

theorem execInterp_released (hr : execInterp env p path n execfp proghead = r) (herr : r.result = .error e) :
    r.process = p ∧
      (Use.Balanced (opened n :: kmalloc n :: r.uses) ↔ ¬ InterpOutOfRange env execfp proghead) := by
  unfold execInterp at hr
  dsimp only at hr
  split_ifs at hr with hlong hshort
  · subst hr
    refine ⟨rfl, iff_of_true ?_ fun h => absurd h.1 (Nat.not_lt.2 hlong)⟩
    simp [Use.Balanced, useAll, Use.apply, opened, closed, kmalloc, kfree]
  · subst hr
    refine ⟨rfl, iff_of_true ?_ fun h => absurd h.2.1 hshort⟩
    simp [Use.Balanced, useAll, Use.apply, opened, closed, kmalloc, kfree]
  split at hr
  · next error hopen =>
    subst hr
    refine ⟨rfl, iff_of_true ?_ ?_⟩
    · simp [Use.Balanced, useAll, Use.apply, opened, closed, kmalloc, kfree]
    · rintro ⟨-, -, file, hfile, -⟩
      rw [hopen] at hfile
      cases hfile
  next file hopen =>
  have hfile : ∀ {P : ExecFile → Prop}, (∃ file', env.vfsOpen
      ((((execfp.vfsSeek proghead.p_offset).vfsRead proghead.p_filesz).1).takeWhile (· ≠ 0)) =
        .ok file' ∧ P file') → P file := by
    rintro P ⟨file', hopen', hP⟩
    rw [hopen] at hopen'
    cases hopen'
    exact hP
  split_ifs at hr with htree hehdr hvalid
  · subst hr
    refine ⟨rfl, iff_of_true ?_ fun h => hehdr (hfile h.2.2).2.1⟩
    simp [Use.Balanced, useAll, Use.apply, opened, closed, kmalloc, kfree]
  rotate_left
  · subst hr
    refine ⟨rfl, iff_of_true ?_ fun h => hvalid (hfile h.2.2).2.2.1⟩
    simp [Use.Balanced, useAll, Use.apply, opened, closed, kmalloc, kfree]
  · subst hr
    refine ⟨rfl, iff_of_true ?_ fun h => htree (hfile h.2.2).1⟩
    simp [Use.Balanced, useAll, Use.apply, opened, closed, kmalloc, kfree]
  split at hr
  · next hloop =>
    subst hr
    refine ⟨rfl, iff_of_true ?_ fun h => ?_⟩
    · simp [Use.Balanced, useAll, Use.apply, opened, closed, kmalloc, kfree]
    · cases hloop.symm.trans (hfile h.2.2).2.2.2
  · next hloop =>
    subst hr
    refine ⟨rfl, iff_of_false ?_ fun h => h ?_⟩
    · simp [Use.Balanced, useAll, Use.apply, opened, closed, kmalloc, kfree]
    · exact ⟨Nat.lt_of_not_le hlong, not_not.1 hshort, file, hopen, htree, not_not.1 hehdr, hvalid, hloop⟩
  · next hloop =>
    subst hr
    refine ⟨rfl, iff_of_true ?_ fun h => ?_⟩
    · simp [Use.Balanced, useAll, Use.apply, opened, closed, kmalloc, kfree]
    · cases hloop.symm.trans (hfile h.2.2).2.2.2
  · next hloop =>
    subst hr
    refine ⟨rfl, iff_of_true ?_ fun h => ?_⟩
    · simp [Use.Balanced, useAll, Use.apply, opened, closed, kmalloc, kfree]
    · cases hloop.symm.trans (hfile h.2.2).2.2.2
  · next hloop =>
    split at hr
    · subst hr
      refine ⟨rfl, iff_of_true ?_ fun h => ?_⟩
      · simp [Use.Balanced, useAll, Use.apply, opened, closed, kmalloc, kfree]
      · cases hloop.symm.trans (hfile h.2.2).2.2.2
    · split at hr <;> subst hr <;> cases herr

theorem execProgram_released (hr : execProgram env p path n fp = r) (herr : r.result = .error e) :
    r.process = p ∧ (Use.Balanced (opened n :: r.uses) ↔ ¬ ProgramInterpOutOfRange env fp) := by
  unfold execProgram at hr
  dsimp only at hr
  split_ifs at hr with hehdr hvalid
  · subst hr
    refine ⟨rfl, iff_of_true ?_ fun h => absurd h.1 (Nat.not_le.2 hehdr)⟩
    simp [Use.Balanced, useAll, Use.apply, opened, closed]
  rotate_left
  · subst hr
    refine ⟨rfl, iff_of_true ?_ fun h => hvalid h.2.1⟩
    simp [Use.Balanced, useAll, Use.apply, opened, closed]
  have hloop : ∀ {o : PhdrEnd}, programLoop (Ehdr.ofBytes ((fp.vfsSeek 0).vfsRead EHDR_SIZE).1)
      (Ehdr.ofBytes ((fp.vfsSeek 0).vfsRead EHDR_SIZE).1).e_phnum 0 ((fp.vfsSeek 0).vfsRead EHDR_SIZE).2 = o →
        (∀ execfp proghead, o ≠ .interp execfp proghead) → ¬ ProgramInterpOutOfRange env fp := by
    rintro o rfl hne ⟨-, -, execfp, proghead, hinterp, -⟩
    exact hne _ _ hinterp
  split at hr
  · next hend =>
    subst hr
    refine ⟨rfl, iff_of_true ?_ (hloop hend fun _ _ h => by cases h)⟩
    simp [Use.Balanced, useAll, Use.apply, opened, closed, kmalloc, kfree]
  · next hend =>
    subst hr
    refine ⟨rfl, iff_of_true ?_ (hloop hend fun _ _ h => by cases h)⟩
    simp [Use.Balanced, useAll, Use.apply, opened, closed, kmalloc, kfree]
  · next hend =>
    subst hr
    refine ⟨rfl, iff_of_true ?_ (hloop hend fun _ _ h => by cases h)⟩
    simp [Use.Balanced, useAll, Use.apply, opened, closed, kmalloc, kfree]
  · next execfp proghead hend =>
    subst hr
    obtain ⟨hprocess, hbalanced⟩ := execInterp_released (r := execInterp env p path n execfp proghead) rfl herr
    refine ⟨hprocess, hbalanced.trans (not_congr ⟨fun h => ?_, fun h => ?_⟩)⟩
    · exact ⟨Nat.not_lt.1 hehdr, hvalid, execfp, proghead, hend, h⟩
    · obtain ⟨-, -, execfp', proghead', hend', hout⟩ := h
      cases hend.symm.trans hend'
      exact hout
  · subst hr
    cases herr

/-- A call that returns an error has released what it took, and left the process as it was, exactly if it
did not get to an interpreter with a segment whose addresses are out of range. -/
theorem elfExecCall_released_iff (h : elfExecCall env fuel n p path pars = some r)
    (herr : r.result = .error e) : r.Released p ↔ ¬ ExecInterpOutOfRange env fuel path pars := by
  induction fuel generalizing n path pars r with
  | zero => cases h
  | succ fuel ih =>
    rw [elfExecCall] at h
    dsimp only at h
    split_ifs at h with hlen hend
    · cases h
      exact iff_of_true ⟨balanced_nil, rfl⟩ fun hout => absurd hout.1.1 (Nat.not_le.2 hlen)
    · cases h
      refine iff_of_true ⟨balanced_nil, rfl⟩ fun hout => ?_
      exact hend.elim (fun hne => hne hout.1.2.1) fun hne => hne hout.1.2.2
    have hpars : 4 ≤ pars.length ∧ pars.getD (pars.length - 1) 0 = 0 ∧ pars.getD (pars.length - 2) 0 = 0 :=
      ⟨Nat.not_lt.1 hlen, not_not.1 fun hne => hend (.inl hne), not_not.1 fun hne => hend (.inr hne)⟩
    split at h
    · cases h
      cases herr
    split at h
    · next error hopen =>
      cases h
      refine iff_of_true ⟨balanced_nil, rfl⟩ fun ⟨_, file, hfile, _⟩ => ?_
      rw [hopen] at hfile
      cases hfile
    next file hopen =>
    have hfile : ∀ {P : ExecFile → Prop}, (∃ file', env.vfsOpen path = .ok file' ∧ P file') → P file := by
      rintro P ⟨file', hopen', hP⟩
      rw [hopen] at hopen'
      cases hopen'
      exact hP
    have hpair : Use.Balanced [opened n, closed n] := (balanced_opened []).2 balanced_nil
    split_ifs at h with htree hallowed hshort hscript
    · cases h
      exact iff_of_true ⟨hpair, rfl⟩ fun hout => absurd (hfile hout.2).2.2.1 (Nat.not_le.2 hshort)
    · split at h
      · next newPath newPars hexec =>
        obtain ⟨r', hr', rfl⟩ := Option.map_eq_some_iff.1 h
        refine (and_congr_left' (balanced_opened r'.uses)).trans ((ih hr' herr).trans (not_congr ?_))
        refine ⟨fun hout => ?_, fun hout => ?_⟩
        · exact ⟨hpars, file, hopen, htree, hallowed, Nat.not_lt.1 hshort,
            (if_pos hscript).symm ▸ ⟨newPath, newPars, hexec, hout⟩⟩
        · obtain ⟨newPath', newPars', hexec', hout'⟩ := (if_pos hscript).mp (hfile hout.2).2.2.2
          cases hexec.symm.trans hexec'
          exact hout'
      · cases h
        cases herr
      · next hnot _ =>
        cases h
        refine iff_of_true ⟨hpair, rfl⟩ fun hout => ?_
        obtain ⟨newPath', newPars', hexec', -⟩ := (if_pos hscript).mp (hfile hout.2).2.2.2
        exact hnot _ _ hexec'
    · cases h
      obtain ⟨hprocess, hbalanced⟩ := execProgram_released rfl herr
      refine (and_iff_left hprocess).trans (hbalanced.trans (not_congr ⟨fun hout => ?_, fun hout => ?_⟩))
      · exact ⟨hpars, file, hopen, htree, hallowed, Nat.not_lt.1 hshort, (if_neg hscript).symm ▸ hout⟩
      · exact (if_neg hscript).mp (hfile hout.2).2.2.2
    · cases h
      exact iff_of_true ⟨hpair, rfl⟩ fun hout => hallowed (hfile hout.2).2.1
    · cases h
      exact iff_of_true ⟨hpair, rfl⟩ fun hout => htree (hfile hout.2).1

/-! ## A program with its interpreter -/

/-- The bytes of a file, without those that cannot be loaded. -/
def plainFile (content : List UInt8) : ExecFile where
  hasTree := true
  execAllowed := true
  read offset size := (content.drop offset).take size
  read_le _ size := List.length_take_le size _
  inode := ⟨0, 0, 0, 0, false⟩
  gid := 0
  setgid := false

/-- An ELF header for one program header behind it. -/
def ehdrBytes : List UInt8 :=
  [0x7f, 0x45, 0x4c, 0x46, 2, 1, 1, 0, 0, 0, 0, 0, 0, 0, 0, 0, 2, 0, 62, 0, 1, 0, 0, 0] ++
    List.replicate 8 0 ++ [64, 0, 0, 0, 0, 0, 0, 0] ++ List.replicate 14 0 ++ [56, 0, 1, 0] ++
    List.replicate 6 0

def phdrBytes (type offset vaddr filesz : UInt8) : List UInt8 :=
  [type, 0, 0, 0, 4, 0, 0, 0, offset, 0, 0, 0, 0, 0, 0, 0, vaddr, 0, 0, 0, 0, 0, 0, 0] ++
    List.replicate 8 0 ++ [filesz, 0, 0, 0, 0, 0, 0, 0] ++ List.replicate 16 0

/-- A program whose interpreter is the file `i`. -/
def interpretedProgram : List UInt8 := ehdrBytes ++ phdrBytes 3 120 0 1 ++ [105]

/-- An environment with the program at `p` and its interpreter at `i`. -/
def twoFiles (interp : List UInt8) : ExecEnv where
  vfsOpen path :=
    if path = [112] then .ok (plainFile interpretedProgram)
    else if path = [105] then .ok (plainFile interp)
    else .error 46
  junk _ _ := 0

def someProcess : ExecProcess := ⟨[], [], 0, 0, 0, 0, 0, Thread.ftabCreate⟩

/-- The interpreter has a program header that is not for a segment. -/
theorem released_bad_type : ∃ r, elfExecCall (twoFiles (ehdrBytes ++ phdrBytes 2 0 0 0)) 1 0 someProcess [112]
    [112, 0, 0, 0] = some r ∧ r.result = .error .ENOEXEC ∧
      (r.Released someProcess ↔
        ¬ ExecInterpOutOfRange (twoFiles (ehdrBytes ++ phdrBytes 2 0 0 0)) 1 [112] [112, 0, 0, 0]) := by
  have hrun : (elfExecCall (twoFiles (ehdrBytes ++ phdrBytes 2 0 0 0)) 1 0 someProcess [112]
      [112, 0, 0, 0]).any (fun r => r.result = .error .ENOEXEC) = true := by
    decide
  obtain ⟨r, hr, herr⟩ := (Option.any_eq_true ..).1 hrun
  exact ⟨r, hr, of_decide_eq_true herr, elfExecCall_released_iff hr (of_decide_eq_true herr)⟩

/-- The interpreter has a segment at the address 0. -/
theorem program_left_open : ∃ r, elfExecCall (twoFiles (ehdrBytes ++ phdrBytes 1 0 0 0)) 1 0 someProcess
    [112] [112, 0, 0, 0] = some r ∧ r.result = .error .ENOEXEC ∧ ¬ r.Released someProcess ∧
      useAll [] r.uses = some [.file 0] := by
  have hrun : (elfExecCall (twoFiles (ehdrBytes ++ phdrBytes 1 0 0 0)) 1 0 someProcess [112]
      [112, 0, 0, 0]).any (fun r => r.result = .error .ENOEXEC ∧ ¬ Use.Balanced r.uses ∧
        useAll [] r.uses = some [.file 0]) = true := by
    decide
  obtain ⟨r, hr, hend⟩ := (Option.any_eq_true ..).1 hrun
  obtain ⟨herr, hunbalanced, hheld⟩ := of_decide_eq_true hend
  exact ⟨r, hr, herr, fun h => hunbalanced h.1, hheld⟩

end Glidix.Exec
