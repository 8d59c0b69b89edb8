import Glidix.Ipc.PipeBuffer

/-!
# The ends of a pipe

`cntRead` and `cntWrite` count the open ends, and when the last end of a kind is closed, a semaphore is
terminated: the one that the other side waits for.  A terminated semaphore stays so.  If no read end is
opened with `O_NONBLOCK`, which is not counted, and no end is opened after the last one of its kind
was closed, then the counters are right, a write fails for want of readers and a read ends for want of
writers only if there are none, and no semaphore is terminated twice.
-/

namespace Glidix.Ipc

open Glidix.Thread

/-- One for an open description of this kind. -/
def isEnd (filedata : PipeEnd) (o : Option PipeFile) : ℕ :=
  if o.map PipeFile.filedata = some filedata then 1 else 0

namespace Pipe

variable {p q : Pipe} {queue : List UInt8} {r : PipeResult} {i fd : ℕ} {giveUp : Option GiveUp}
  {filedata : PipeEnd} {file : PipeFile}

/-- The number of open descriptions of a kind. -/
def openEnds (p : Pipe) (filedata : PipeEnd) : ℕ := tally (isEnd filedata) p.files

/-- The description is open, and of this kind. -/
def Has (p : Pipe) (fd : ℕ) (filedata : PipeEnd) : Prop :=
  ∃ file, p.files[fd]? = some (some file) ∧ file.filedata = filedata

theorem Has.pos (h : p.Has fd filedata) : p.openEnds filedata ≠ 0 := by
  obtain ⟨file, hfile, rfl⟩ := h
  have hle : isEnd file.filedata (some file) ≤ p.openEnds file.filedata :=
    le_tally (List.mem_of_getElem? hfile)
  have hone : isEnd file.filedata (some file) = 1 := if_pos rfl
  omega

end Pipe

/-- A call uses an open description of its kind, and got no units only from a semaphore that is
terminated. -/
def PipeCall.Valid (p : Pipe) : PipeCall → Prop
  | .poll _ | .count _ => True
  | .read fd _ _ => p.Has fd .read
  | .readCopy fd n => p.Has fd .read ∧
      (n = 0 → p.semBufferRead.terminated = true ∧ p.semBufferRead.left = 0)
  | .write fd _ _ _ | .writeCopy fd _ _ _ _ => p.Has fd .write
  | .writeCheck fd _ _ _ n => p.Has fd .write ∧ (n = 0 → p.semBufferFree.terminated = true)

namespace Pipe

variable {p q : Pipe} {queue : List UInt8} {r : PipeResult} {i fd : ℕ} {giveUp : Option GiveUp}
  {filedata : PipeEnd} {file : PipeFile}

/-- The counters are right, a terminated semaphore means that the ends of a kind are gone, and the
calls in progress are valid. -/
structure Ends (p : Pipe) : Prop where
  cntRead : p.cntRead = p.openEnds .read
  cntWrite : p.cntWrite = p.openEnds .write
  readers : p.semBufferFree.terminated = true → p.openEnds .read = 0
  writers : p.semBufferRead.terminated = true → p.openEnds .write = 0
  calls : ∀ c ∈ p.calls, c.Valid p

/-- The descriptions and the marks of termination stay as they are, and a semaphore that is at its end
gets no units. -/
structure SameEnds (p q : Pipe) : Prop where
  files : q.files = p.files
  cntRead : q.cntRead = p.cntRead
  cntWrite : q.cntWrite = p.cntWrite
  termRead : q.semBufferRead.terminated = p.semBufferRead.terminated
  termFree : q.semBufferFree.terminated = p.semBufferFree.terminated
  drained : p.semBufferRead.terminated = true → p.semBufferRead.left = 0 → q.semBufferRead.left = 0

theorem valid_mono {c : PipeCall} (h : c.Valid p)
    (hhas : ∀ fd filedata, c.fd = some fd → p.Has fd filedata → q.Has fd filedata)
    (hread : p.semBufferRead.terminated = true → p.semBufferRead.left = 0 →
      q.semBufferRead.terminated = true ∧ q.semBufferRead.left = 0)
    (hfree : p.semBufferFree.terminated = true → q.semBufferFree.terminated = true) : c.Valid q := by
  cases c with
  | poll | count => trivial
  | read | write | writeCopy => exact hhas _ _ rfl h
  | readCopy => exact ⟨hhas _ _ rfl h.1, fun hn => hread (h.2 hn).1 (h.2 hn).2⟩
  | writeCheck => exact ⟨hhas _ _ rfl h.1, fun hn => hfree (h.2 hn)⟩

theorem Ends.of_same (h : p.Ends) (hs : SameEnds p q)
    (hcalls : ∀ c ∈ q.calls, c ∈ p.calls ∨ c.Valid q) : q.Ends := by
  have hends : ∀ filedata, q.openEnds filedata = p.openEnds filedata := fun _ => by
    rw [openEnds, hs.files, openEnds]
  refine ⟨?_, ?_, fun ht => ?_, fun ht => ?_, fun c hc => ?_⟩
  · rw [hs.cntRead, hends, h.cntRead]
  · rw [hs.cntWrite, hends, h.cntWrite]
  · rw [hends]
    exact h.readers (hs.termFree.symm.trans ht)
  · rw [hends]
    exact h.writers (hs.termRead.symm.trans ht)
  · obtain hc | hc := hcalls c hc
    · refine valid_mono (h.calls c hc) (fun fd filedata _ hh => ?_)
        (fun ht hl => ⟨hs.termRead.trans ht, hs.drained ht hl⟩) fun ht => hs.termFree.trans ht
      rwa [Has, hs.files]
    · exact hc

/-! ## Calls that leave the ends alone -/

theorem mem_eraseIdx {l : List PipeCall} : ∀ c ∈ l.eraseIdx i, c ∈ l ∨ c.Valid q :=
  fun _ hc => .inl ((List.eraseIdx_sublist l i).subset hc)

theorem mem_set {l : List PipeCall} {a : PipeCall} (ha : a.Valid q) :
    ∀ c ∈ l.set i a, c ∈ l ∨ c.Valid q := fun c hc => by
  obtain hc | rfl := List.mem_or_eq_of_mem_set hc
  · exact .inl hc
  · exact .inr ha

theorem mem_cons {l : List PipeCall} {a : PipeCall} (ha : a.Valid q) :
    ∀ c ∈ a :: l, c ∈ l ∨ c.Valid q := fun c hc => by
  obtain rfl | hc := List.mem_cons.1 hc
  · exact .inr ha
  · exact .inl hc

theorem Ends.openPolled {intr : Bool} (h : p.Ends) (hs : p.openPolled i intr = some (r, q)) :
    q.Ends := by
  obtain ⟨file, -, ⟨-, rfl⟩ | ⟨-, rfl⟩⟩ := openPolled_cases hs
  · exact h.of_same ⟨rfl, rfl, rfl, rfl, rfl, fun _ hl => hl⟩ (mem_set trivial)
  · exact h.of_same ⟨rfl, rfl, rfl, rfl, rfl, fun _ hl => hl⟩ mem_eraseIdx

theorem Ends.pipeRead {size : ℕ} (h : p.Ends) (hs : p.pipeRead fd size = some (r, q)) : q.Ends := by
  obtain ⟨nonblock, hfile, -, rfl⟩ := pipeRead_cases hs
  exact h.of_same ⟨rfl, rfl, rfl, rfl, rfl, fun _ hl => hl⟩ (mem_cons ⟨_, hfile, rfl⟩)

theorem Ends.pipeWrite {buffer : List UInt8} (h : p.Ends)
    (hs : p.pipeWrite fd buffer = some (r, q)) : q.Ends := by
  obtain ⟨-, rfl⟩ | ⟨nonblock, hfile, -, rfl⟩ := pipeWrite_cases hs
  · exact h
  · exact h.of_same ⟨rfl, rfl, rfl, rfl, rfl, fun _ hl => hl⟩ (mem_cons ⟨_, hfile, rfl⟩)

theorem Ends.readWait (h : p.Ends) (hsound : p.semBufferRead.Sound)
    (hasks : ∀ c ∈ p.calls[i]?, c.AsksFit p) (hs : p.readWait i giveUp = some (r, q)) : q.Ends := by
  obtain ⟨fd, nonblock, size, n, units, hcall, hwait, hq⟩ := readWait_cases hs
  obtain ⟨-, hsum, hterm, -, hzero, -⟩ := hsound.waitGen (hasks _ hcall) hwait
  have hhas : p.Has fd .read := h.calls _ (List.mem_of_getElem? hcall)
  obtain ⟨-, -, rfl⟩ | ⟨hpos, -, rfl⟩ := hq
  · exact h.of_same ⟨rfl, rfl, rfl, hterm, rfl, fun _ hl => by simp only; omega⟩ mem_eraseIdx
  · refine h.of_same ⟨rfl, rfl, rfl, hterm, rfl, fun _ hl => by simp only; omega⟩
      (mem_set ⟨hhas, fun hn => ?_⟩)
    rw [Int32.lt_iff_toInt_lt, Int32.toInt_zero] at hpos
    obtain ⟨hleft, ht⟩ := hzero (by omega)
    exact ⟨hterm.trans ht, by simp only; omega⟩

theorem Ends.readCopy (h : p.Ends) (hs : p.readCopy i = some (r, q)) : q.Ends := by
  obtain ⟨fd, count, sem, -, hsem, -, rfl⟩ := readCopy_cases hs
  exact h.of_same ⟨rfl, rfl, rfl, rfl, SemUnits.signal_terminated hsem, fun _ hl => hl⟩ mem_eraseIdx

theorem Ends.writeWait (h : p.Ends) (hsound : p.semBufferFree.Sound)
    (hasks : ∀ c ∈ p.calls[i]?, c.AsksFit p) (hs : p.writeWait i giveUp = some (r, q)) : q.Ends := by
  obtain ⟨fd, nonblock, buffer, out, n, units, hcall, hwait, hq⟩ := writeWait_cases hs
  obtain ⟨-, hsum, hterm, -, hzero, -⟩ := hsound.waitGen (hasks _ hcall) hwait
  have hhas : p.Has fd .write := h.calls _ (List.mem_of_getElem? hcall)
  obtain ⟨-, -, rfl⟩ | ⟨hpos, -, rfl⟩ := hq
  · exact h.of_same ⟨rfl, rfl, rfl, rfl, hterm, fun _ hl => hl⟩ mem_eraseIdx
  · refine h.of_same ⟨rfl, rfl, rfl, rfl, hterm, fun _ hl => hl⟩ (mem_set ⟨hhas, fun hn => ?_⟩)
    rw [Int32.lt_iff_toInt_lt, Int32.toInt_zero] at hpos
    exact hterm.trans (hzero (by omega)).2

theorem Ends.writeCheck (h : p.Ends) (hs : p.writeCheck i = some (r, q)) : q.Ends := by
  obtain ⟨fd, nonblock, buffer, out, count, hcall, ⟨-, -, rfl⟩ | ⟨-, -, rfl⟩⟩ := writeCheck_cases hs
  · exact h.of_same ⟨rfl, rfl, rfl, rfl, rfl, fun _ hl => hl⟩ mem_eraseIdx
  · have hvalid : PipeCall.Valid p _ := h.calls _ (List.mem_of_getElem? hcall)
    exact h.of_same ⟨rfl, rfl, rfl, rfl, rfl, fun _ hl => hl⟩ (mem_set hvalid.1)

/-- While a write is in progress, the semaphore of the readers is live. -/
theorem Ends.live_of_writeCopy (h : p.Ends) (hs : p.writeCopy i = some (r, q)) :
    p.semBufferRead.terminated = false := by
  obtain ⟨fd, nonblock, buffer, out, count, sem, hcall, -, -⟩ := writeCopy_cases hs
  have hhas : p.Has fd .write := h.calls _ (List.mem_of_getElem? hcall)
  exact Bool.eq_false_iff.2 fun ht => hhas.pos (h.writers ht)

theorem Ends.writeCopy (h : p.Ends) (hs : p.writeCopy i = some (r, q)) : q.Ends := by
  have hlive := h.live_of_writeCopy hs
  obtain ⟨fd, nonblock, buffer, out, count, sem, hcall, hsem, hq⟩ := writeCopy_cases hs
  have hhas : p.Has fd .write := h.calls _ (List.mem_of_getElem? hcall)
  have hterm := SemUnits.signal_terminated hsem
  have hdrained : p.semBufferRead.terminated = true → p.semBufferRead.left = 0 → sem.left = 0 :=
    fun ht => by rw [hlive] at ht; cases ht
  unfold writeNext at hq
  split_ifs at hq <;> cases hq
  · exact h.of_same ⟨rfl, rfl, rfl, hterm, rfl, hdrained⟩ mem_eraseIdx
  · exact h.of_same ⟨rfl, rfl, rfl, hterm, rfl, hdrained⟩ (mem_set hhas)

/-! ## Opening and closing -/

theorem openEnds_append {files : List (Option PipeFile)} :
    tally (isEnd filedata) (files ++ [some file]) =
      tally (isEnd filedata) files + isEnd filedata (some file) := by
  rw [tally_append, tally_cons, tally_nil, Nat.add_zero]

theorem has_append (h : p.Has fd filedata) (hq : q.files = p.files ++ [some file]) :
    q.Has fd filedata := by
  obtain ⟨f, hf, he⟩ := h
  refine ⟨f, ?_, he⟩
  rw [hq, List.getElem?_append_left (List.getElem?_eq_some_iff.1 hf).1, hf]

/-- An end is counted, and its description is open. -/
theorem Ends.openCount (h : p.Ends) (hlive : ∀ c ∈ p.calls[i]?, ∀ file, c = .count file →
      (file.filedata = .read → p.semBufferFree.terminated = false) ∧
      (file.filedata = .write → p.semBufferRead.terminated = false))
    (hs : p.openCount i = some (r, q)) : q.Ends := by
  obtain ⟨⟨filedata, nonblock⟩, hcall, hq⟩ := openCount_cases hs
  obtain ⟨hfree, hread⟩ := hlive _ hcall _ rfl
  have hcalls : ∀ c ∈ p.calls.eraseIdx i, c ∈ p.calls := (List.eraseIdx_sublist _ _).subset
  cases filedata <;> cases hq
  · refine ⟨?_, ?_, fun ht => ?_, fun ht => ?_, fun c hc => ?_⟩
    · show p.cntRead + 1 = (tally _ _ : ℕ)
      rw [openEnds_append, h.cntRead]
      rfl
    · show p.cntWrite = (tally _ _ : ℕ)
      rw [openEnds_append, h.cntWrite]
      rfl
    · exact absurd (ht.symm.trans (hfree rfl)) nofun
    · show tally _ _ = 0
      rw [openEnds_append]
      exact h.writers ht
    · exact valid_mono (h.calls c (hcalls c hc)) (fun _ _ _ hh => has_append hh rfl)
        (fun ht hl => ⟨ht, hl⟩) id
  · refine ⟨?_, ?_, fun ht => ?_, fun ht => ?_, fun c hc => ?_⟩
    · show p.cntRead = (tally _ _ : ℕ)
      rw [openEnds_append, h.cntRead]
      rfl
    · show p.cntWrite + 1 = (tally _ _ : ℕ)
      rw [openEnds_append, h.cntWrite]
      rfl
    · show tally _ _ = 0
      rw [openEnds_append]
      exact h.readers ht
    · exact absurd (ht.symm.trans (hread rfl)) nofun
    · exact valid_mono (h.calls c (hcalls c hc)) (fun _ _ _ hh => has_append hh rfl)
        (fun ht hl => ⟨ht, hl⟩) id

theorem Ends.pipeOpen {rd wr nonblock : Bool} (h : p.Ends)
    (hblock : ¬(rd = true ∧ wr = false ∧ nonblock = true))
    (hs : p.pipeOpen rd wr nonblock = some (r, q)) : q.Ends := by
  obtain ⟨-, rfl⟩ | ⟨hrd, hwr, hnonblock, -⟩ | ⟨file, semReadOpen, semWriteOpen, -, rfl⟩ :=
    pipeOpen_cases hs
  · exact h
  · exact absurd ⟨hrd, hwr, hnonblock⟩ hblock
  · exact h.of_same ⟨rfl, rfl, rfl, rfl, rfl, fun _ hl => hl⟩ (mem_cons trivial)

theorem files_dropFile : (p.dropFile fd file).files = p.files.set fd none := by
  obtain ⟨filedata, nonblock⟩ := file
  cases filedata <;> rfl

theorem openEnds_dropFile (hfile : p.files[fd]? = some (some file)) :
    (p.dropFile fd file).openEnds filedata + isEnd filedata (some file) = p.openEnds filedata := by
  rw [openEnds, files_dropFile]
  have hset : tally (isEnd filedata) (p.files.set fd none) + _ = _ + isEnd filedata none :=
    tally_set hfile
  exact hset

/-- A description that is not in use is gone. -/
theorem Ends.dropFile (h : p.Ends) (hfile : p.files[fd]? = some (some file))
    (hbusy : ∀ c ∈ p.calls, c.fd ≠ some fd) : (p.dropFile fd file).Ends := by
  have hread : _ + isEnd .read (some file) = _ := openEnds_dropFile hfile
  have hwrite : _ + isEnd .write (some file) = _ := openEnds_dropFile hfile
  have hsame : SameBuffer p (p.dropFile fd file) := sameBuffer_dropFile file
  have hcounts : (p.dropFile fd file).cntRead = p.cntRead - isEnd .read (some file) ∧
      (p.dropFile fd file).cntWrite = p.cntWrite - isEnd .write (some file) ∧
      (p.dropFile fd file).calls = p.calls := by
    obtain ⟨filedata, nonblock⟩ := file
    cases filedata
    · exact ⟨rfl, (sub_zero _).symm, rfl⟩
    · exact ⟨(sub_zero _).symm, rfl, rfl⟩
  obtain ⟨hcntRead, hcntWrite, hcalls⟩ := hcounts
  refine ⟨?_, ?_, fun ht => ?_, fun ht => ?_, fun c hc => ?_⟩
  · rw [hcntRead, h.cntRead]
    omega
  · rw [hcntWrite, h.cntWrite]
    omega
  · have := h.readers (hsame.semBufferFree ▸ ht)
    omega
  · have := h.writers (hsame.semBufferRead ▸ ht)
    omega
  · rw [hcalls] at hc
    refine valid_mono (h.calls c hc) (fun fd' filedata hfd hh => ?_)
      (fun ht hl => ⟨hsame.semBufferRead ▸ ht, hsame.semBufferRead ▸ hl⟩)
      fun ht => hsame.semBufferFree ▸ ht
    obtain ⟨f, hf, he⟩ := hh
    have hne : fd ≠ fd' := fun he => hbusy c hc (he ▸ hfd)
    exact ⟨f, by rw [files_dropFile, List.getElem?_set_ne hne, hf], he⟩

/-- The last end of a kind is closed, and a semaphore terminated; it was not before. -/
theorem Ends.pipeClose (h : p.Ends) (hs : p.pipeClose fd = some (r, q)) : q.Ends ∧ r ≠ .panic := by
  obtain ⟨file, hfile, hbusy, hcases⟩ := pipeClose_cases hs
  have hdrop := h.dropFile hfile hbusy
  have hsame : SameBuffer p (p.dropFile fd file) := sameBuffer_dropFile file
  have hhas : p.Has fd file.filedata := ⟨file, hfile, rfl⟩
  obtain ⟨hend, hzero, ⟨hnone, -, -⟩ | ⟨sem, hsem, rfl, rfl⟩⟩ |
    ⟨hend, hzero, ⟨hnone, -, -⟩ | ⟨sem, semHangup, hsem, rfl, rfl⟩⟩ | ⟨-, rfl, rfl⟩ := hcases
  · refine absurd (h.readers ?_) (hend ▸ hhas).pos
    exact SemUnits.terminate_eq_none hnone
  · rw [hdrop.cntRead] at hzero
    refine ⟨⟨hdrop.cntRead, hdrop.cntWrite, fun _ => Int.natCast_eq_zero.1 hzero, hdrop.writers,
      fun c hc => ?_⟩, nofun⟩
    exact valid_mono (hdrop.calls c hc) (fun _ _ _ hh => hh) (fun ht hl => ⟨ht, hl⟩)
      fun _ => SemUnits.terminate_terminated hsem
  · refine absurd (h.writers ?_) (hend ▸ hhas).pos
    exact SemUnits.terminate_eq_none hnone
  · rw [hdrop.cntWrite] at hzero
    refine ⟨⟨hdrop.cntRead, hdrop.cntWrite, hdrop.readers, fun _ => Int.natCast_eq_zero.1 hzero,
      fun c hc => ?_⟩, nofun⟩
    refine valid_mono (hdrop.calls c hc) (fun _ _ _ hh => hh) (fun ht => ?_) id
    rw [hsame.semBufferRead] at ht
    rw [SemUnits.terminate, if_pos ht] at hsem
    cases hsem
  · exact ⟨hdrop, nofun⟩

end Pipe

/-! ## Runs -/

/-- An end is counted while the semaphore that its kind keeps alive is not terminated. -/
def PipeCall.CountsLive (p : Pipe) : PipeCall → Prop
  | .count ⟨.read, _⟩ => p.semBufferFree.terminated = false
  | .count ⟨.write, _⟩ => p.semBufferRead.terminated = false
  | _ => True

/-- A read that got no bytes is the last one. -/
def PipeCall.EndsLast (p : Pipe) : PipeCall → Prop
  | .readCopy _ n => n = 0 → tally readTaken p.calls = 0
  | _ => True

instance (p : Pipe) : DecidablePred (PipeCall.CountsLive p)
  | .count ⟨.read, _⟩ | .count ⟨.write, _⟩ => inferInstanceAs (Decidable (_ = false))
  | .poll .. | .read .. | .readCopy .. | .write .. | .writeCheck .. | .writeCopy .. =>
    inferInstanceAs (Decidable True)

instance (p : Pipe) : DecidablePred (PipeCall.EndsLast p)
  | .readCopy .. => inferInstanceAs (Decidable (_ → _))
  | .poll .. | .count .. | .read .. | .write .. | .writeCheck .. | .writeCopy .. =>
    inferInstanceAs (Decidable True)

namespace Pipe

variable {p q : Pipe} {queue : List UInt8} {r : PipeResult} {i fd : ℕ} {op : PipeOp}

/-- No read end is opened with `O_NONBLOCK`, no end is opened after the last one of its kind was
closed, and a read that got no bytes is not overtaking another one. -/
def OpensFit (p : Pipe) : PipeOp → Prop
  | .open rd wr nonblock => ¬(rd = true ∧ wr = false ∧ nonblock = true)
  | .openCount i => ∀ c ∈ p.calls[i]?, c.CountsLive p
  | .readCopy i => ∀ c ∈ p.calls[i]?, c.EndsLast p
  | _ => True

/-- What a step must do for the ends to be right. -/
def KeepsEnds (p : Pipe) (op : PipeOp) : Prop := p.AsksFit op ∧ p.OpensFit op

instance (p : Pipe) : DecidablePred p.OpensFit
  | .open rd wr nonblock => inferInstanceAs (Decidable (¬(_ ∧ _)))
  | .openCount i | .readCopy i => inferInstanceAs (Decidable (∀ c ∈ p.calls[i]?, _))
  | .openPolled .. | .close .. | .read .. | .readWait .. | .write .. | .writeWait ..
  | .writeCheck .. | .writeCopy .. => inferInstanceAs (Decidable True)

instance (p : Pipe) : DecidablePred p.KeepsEnds := fun _ => inferInstanceAs (Decidable (_ ∧ _))

/-- What a step may show: `EPIPE` only if no read end is open, the end of the file only if no write
end is open and all bytes were read, and no panic. -/
structure Answers (p : Pipe) (r : PipeResult) : Prop where
  epipe : r = .fails EPIPE → p.openEnds .read = 0
  eof : r = .bytes [] → p.openEnds .write = 0 ∧ p.handed = p.accepted
  noPanic : r ≠ .panic

theorem answers_pending : p.Answers .pending := ⟨nofun, nofun, nofun⟩

theorem answers_fails {e : Int32} (he : e ≠ EPIPE) : p.Answers (.fails e) :=
  ⟨fun h => absurd (PipeResult.fails.inj h) he, nofun, nofun⟩

/-- `semWaitGen` gives up for a reason other than the lack of readers. -/
theorem ne_epipe {n : Int32} (hneg : n < 0)
    (hwhy : n.toInt < 0 → ∃ e : GiveUp, n = -e.errno) : -n ≠ EPIPE := by
  rw [Int32.lt_iff_toInt_lt, Int32.toInt_zero] at hneg
  obtain ⟨e, rfl⟩ := hwhy hneg
  cases e <;> decide

theorem Ends.answersRead (h : p.Ends) (hbuf : p.Buffered queue True False)
    (hlast : ∀ c ∈ p.calls[i]?, c.EndsLast p) (hs : p.readCopy i = some (r, q)) : p.Answers r := by
  obtain ⟨fd, count, sem, hcall, -, rfl, -⟩ := readCopy_cases hs
  refine ⟨nofun, fun he => ?_, nofun⟩
  have hmem : PipeCall.readCopy fd count ∈ p.calls := List.mem_of_getElem? hcall
  have htaken : _ ≤ tally PipeCall.readTaken p.calls := le_tally hmem
  rw [PipeCall.readTaken] at htaken
  have havail := hbuf.allAvail trivial
  have hzero : count = 0 := by
    obtain ⟨hgot, -⟩ := hbuf.ring.get (k := count) (by omega)
    have hnil : queue.take count = [] := hgot.symm.trans (PipeResult.bytes.inj he)
    have hlen := congrArg List.length hnil
    rw [List.length_take, List.length_nil] at hlen
    omega
  obtain ⟨-, hend⟩ := h.calls _ hmem
  obtain ⟨hterm, hleft⟩ := hend hzero
  have hnone : tally PipeCall.readTaken p.calls = 0 := hlast _ hcall hzero
  have hempty : queue = [] := List.length_eq_zero_iff.1 (by omega)
  exact ⟨h.writers hterm, by rw [hbuf.order, hempty, List.append_nil]⟩

theorem Ends.answersCheck (h : p.Ends) (hs : p.writeCheck i = some (r, q)) : p.Answers r := by
  obtain ⟨fd, nonblock, buffer, out, count, hcall, ⟨hnone, rfl, -⟩ | ⟨-, rfl, -⟩⟩ := writeCheck_cases hs
  · refine ⟨fun _ => ?_, nofun, nofun⟩
    obtain hzero | hzero := hnone
    · rw [h.cntRead] at hzero
      exact Int.natCast_eq_zero.1 hzero
    · obtain ⟨-, hend⟩ := h.calls _ (List.mem_of_getElem? hcall)
      exact h.readers (hend hzero)
  · exact answers_pending

/-- A step keeps the ends right, and shows what it may. -/
theorem Ends.step (h : p.Ends) (hbuf : p.Buffered queue True False) (hkeeps : p.KeepsEnds op)
    (hs : p.step op = some (r, q)) : q.Ends ∧ p.Answers r := by
  obtain ⟨hasks, hfit⟩ := hkeeps
  cases op with
  | «open» rd wr nonblock =>
    refine ⟨h.pipeOpen hfit hs, ?_⟩
    obtain ⟨rfl, -⟩ | ⟨hrd, hwr, hnonblock, -⟩ | ⟨-, -, -, rfl, -⟩ := pipeOpen_cases hs
    · exact answers_fails (by decide)
    · exact absurd ⟨hrd, hwr, hnonblock⟩ hfit
    · exact answers_pending
  | openPolled i intr =>
    refine ⟨h.openPolled hs, ?_⟩
    obtain ⟨file, -, ⟨rfl, -⟩ | ⟨⟨e, rfl, he⟩, -⟩⟩ := openPolled_cases hs
    · exact answers_pending
    · exact answers_fails (by obtain rfl | rfl | rfl := he <;> decide)
  | openCount i =>
    refine ⟨h.openCount (fun c hc file he => ?_) hs, ?_⟩
    · have hlive : PipeCall.CountsLive p _ := he ▸ hfit c hc
      obtain ⟨filedata, nonblock⟩ := file
      cases filedata
      · exact ⟨fun _ => hlive, nofun⟩
      · exact ⟨nofun, fun _ => hlive⟩
    · obtain ⟨file, -, he⟩ := openCount_cases hs
      cases he
      exact ⟨nofun, nofun, nofun⟩
  | close fd =>
    obtain ⟨hends, hpanic⟩ := h.pipeClose hs
    refine ⟨hends, ?_⟩
    obtain ⟨-, -, -, ⟨-, -, ⟨-, rfl, -⟩ | ⟨-, -, rfl, -⟩⟩ | ⟨-, -, ⟨-, rfl, -⟩ | ⟨-, -, -, rfl, -⟩⟩ |
      ⟨-, rfl, -⟩⟩ := pipeClose_cases hs
    · exact absurd rfl hpanic
    · exact ⟨nofun, nofun, nofun⟩
    · exact absurd rfl hpanic
    · exact ⟨nofun, nofun, nofun⟩
    · exact ⟨nofun, nofun, nofun⟩
  | read fd size =>
    refine ⟨h.pipeRead hs, ?_⟩
    obtain ⟨-, -, rfl, -⟩ := pipeRead_cases hs
    exact answers_pending
  | readWait i giveUp =>
    refine ⟨h.readWait hbuf.soundRead hasks hs, ?_⟩
    obtain ⟨_, _, _, n, _, hcall, hwait, ⟨hneg, rfl, -⟩ | ⟨-, rfl, -⟩⟩ := readWait_cases hs
    · obtain ⟨-, -, -, -, -, hwhy⟩ := hbuf.soundRead.waitGen (hasks _ hcall) hwait
      exact answers_fails (ne_epipe hneg hwhy)
    · exact answers_pending
  | readCopy i => exact ⟨h.readCopy hs, h.answersRead hbuf hfit hs⟩
  | write fd buffer =>
    refine ⟨h.pipeWrite hs, ?_⟩
    obtain ⟨rfl, -⟩ | ⟨-, -, rfl, -⟩ := pipeWrite_cases hs
    · exact ⟨nofun, nofun, nofun⟩
    · exact answers_pending
  | writeWait i giveUp =>
    refine ⟨h.writeWait hbuf.soundFree hasks hs, ?_⟩
    obtain ⟨_, _, _, out, n, _, hcall, hwait, ⟨hneg, rfl, -⟩ | ⟨-, rfl, -⟩⟩ := writeWait_cases hs
    · obtain ⟨-, -, -, -, -, hwhy⟩ := hbuf.soundFree.waitGen (hasks _ hcall) hwait
      split_ifs
      · exact answers_fails (ne_epipe hneg hwhy)
      · exact ⟨nofun, nofun, nofun⟩
    · exact answers_pending
  | writeCheck i => exact ⟨h.writeCheck hs, h.answersCheck hs⟩
  | writeCopy i =>
    refine ⟨h.writeCopy hs, ?_⟩
    obtain ⟨_, _, _, _, _, _, -, -, he⟩ := writeCopy_cases hs
    unfold writeNext at he
    split_ifs at he <;> cases he
    · exact ⟨nofun, nofun, nofun⟩
    · exact answers_pending

end Pipe

/-! ## Main result -/

/-- The counters are the numbers of open descriptions. -/
def Pipe.Counted (p : Pipe) : Prop :=
  p.cntRead = p.openEnds .read ∧ p.cntWrite = p.openEnds .write

instance (p : Pipe) : Decidable p.Counted := inferInstanceAs (Decidable (_ ∧ _))

theorem pipeInit_ends {p : Pipe} (h : pipeSystem.init p) : p.Ends := by
  obtain rfl | rfl := h <;> exact ⟨rfl, rfl, nofun, nofun, nofun⟩

theorem reaches_ends {p : Pipe} (h : pipeSystem.ReachesBy Pipe.KeepsEnds p) :
    p.Ends ∧ ∃ queue, p.Buffered queue True False := by
  refine h.invariant (I := fun p => p.Ends ∧ ∃ queue, p.Buffered queue True False)
    (fun p hp => ⟨pipeInit_ends hp, [], pipeInit_buffered hp _ _⟩) ?_
  rintro p op q ⟨hends, queue, hbuf⟩ hkeeps ⟨r, hs⟩
  refine ⟨(hends.step hbuf hkeeps hs).1, hbuf.step hkeeps.1 (fun _ => ⟨trivial, ?_⟩) nofun hs⟩
  rintro ⟨i, rfl⟩
  exact hends.live_of_writeCopy hs

/-- If no read end is opened with `O_NONBLOCK`, and no end after the last one of its kind was closed,
then the counters are right, and every step shows what it may. -/
theorem pipe_ends {p : Pipe} (h : pipeSystem.ReachesBy Pipe.KeepsEnds p) : p.Counted ∧
    ∀ op r q, p.KeepsEnds op → p.step op = some (r, q) → p.Answers r := by
  obtain ⟨hends, queue, hbuf⟩ := reaches_ends h
  exact ⟨⟨hends.cntRead, hends.cntWrite⟩, fun op r q hkeeps hs => (hends.step hbuf hkeeps hs).2⟩

/-- The write end is closed, and the last byte is read. -/
theorem pipe_ends_closed : ∃ p : Pipe, p.Counted ∧ p.handed = [97] ∧ p.semBufferRead.terminated := by
  have hrun : (pipe2.exec Pipe.KeepsEnds (openBoth false ++ ([.write 1 [97], .writeWait 0 none,
      .writeCheck 0, .writeCopy 0, .close 1, .read 0 8, .readWait 0 none, .readCopy 0] :
        List PipeOp))).any
        (fun p => p.handed = [97] ∧ p.semBufferRead.terminated) = true := by decide
  obtain ⟨p, hp, hend⟩ := (Option.any_eq_true ..).1 hrun
  exact ⟨p, (pipe_ends (Pipe.reachesBy_exec (.init (.inr rfl)) hp)).1, of_decide_eq_true hend⟩

/-- `sys_pipe2` with `O_NONBLOCK` does not count the read end, and the write fails. -/
theorem reader_not_counted : ∃ p, pipeSystem.Reachable p ∧ p.cntRead ≠ p.openEnds .read ∧
    ∃ q, p.step (.writeCheck 0) = some (.fails EPIPE, q) ∧ p.openEnds .read = 1 := by
  have hrun : (pipe2.exec (fun _ _ => True) (openBoth true ++
      ([.write 1 [97], .writeWait 0 none] : List PipeOp))).any (fun p => p.cntRead ≠ p.openEnds .read ∧
        (p.step (.writeCheck 0)).any (fun s => s.1 = .fails EPIPE) ∧ p.openEnds .read = 1) =
      true := by decide
  obtain ⟨p, hp, hend⟩ := (Option.any_eq_true ..).1 hrun
  obtain ⟨hcnt, hstep, hopen⟩ := of_decide_eq_true hend
  obtain ⟨⟨r, q⟩, hs, hr⟩ := (Option.any_eq_true ..).1 hstep
  cases of_decide_eq_true hr
  exact ⟨p, Pipe.reachesBy_exec (.init (.inr rfl)) hp, hcnt, q, hs, hopen⟩

/-- A FIFO is closed and opened again, and the second close of its last read end panics. -/
theorem reopened_panics : ∃ p, pipeSystem.Reachable p ∧ ∃ q, p.step (.close 2) = some (.panic, q) := by
  have hrun : (pipeCreate.exec (fun _ _ => True) [.open true false false, .open false true false,
      .openPolled 0 false, .openCount 0, .openPolled 0 false, .openCount 0, .close 1,
      .open true false false, .openPolled 0 false, .openCount 0]).any
        (fun p => (p.step (.close 2)).any fun s => s.1 = .panic) = true := by decide
  obtain ⟨p, hp, hend⟩ := (Option.any_eq_true ..).1 hrun
  obtain ⟨⟨r, q⟩, hs, hr⟩ := (Option.any_eq_true ..).1 hend
  cases of_decide_eq_true hr
  exact ⟨p, Pipe.reachesBy_exec (.init (.inl rfl)) hp, q, hs⟩

end Glidix.Ipc
