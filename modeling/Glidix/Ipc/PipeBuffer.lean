import Glidix.Ipc.Pipe
import Glidix.Lib.Tally

/-!
# The buffer of a pipe

The ring holds the bytes that were accepted and not handed out yet.  A byte or a free cell is counted
by a semaphore or taken by a call in progress; if every call asks for a number of units that is not
negative as an `int`, then the calls never take more than there is, and the bytes come out in the
order in which they went in.
-/

namespace Glidix.Ipc

open Glidix.Thread

/-- The bytes that a call has taken and not copied yet. -/
def PipeCall.readTaken : PipeCall → ℕ
  | .readCopy _ n => n
  | _ => 0

/-- The free cells that a call has taken and not filled yet. -/
def PipeCall.writeTaken : PipeCall → ℕ
  | .writeCheck _ _ _ _ n | .writeCopy _ _ _ _ n => n
  | _ => 0

/-- A write takes no more cells than it has bytes. -/
def PipeCall.Fits : PipeCall → Prop
  | .writeCheck _ _ buffer _ n | .writeCopy _ _ buffer _ n => n ≤ buffer.length
  | _ => True

/-- The units that a call has taken and not given back. -/
def PipeCall.taken (c : PipeCall) : ℕ := c.readTaken + c.writeTaken

/-- A call that may get some units asks for a number that is not below -1 as an `int`. -/
def PipeCall.AsksFit (p : Pipe) : PipeCall → Prop
  | .read _ _ size => p.semBufferRead.left ≠ 0 → -1 ≤ (Int32.ofNat size).toInt
  | .write _ _ buffer _ => p.semBufferFree.left ≠ 0 → -1 ≤ (Int32.ofNat buffer.length).toInt
  | _ => True

/-- A write that has taken cells finds a read end. -/
def PipeCall.Heard (p : Pipe) : PipeCall → Prop
  | .writeCheck _ _ _ _ n => p.cntRead = 0 → n = 0
  | _ => True

instance (p : Pipe) : DecidablePred (PipeCall.AsksFit p)
  | .read .. | .write .. => inferInstanceAs (Decidable (_ → _))
  | .poll .. | .count .. | .readCopy .. | .writeCheck .. | .writeCopy .. =>
    inferInstanceAs (Decidable True)

instance (p : Pipe) : DecidablePred (PipeCall.Heard p)
  | .writeCheck .. => inferInstanceAs (Decidable (_ → _))
  | .poll .. | .count .. | .read .. | .readCopy .. | .write .. | .writeCopy .. =>
    inferInstanceAs (Decidable True)

namespace Pipe

variable {p q : Pipe} {queue : List UInt8} {e f : Prop} {r : PipeResult} {i fd : ℕ}
  {giveUp : Option GiveUp}

/-- The buffer holds the queue, and no more bytes or cells are counted or taken than there are; `e`
and `f` say whether none of the bytes, or of the cells, is missing. -/
structure Buffered (p : Pipe) (queue : List UInt8) (e f : Prop) : Prop where
  ring : Ring.Holds PIPE_BUFFER_SIZE p.buffer p.offRead p.offWrite queue
  order : p.accepted = p.handed ++ queue
  soundRead : p.semBufferRead.Sound
  soundFree : p.semBufferFree.Sound
  avail : p.semBufferRead.left + tally PipeCall.readTaken p.calls ≤ queue.length
  room : p.semBufferFree.left + tally PipeCall.writeTaken p.calls + queue.length ≤ PIPE_BUFFER_SIZE
  allAvail : e → p.semBufferRead.left + tally PipeCall.readTaken p.calls = queue.length
  allRoom : f →
    p.semBufferFree.left + tally PipeCall.writeTaken p.calls + queue.length = PIPE_BUFFER_SIZE
  fits : ∀ c ∈ p.calls, c.Fits

/-! ## Calls in progress -/

theorem fits_eraseIdx {l : List PipeCall} (h : ∀ c ∈ l, c.Fits) : ∀ c ∈ l.eraseIdx i, c.Fits :=
  fun c hc => h c ((List.eraseIdx_sublist l i).subset hc)

theorem fits_set {l : List PipeCall} {a : PipeCall} (h : ∀ c ∈ l, c.Fits) (ha : a.Fits) :
    ∀ c ∈ l.set i a, c.Fits := fun c hc => by
  obtain hc | rfl := List.mem_or_eq_of_mem_set hc
  · exact h c hc
  · exact ha

/-- What the calls have taken, if one of them goes on as another. -/
theorem taken_set {c : PipeCall} (c' : PipeCall) (hi : p.calls[i]? = some c) :
    tally PipeCall.readTaken (p.calls.set i c') + c.readTaken =
        tally PipeCall.readTaken p.calls + c'.readTaken ∧
      tally PipeCall.writeTaken (p.calls.set i c') + c.writeTaken =
        tally PipeCall.writeTaken p.calls + c'.writeTaken :=
  ⟨tally_set hi, tally_set hi⟩

theorem taken_eraseIdx {c : PipeCall} (hi : p.calls[i]? = some c) :
    tally PipeCall.readTaken (p.calls.eraseIdx i) + c.readTaken =
        tally PipeCall.readTaken p.calls ∧
      tally PipeCall.writeTaken (p.calls.eraseIdx i) + c.writeTaken =
        tally PipeCall.writeTaken p.calls :=
  ⟨tally_eraseIdx hi, tally_eraseIdx hi⟩

/-- The buffer and the units stay as they are. -/
structure SameBuffer (p q : Pipe) : Prop where
  buffer : q.buffer = p.buffer
  offRead : q.offRead = p.offRead
  offWrite : q.offWrite = p.offWrite
  accepted : q.accepted = p.accepted
  handed : q.handed = p.handed
  semBufferRead : q.semBufferRead = p.semBufferRead
  semBufferFree : q.semBufferFree = p.semBufferFree

/-- A step that moves no units; it may lose cells if `f` does not say otherwise. -/
theorem Buffered.of_same {f' : Prop} (h : p.Buffered queue e f) (hs : SameBuffer p q)
    (hr : tally PipeCall.readTaken q.calls = tally PipeCall.readTaken p.calls)
    (hw : tally PipeCall.writeTaken q.calls ≤ tally PipeCall.writeTaken p.calls)
    (hf : f' → f ∧ tally PipeCall.writeTaken q.calls = tally PipeCall.writeTaken p.calls)
    (hfits : ∀ c ∈ q.calls, c.Fits) : q.Buffered queue e f' := by
  have hroom := h.room
  refine ⟨?_, ?_, hs.semBufferRead ▸ h.soundRead, hs.semBufferFree ▸ h.soundFree, ?_, ?_, fun he => ?_,
    fun hf' => ?_, hfits⟩
  · rw [hs.buffer, hs.offRead, hs.offWrite]
    exact h.ring
  · rw [hs.accepted, hs.handed]
    exact h.order
  · rw [hs.semBufferRead, hr]
    exact h.avail
  · rw [hs.semBufferFree]
    omega
  · rw [hs.semBufferRead, hr]
    exact h.allAvail he
  · rw [hs.semBufferFree, (hf hf').2]
    exact h.allRoom (hf hf').1

/-- A new call has not taken anything. -/
theorem Buffered.cons {c : PipeCall} (h : p.Buffered queue e f) (hs : SameBuffer p q)
    (hcalls : q.calls = c :: p.calls) (hc : c.taken = 0 ∧ c.Fits) : q.Buffered queue e f := by
  have htaken := hc.1
  unfold PipeCall.taken at htaken
  have hw : tally PipeCall.writeTaken q.calls = tally PipeCall.writeTaken p.calls := by
    rw [hcalls, tally_cons]
    omega
  refine h.of_same hs ?_ hw.le (fun hf => ⟨hf, hw⟩) ?_
  · rw [hcalls, tally_cons]
    omega
  · rw [hcalls]
    exact List.forall_mem_cons.2 ⟨hc.2, h.fits⟩

/-- A call that has taken nothing ends. -/
theorem Buffered.eraseIdx {c : PipeCall} (h : p.Buffered queue e f) (hs : SameBuffer p q)
    (hi : p.calls[i]? = some c) (hcalls : q.calls = p.calls.eraseIdx i) (hc : c.taken = 0) :
    q.Buffered queue e f := by
  unfold PipeCall.taken at hc
  obtain ⟨hr, hw⟩ := taken_eraseIdx hi
  rw [← hcalls] at hr hw
  exact h.of_same hs (by omega) (by omega) (fun hf => ⟨hf, by omega⟩)
    (hcalls ▸ fits_eraseIdx h.fits)

/-- A call goes on with what it has taken. -/
theorem Buffered.set {c c' : PipeCall} (h : p.Buffered queue e f) (hs : SameBuffer p q)
    (hi : p.calls[i]? = some c) (hcalls : q.calls = p.calls.set i c')
    (hr : c'.readTaken = c.readTaken) (hw : c'.writeTaken = c.writeTaken) (hc : c'.Fits) :
    q.Buffered queue e f := by
  have hw' : tally PipeCall.writeTaken q.calls = tally PipeCall.writeTaken p.calls := by
    rw [hcalls, tally_set_eq hi hw]
  refine h.of_same hs ?_ hw'.le (fun hf => ⟨hf, hw'⟩) (hcalls ▸ fits_set h.fits hc)
  rw [hcalls, tally_set_eq hi hr]

/-! ## Taking units -/

theorem toNat_of_neg {n : Int32} (h : n < 0) : n.toInt.toNat = 0 := by
  have := Int32.lt_iff_toInt_lt.1 h
  rw [Int32.toInt_zero] at this
  omega

theorem Buffered.readWait (h : p.Buffered queue e f)
    (hasks : ∀ c ∈ p.calls[i]?, c.AsksFit p) (hs : p.readWait i giveUp = some (r, q)) : q.Buffered queue e f := by
  obtain ⟨fd, nonblock, size, n, units, hcall, hwait, hq⟩ := readWait_cases hs
  obtain ⟨hsound, hsum, -⟩ := h.soundRead.waitGen (hasks _ hcall) hwait
  have havail := h.avail
  have hall := h.allAvail
  have hroom := h.room
  have hcells := h.allRoom
  obtain ⟨hneg, -, rfl⟩ | ⟨-, -, rfl⟩ := hq
  · have hzero := toNat_of_neg hneg
    obtain ⟨hr, hw⟩ := taken_eraseIdx hcall
    simp only [PipeCall.readTaken, PipeCall.writeTaken, Nat.add_zero] at hr hw
    exact ⟨h.ring, h.order, hsound, h.soundFree, by simp only; omega, by simp only; omega,
      fun he => by have := hall he; simp only; omega,
      fun hf => by have := hcells hf; simp only; omega, fits_eraseIdx h.fits⟩
  · obtain ⟨hr, hw⟩ := taken_set (.readCopy fd n.toInt.toNat) hcall
    simp only [PipeCall.readTaken, PipeCall.writeTaken, Nat.add_zero] at hr hw
    exact ⟨h.ring, h.order, hsound, h.soundFree, by simp only; omega, by simp only; omega,
      fun he => by have := hall he; simp only; omega,
      fun hf => by have := hcells hf; simp only; omega, fits_set h.fits trivial⟩

theorem Buffered.writeWait (h : p.Buffered queue e f)
    (hasks : ∀ c ∈ p.calls[i]?, c.AsksFit p) (hs : p.writeWait i giveUp = some (r, q)) : q.Buffered queue e f := by
  obtain ⟨fd, nonblock, buffer, out, n, units, hcall, hwait, hq⟩ := writeWait_cases hs
  obtain ⟨hsound, hsum, -, hle, -⟩ := h.soundFree.waitGen (hasks _ hcall) hwait
  have havail := h.avail
  have hall := h.allAvail
  have hroom := h.room
  have hcells := h.allRoom
  obtain ⟨hneg, -, rfl⟩ | ⟨-, -, rfl⟩ := hq
  · have hzero := toNat_of_neg hneg
    obtain ⟨hr, hw⟩ := taken_eraseIdx hcall
    simp only [PipeCall.readTaken, PipeCall.writeTaken, Nat.add_zero] at hr hw
    exact ⟨h.ring, h.order, h.soundRead, hsound, by simp only; omega, by simp only; omega,
      fun he => by have := hall he; simp only; omega,
      fun hf => by have := hcells hf; simp only; omega, fits_eraseIdx h.fits⟩
  · obtain ⟨hr, hw⟩ := taken_set (.writeCheck fd nonblock buffer out n.toInt.toNat) hcall
    simp only [PipeCall.readTaken, PipeCall.writeTaken, Nat.add_zero] at hr hw
    have hfits : n.toInt.toNat ≤ buffer.length := by
      have hsmall : n.toInt.toNat ≤ PIPE_BUFFER_SIZE := by omega
      by_cases hneg : (Int32.ofNat buffer.length).toInt < 0
      · have := SemUnits.le_of_toInt_ofNat_neg hneg
        unfold PIPE_BUFFER_SIZE at hsmall
        omega
      · have hlen := SemUnits.toInt_ofNat_le buffer.length
        by_cases hpos : 0 < (Int32.ofNat buffer.length).toInt
        · have := hle hpos
          omega
        · have hzero : Int32.ofNat buffer.length = 0 := Int32.toInt_inj.1 (by
            rw [Int32.toInt_zero]
            omega)
          rw [hzero, SemUnits.waitGen, if_pos rfl] at hwait
          cases hwait
          exact Nat.zero_le _
    exact ⟨h.ring, h.order, h.soundRead, hsound, by simp only; omega, by simp only; omega,
      fun he => by have := hall he; simp only; omega,
      fun hf => by have := hcells hf; simp only; omega, fits_set h.fits hfits⟩

/-! ## Moving bytes -/

theorem toInt_ofNat_of_le {n : ℕ} (h : n ≤ PIPE_BUFFER_SIZE) : (Int32.ofNat n).toInt = n := by
  unfold PIPE_BUFFER_SIZE at h
  exact Int32.toInt_ofNat_of_lt (by omega)

/-- A read hands out bytes from the front of the queue. -/
theorem Buffered.readCopy {f' : Prop} (h : p.Buffered queue e f)
    (hf : f' → f ∧ p.semBufferFree.terminated = false) (hs : p.readCopy i = some (r, q)) :
    ∃ queue', q.Buffered queue' e f' := by
  obtain ⟨fd, count, sem, hcall, hsem, -, rfl⟩ := readCopy_cases hs
  have havail := h.avail
  have hroom := h.room
  obtain ⟨hr, hw⟩ := taken_eraseIdx hcall
  simp only [PipeCall.readTaken, PipeCall.writeTaken, Nat.add_zero] at hr hw
  have hle : count ≤ queue.length := by omega
  have hint := toInt_ofNat_of_le (show count ≤ PIPE_BUFFER_SIZE by omega)
  have hmax : PIPE_BUFFER_SIZE < 2 ^ 31 := by decide
  obtain ⟨hsound, -, hleft⟩ := h.soundFree.signal (by omega) (by omega) hsem
  obtain ⟨htake, hring⟩ := h.ring.get hle
  refine ⟨queue.drop count, hring, ?_, h.soundRead, hsound, ?_, ?_, fun he => ?_, fun hf' => ?_,
    fits_eraseIdx h.fits⟩
  · rw [h.order, htake, List.append_assoc, List.take_append_drop]
  · simp only [List.length_drop]
    omega
  · simp only [List.length_drop]
    split_ifs at hleft <;> omega
  · have := h.allAvail he
    simp only [List.length_drop]
    omega
  · obtain ⟨hf, hterm⟩ := hf hf'
    have := h.allRoom hf
    rw [if_neg (by simp [hterm])] at hleft
    simp only [List.length_drop]
    omega

/-- A write puts its bytes behind the queue. -/
theorem Buffered.writeCopy {e' : Prop} (h : p.Buffered queue e f)
    (he : e' → e ∧ p.semBufferRead.terminated = false) (hs : p.writeCopy i = some (r, q)) :
    ∃ queue', q.Buffered queue' e' f := by
  obtain ⟨fd, nonblock, buffer, out, count, sem, hcall, hsem, hq⟩ := writeCopy_cases hs
  have hfits : count ≤ buffer.length := h.fits _ (List.mem_of_getElem? hcall)
  have hlen : (buffer.take count).length = count := List.length_take_of_le hfits
  have havail := h.avail
  have hroom := h.room
  obtain ⟨hr, hw⟩ := taken_eraseIdx hcall
  simp only [PipeCall.readTaken, PipeCall.writeTaken, Nat.add_zero] at hr hw
  have hint := toInt_ofNat_of_le (show count ≤ PIPE_BUFFER_SIZE by omega)
  have hmax : PIPE_BUFFER_SIZE < 2 ^ 31 := by decide
  obtain ⟨hsound, -, hleft⟩ := h.soundRead.signal (by omega) (by omega) hsem
  have hfull : queue.length + (buffer.take count).length ≤ PIPE_BUFFER_SIZE := by omega
  have hring := h.ring.put hfull
  have hput : ∀ calls, tally PipeCall.readTaken calls = tally PipeCall.readTaken p.calls →
      tally PipeCall.writeTaken calls + count = tally PipeCall.writeTaken p.calls →
      (∀ c ∈ calls, c.Fits) → Buffered { p with
        semBufferRead := sem
        buffer := (Ring.put PIPE_BUFFER_SIZE p.buffer p.offWrite (buffer.take count)).1
        offWrite := (Ring.put PIPE_BUFFER_SIZE p.buffer p.offWrite (buffer.take count)).2
        accepted := p.accepted ++ buffer.take count
        calls } (queue ++ buffer.take count) e' f := by
    intro calls hr hw hfits
    refine ⟨hring, ?_, hsound, h.soundFree, ?_, ?_, fun he' => ?_, fun hf => ?_, hfits⟩
    · rw [h.order, List.append_assoc]
    · simp only [List.length_append, hlen]
      split_ifs at hleft <;> omega
    · simp only [List.length_append, hlen]
      omega
    · obtain ⟨he, hterm⟩ := he he'
      have := h.allAvail he
      rw [if_neg (by simp [hterm])] at hleft
      simp only [List.length_append, hlen]
      omega
    · have := h.allRoom hf
      simp only [List.length_append, hlen]
      omega
  refine ⟨queue ++ buffer.take count, ?_⟩
  unfold writeNext at hq
  split_ifs at hq
  · cases hq
    exact hput _ (by omega) (by omega) (fits_eraseIdx h.fits)
  · cases hq
    obtain ⟨hr', hw'⟩ := taken_set (.write fd nonblock (buffer.drop count) (out + count)) hcall
    simp only [PipeCall.readTaken, PipeCall.writeTaken, Nat.add_zero] at hr' hw'
    exact hput _ (by omega) (by omega) (fits_set h.fits trivial)

/-- A write that finds no read end returns without its cells. -/
theorem Buffered.writeCheck {f' : Prop} (h : p.Buffered queue e f)
    (hf : f' → f ∧ ∀ c ∈ p.calls[i]?, c.Heard p) (hs : p.writeCheck i = some (r, q)) : q.Buffered queue e f' := by
  obtain ⟨fd, nonblock, buffer, out, count, hcall, ⟨hnone, -, rfl⟩ | ⟨-, -, rfl⟩⟩ :=
    writeCheck_cases hs
  · obtain ⟨hr, hw⟩ := taken_eraseIdx hcall
    simp only [PipeCall.readTaken, PipeCall.writeTaken, Nat.add_zero] at hr hw
    refine h.of_same ⟨rfl, rfl, rfl, rfl, rfl, rfl, rfl⟩ hr (by simp only; omega) (fun hf' => ?_)
      (fits_eraseIdx h.fits)
    obtain ⟨hf, hzero⟩ := hf hf'
    have hcount : count = 0 := hnone.elim (hzero _ hcall) id
    exact ⟨hf, by simp only; omega⟩
  · have hfits : count ≤ buffer.length := h.fits _ (List.mem_of_getElem? hcall)
    have hset : Buffered { p with calls := p.calls.set i (.writeCopy fd nonblock buffer out count) }
        queue e f := h.set ⟨rfl, rfl, rfl, rfl, rfl, rfl, rfl⟩ hcall rfl rfl rfl hfits
    exact hset.of_same ⟨rfl, rfl, rfl, rfl, rfl, rfl, rfl⟩ rfl le_rfl (fun hf' => ⟨(hf hf').1, rfl⟩)
      hset.fits

/-! ## Ends -/

theorem sameBuffer_addEnd (file : PipeEnd) (n : ℤ) : SameBuffer p (p.addEnd file n) := by
  cases file <;> exact ⟨rfl, rfl, rfl, rfl, rfl, rfl, rfl⟩

theorem sameBuffer_dropFile (file : PipeFile) : SameBuffer p (p.dropFile fd file) := by
  obtain ⟨filedata, nonblock⟩ := file
  cases filedata <;> exact ⟨rfl, rfl, rfl, rfl, rfl, rfl, rfl⟩

theorem calls_addEnd (file : PipeEnd) (n : ℤ) : (p.addEnd file n).calls = p.calls := by
  cases file <;> rfl

theorem SameBuffer.trans {p' : Pipe} (h : SameBuffer p q) (h' : SameBuffer q p') : SameBuffer p p' :=
  ⟨h'.1.trans h.1, h'.2.trans h.2, h'.3.trans h.3, h'.4.trans h.4, h'.5.trans h.5, h'.6.trans h.6,
    h'.7.trans h.7⟩

/-- The calls stay as they are, too. -/
theorem Buffered.same (h : p.Buffered queue e f) (hs : SameBuffer p q) (hcalls : q.calls = p.calls) :
    q.Buffered queue e f :=
  h.of_same hs (by rw [hcalls]) (by rw [hcalls]) (fun hf => ⟨hf, by rw [hcalls]⟩)
    (hcalls ▸ h.fits)

theorem Buffered.pipeOpen {rd wr nonblock : Bool} (h : p.Buffered queue e f)
    (hs : p.pipeOpen rd wr nonblock = some (r, q)) : q.Buffered queue e f := by
  obtain ⟨-, rfl⟩ | ⟨-, -, -, sem, -, hq⟩ | ⟨file, semReadOpen, semWriteOpen, -, rfl⟩ :=
    pipeOpen_cases hs
  · exact h
  · cases hq
    exact h.same ⟨rfl, rfl, rfl, rfl, rfl, rfl, rfl⟩ rfl
  · exact h.cons ⟨rfl, rfl, rfl, rfl, rfl, rfl, rfl⟩ rfl ⟨rfl, trivial⟩

theorem Buffered.openPolled {intr : Bool} (h : p.Buffered queue e f)
    (hs : p.openPolled i intr = some (r, q)) : q.Buffered queue e f := by
  obtain ⟨file, hcall, ⟨-, rfl⟩ | ⟨-, rfl⟩⟩ := openPolled_cases hs
  · exact h.set ⟨rfl, rfl, rfl, rfl, rfl, rfl, rfl⟩ hcall rfl rfl rfl trivial
  · exact h.eraseIdx ⟨rfl, rfl, rfl, rfl, rfl, rfl, rfl⟩ hcall rfl rfl

theorem Buffered.openCount (h : p.Buffered queue e f) (hs : p.openCount i = some (r, q)) :
    q.Buffered queue e f := by
  obtain ⟨file, hcall, hq⟩ := openCount_cases hs
  have herase : Buffered { p with calls := p.calls.eraseIdx i } queue e f :=
    h.eraseIdx ⟨rfl, rfl, rfl, rfl, rfl, rfl, rfl⟩ hcall rfl rfl
  cases hq
  exact (herase.same (sameBuffer_addEnd file.filedata 1) (calls_addEnd _ _)).same
    ⟨rfl, rfl, rfl, rfl, rfl, rfl, rfl⟩ rfl

theorem Buffered.terminateFree {sem : SemUnits} (h : p.Buffered queue e f)
    (hsem : p.semBufferFree.terminate = some sem) :
    Buffered { p with semBufferFree := sem } queue e f := by
  obtain ⟨hsound, hleft, -⟩ := h.soundFree.terminate hsem
  exact ⟨h.ring, h.order, h.soundRead, hsound, h.avail, hleft ▸ h.room, h.allAvail,
    fun hf => hleft ▸ h.allRoom hf, h.fits⟩

theorem Buffered.terminateRead {sem : SemUnits} (h : p.Buffered queue e f)
    (hsem : p.semBufferRead.terminate = some sem) :
    Buffered { p with semBufferRead := sem } queue e f := by
  obtain ⟨hsound, hleft, -⟩ := h.soundRead.terminate hsem
  exact ⟨h.ring, h.order, hsound, h.soundFree, hleft ▸ h.avail, h.room,
    fun he => hleft ▸ h.allAvail he, h.allRoom, h.fits⟩

theorem Buffered.dropFile (h : p.Buffered queue e f) (file : PipeFile) :
    (p.dropFile fd file).Buffered queue e f := by
  have hless : Buffered { p with files := p.files.set fd none } queue e f :=
    h.same ⟨rfl, rfl, rfl, rfl, rfl, rfl, rfl⟩ rfl
  exact hless.same (sameBuffer_addEnd _ _) (calls_addEnd _ _)

theorem Buffered.pipeClose (h : p.Buffered queue e f) (hs : p.pipeClose fd = some (r, q)) :
    q.Buffered queue e f := by
  obtain ⟨file, -, -, ⟨-, -, ⟨-, -, rfl⟩ | ⟨sem, hsem, -, rfl⟩⟩ |
    ⟨-, -, ⟨-, -, rfl⟩ | ⟨sem, semHangup, hsem, -, rfl⟩⟩ | ⟨-, -, rfl⟩⟩ := pipeClose_cases hs
  · exact h.dropFile file
  · refine (h.dropFile file).terminateFree ?_
    rwa [(sameBuffer_dropFile file).semBufferFree]
  · exact h.dropFile file
  · have hterm : Buffered { p.dropFile fd file with semBufferRead := sem } queue e f := by
      refine (h.dropFile file).terminateRead ?_
      rwa [(sameBuffer_dropFile file).semBufferRead]
    exact hterm.same ⟨rfl, rfl, rfl, rfl, rfl, rfl, rfl⟩ rfl
  · exact h.dropFile file

theorem Buffered.pipeRead {size : ℕ} (h : p.Buffered queue e f)
    (hs : p.pipeRead fd size = some (r, q)) : q.Buffered queue e f := by
  obtain ⟨nonblock, -, -, rfl⟩ := pipeRead_cases hs
  exact h.cons ⟨rfl, rfl, rfl, rfl, rfl, rfl, rfl⟩ rfl ⟨rfl, trivial⟩

theorem Buffered.pipeWrite {buffer : List UInt8} (h : p.Buffered queue e f)
    (hs : p.pipeWrite fd buffer = some (r, q)) : q.Buffered queue e f := by
  obtain ⟨-, rfl⟩ | ⟨nonblock, -, -, rfl⟩ := pipeWrite_cases hs
  · exact h
  · exact h.cons ⟨rfl, rfl, rfl, rfl, rfl, rfl, rfl⟩ rfl ⟨rfl, trivial⟩

/-! ## Runs -/

def AsksFit (p : Pipe) : PipeOp → Prop
  | .readWait i _ | .writeWait i _ => ∀ c ∈ p.calls[i]?, c.AsksFit p
  | _ => True

/-- Neither of the two semaphores is terminated. -/
def Live (p : Pipe) : Prop :=
  p.semBufferRead.terminated = false ∧ p.semBufferFree.terminated = false

/-- While both semaphores are live, a write that has taken cells finds a read end. -/
def WritersHeard (p : Pipe) : PipeOp → Prop
  | .writeCheck i => p.Live → ∀ c ∈ p.calls[i]?, c.Heard p
  | _ => True

/-- What a step must do for the units to be accounted for. -/
def KeepsUnits (p : Pipe) (op : PipeOp) : Prop := p.AsksFit op ∧ p.WritersHeard op

instance : Decidable p.Live := inferInstanceAs (Decidable (_ ∧ _))

instance (p : Pipe) : DecidablePred p.AsksFit
  | .readWait i _ | .writeWait i _ => inferInstanceAs (Decidable (∀ c ∈ p.calls[i]?, _))
  | .open .. | .openPolled .. | .openCount .. | .close .. | .read .. | .readCopy .. | .write ..
  | .writeCheck .. | .writeCopy .. => inferInstanceAs (Decidable True)

instance (p : Pipe) : DecidablePred p.WritersHeard
  | .writeCheck i => inferInstanceAs (Decidable (p.Live → ∀ c ∈ p.calls[i]?, _))
  | .open .. | .openPolled .. | .openCount .. | .close .. | .read .. | .readWait .. | .readCopy ..
  | .write .. | .writeWait .. | .writeCopy .. => inferInstanceAs (Decidable True)

instance (p : Pipe) : DecidablePred p.KeepsUnits := fun _ => inferInstanceAs (Decidable (_ ∧ _))

theorem Buffered.step {e' f' : Prop} {op : PipeOp} (h : p.Buffered queue e f) (hasks : p.AsksFit op)
    (he : e' → e ∧ ((∃ i, op = .writeCopy i) → p.semBufferRead.terminated = false))
    (hf : f' → f ∧ ((∃ i, op = .readCopy i) → p.semBufferFree.terminated = false) ∧
      ∀ i, op = .writeCheck i → ∀ c ∈ p.calls[i]?, c.Heard p)
    (hs : p.step op = some (r, q)) : ∃ queue', q.Buffered queue' e' f' := by
  have hweak : p.Buffered queue e' f' := ⟨h.ring, h.order, h.soundRead, h.soundFree, h.avail, h.room,
    fun h' => h.allAvail (he h').1, fun h' => h.allRoom (hf h').1, h.fits⟩
  cases op with
  | «open» rd wr nonblock => exact ⟨queue, hweak.pipeOpen hs⟩
  | openPolled i intr => exact ⟨queue, hweak.openPolled hs⟩
  | openCount i => exact ⟨queue, hweak.openCount hs⟩
  | close fd => exact ⟨queue, hweak.pipeClose hs⟩
  | read fd size => exact ⟨queue, hweak.pipeRead hs⟩
  | readWait i giveUp => exact ⟨queue, hweak.readWait hasks hs⟩
  | readCopy i => exact hweak.readCopy (fun h' => ⟨h', (hf h').2.1 ⟨i, rfl⟩⟩) hs
  | write fd buffer => exact ⟨queue, hweak.pipeWrite hs⟩
  | writeWait i giveUp => exact ⟨queue, hweak.writeWait hasks hs⟩
  | writeCheck i => exact ⟨queue, hweak.writeCheck (fun h' => ⟨h', (hf h').2.2 i rfl⟩) hs⟩
  | writeCopy i => exact hweak.writeCopy (fun h' => ⟨h', (he h').2 ⟨i, rfl⟩⟩) hs

theorem Live.of_same (h : q.Live) (hs : SameBuffer p q) : p.Live :=
  ⟨hs.semBufferRead ▸ h.1, hs.semBufferFree ▸ h.2⟩

/-- A semaphore that is terminated stays so. -/
theorem Live.of_step {op : PipeOp} (hq : q.Live) (hs : p.step op = some (r, q)) : p.Live := by
  cases op with
  | «open» rd wr nonblock =>
    obtain ⟨-, rfl⟩ | ⟨-, -, -, sem, -, he⟩ | ⟨file, semReadOpen, semWriteOpen, -, rfl⟩ :=
      pipeOpen_cases hs
    · exact hq
    · cases he
      exact hq
    · exact hq
  | openPolled i intr =>
    obtain ⟨file, -, ⟨-, rfl⟩ | ⟨-, rfl⟩⟩ := openPolled_cases hs <;> exact hq
  | openCount i =>
    obtain ⟨file, -, he⟩ := openCount_cases hs
    cases he
    have hend : ∀ p' : Pipe, (p'.addEnd file.filedata 1).Live → p'.Live :=
      fun p' h => h.of_same (sameBuffer_addEnd _ _)
    exact hend { p with calls := p.calls.eraseIdx i } hq
  | close fd =>
    have hdrop : ∀ {file : PipeFile}, (p.dropFile fd file).Live → p.Live :=
      fun h => h.of_same (sameBuffer_dropFile _)
    obtain ⟨file, -, -, ⟨-, -, ⟨-, -, rfl⟩ | ⟨sem, hsem, -, rfl⟩⟩ |
      ⟨-, -, ⟨-, -, rfl⟩ | ⟨sem, semHangup, hsem, -, rfl⟩⟩ | ⟨-, -, rfl⟩⟩ := pipeClose_cases hs
    · exact hdrop hq
    · have hterm : sem.terminated = false := hq.2
      rw [SemUnits.terminate_terminated hsem] at hterm
      cases hterm
    · exact hdrop hq
    · have hterm : sem.terminated = false := hq.1
      rw [SemUnits.terminate_terminated hsem] at hterm
      cases hterm
    · exact hdrop hq
  | read fd size =>
    obtain ⟨nonblock, -, -, rfl⟩ := pipeRead_cases hs
    exact hq
  | readWait i giveUp =>
    obtain ⟨fd, nonblock, size, n, units, -, hwait, ⟨-, -, rfl⟩ | ⟨-, -, rfl⟩⟩ := readWait_cases hs <;>
      exact ⟨(SemUnits.waitGen_terminated hwait).symm.trans hq.1, hq.2⟩
  | readCopy i =>
    obtain ⟨fd, count, sem, -, hsem, -, rfl⟩ := readCopy_cases hs
    exact ⟨hq.1, (SemUnits.signal_terminated hsem).symm.trans hq.2⟩
  | write fd buffer =>
    obtain ⟨-, rfl⟩ | ⟨nonblock, -, -, rfl⟩ := pipeWrite_cases hs <;> exact hq
  | writeWait i giveUp =>
    obtain ⟨fd, nonblock, buffer, out, n, units, -, hwait, ⟨-, -, rfl⟩ | ⟨-, -, rfl⟩⟩ :=
      writeWait_cases hs <;>
      exact ⟨hq.1, (SemUnits.waitGen_terminated hwait).symm.trans hq.2⟩
  | writeCheck i =>
    obtain ⟨fd, nonblock, buffer, out, count, -, ⟨-, -, rfl⟩ | ⟨-, -, rfl⟩⟩ := writeCheck_cases hs <;>
      exact hq
  | writeCopy i =>
    obtain ⟨fd, nonblock, buffer, out, count, sem, -, hsem, he⟩ := writeCopy_cases hs
    unfold writeNext at he
    split_ifs at he <;> cases he <;>
      exact ⟨(SemUnits.signal_terminated hsem).symm.trans hq.1, hq.2⟩

end Pipe

/-! ## Main result -/

/-- The bytes handed to readers are the first of those accepted from writers, and the units of both
semaphores and those that calls have taken add up to the size of the buffer, while both are live. -/
structure Pipe.Accounted (p : Pipe) : Prop where
  fifo : p.handed <+: p.accepted
  units : p.Live → p.semBufferRead.left + p.semBufferFree.left + tally PipeCall.taken p.calls =
    PIPE_BUFFER_SIZE

theorem Pipe.Buffered.accounted {p : Pipe} {queue : List UInt8}
    (h : p.Buffered queue p.Live p.Live) : p.Accounted where
  fifo := ⟨queue, h.order.symm⟩
  units hlive := by
    have havail := h.allAvail hlive
    have hroom := h.allRoom hlive
    have htaken : tally PipeCall.taken p.calls =
      tally PipeCall.readTaken p.calls + tally PipeCall.writeTaken p.calls := tally_add
    omega

theorem pipeInit_buffered {p : Pipe} (h : pipeSystem.init p) (e f : Prop) : p.Buffered [] e f := by
  have hring : Ring.Holds PIPE_BUFFER_SIZE (fun _ => (0 : UInt8)) 0 0 [] := .empty (by decide)
  have hread : SemUnits.Sound ⟨0, false⟩ := ⟨SemUnits.valid_of_nonneg (by decide), by decide⟩
  have hfree : SemUnits.Sound ⟨.ofNat PIPE_BUFFER_SIZE, false⟩ :=
    ⟨SemUnits.valid_of_nonneg (by decide), by decide⟩
  obtain rfl | rfl := h <;>
    exact ⟨hring, rfl, hread, hfree, le_rfl, by decide, fun _ => rfl, fun _ => by decide, nofun⟩

/-- If no call asks for a negative number of units, and no writer takes cells while there is no read
end, then the bytes and the units are accounted for. -/
theorem pipe_accounted {p : Pipe} (h : pipeSystem.ReachesBy Pipe.KeepsUnits p) : p.Accounted := by
  suffices hbuf : ∃ queue, p.Buffered queue p.Live p.Live by
    obtain ⟨queue, hbuf⟩ := hbuf
    exact hbuf.accounted
  refine h.invariant (I := fun p => ∃ queue, p.Buffered queue p.Live p.Live)
    (fun p hp => ⟨[], pipeInit_buffered hp _ _⟩) ?_
  rintro p op q ⟨queue, hbuf⟩ ⟨hasks, hheard⟩ ⟨r, hs⟩
  refine hbuf.step hasks (fun hlive => ⟨hlive.of_step hs, fun _ => (hlive.of_step hs).1⟩)
    (fun hlive => ⟨hlive.of_step hs, fun _ => (hlive.of_step hs).2, ?_⟩) hs
  rintro i rfl
  exact hheard (hlive.of_step hs)

/-- A byte is written and read. -/
theorem pipe_accounted_byte : ∃ p : Pipe, p.Accounted ∧ p.handed = [97] ∧ p.Live := by
  have hrun : (pipe2.exec Pipe.KeepsUnits (openBoth false ++ ([.write 1 [97], .writeWait 0 none,
      .writeCheck 0, .writeCopy 0, .read 0 8, .readWait 0 none, .readCopy 0] : List PipeOp))).any
        (fun p => p.handed = [97] ∧ p.Live) = true := by decide
  obtain ⟨p, hp, hend⟩ := (Option.any_eq_true ..).1 hrun
  exact ⟨p, pipe_accounted (Pipe.reachesBy_exec (.init (.inr rfl)) hp), of_decide_eq_true hend⟩

/-- A read of `2 ^ 32 - 2` bytes, which is -2 as an `int`, adds units to the semaphore, and the next
read is handed bytes that nobody wrote. -/
theorem negative_read : ∃ p, pipeSystem.Reachable p ∧ ¬ p.handed <+: p.accepted := by
  have hrun : (pipe2.exec (fun _ _ => True) (openBoth false ++ ([.write 1 [97], .writeWait 0 none,
      .writeCheck 0, .writeCopy 0, .read 0 4294967294, .readWait 0 none, .read 0 3,
      .readWait 0 none, .readCopy 0] : List PipeOp))).any
        (fun p => ¬ p.handed <+: p.accepted) = true := by decide
  obtain ⟨p, hp, hend⟩ := (Option.any_eq_true ..).1 hrun
  exact ⟨p, Pipe.reachesBy_exec (.init (.inr rfl)) hp, of_decide_eq_true hend⟩

/-- The read end of a nonblocking pipe is not counted, and a write loses its cells. -/
theorem cells_lost : ∃ p, pipeSystem.Reachable p ∧ p.Live ∧
    p.semBufferRead.left + p.semBufferFree.left + tally PipeCall.taken p.calls < PIPE_BUFFER_SIZE := by
  have hrun : (pipe2.exec (fun _ _ => True) (openBoth true ++
      ([.write 1 [97], .writeWait 0 none, .writeCheck 0] : List PipeOp))).any (fun p => p.Live ∧
        p.semBufferRead.left + p.semBufferFree.left + tally PipeCall.taken p.calls <
          PIPE_BUFFER_SIZE) = true := by decide
  obtain ⟨p, hp, hend⟩ := (Option.any_eq_true ..).1 hrun
  exact ⟨p, Pipe.reachesBy_exec (.init (.inr rfl)) hp, of_decide_eq_true hend⟩

end Glidix.Ipc
