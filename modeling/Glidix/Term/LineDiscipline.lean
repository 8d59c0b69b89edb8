import Mathlib.Data.List.Range
import Glidix.Lib.Tally
import Glidix.Term.Ptty

/-!
# The line discipline of a pseudo-terminal

A line editor that has no buffers says what each side is to read.  As long as no more than
`TERM_BUFFER_SIZE` bytes wait on a side, no line is longer than the line buffer, and no read that can
get bytes asks for a negative number of them, what was read and what waits to be read are what the
editor has produced (`transparent_of_run`).
-/

namespace Glidix.Term

open Glidix.Thread

/-! ## The line editor -/

/-- A line editor: the local modes, the line that is being typed, and what the two sides are to read. -/
structure Editor where
  lflag : UInt16
  line : List UInt8
  out : Side → List UInt8

/-- What a typed byte is, in the modes of an editor. -/
inductive Key where
  /-- A signal character, with the letter that stands for it. -/
  | interrupt (letter : UInt8)
  | erase
  | newline
  | text
  /-- Any byte of a terminal that is not canonical. -/
  | raw
  deriving DecidableEq

namespace Editor

/-- The editor of a new terminal. -/
def start : Editor where
  lflag := ECHO ||| ECHOE ||| ECHOK ||| ECHONL ||| ICANON ||| ISIG
  line := []
  out _ := []

variable (e : Editor)

def has (flag : UInt16) : Bool := e.lflag &&& flag != 0

def key (c : UInt8) : Key :=
  if e.has ISIG ∧ c = CC_VINTR then .interrupt 'C'.toUInt8
  else if e.has ISIG ∧ c = CC_VKILL then .interrupt 'K'.toUInt8
  else if ¬e.has ICANON then .raw
  else if c = BACKSPACE then .erase
  else if c = '\n'.toUInt8 ∨ c = '\r'.toUInt8 then .newline
  else .text

/-- The line after a byte. -/
def edit (c : UInt8) : List UInt8 :=
  match e.key c with
  | .interrupt _ | .newline => []
  | .erase => e.line.dropLast
  | .text => e.line ++ [c]
  | .raw => e.line

def echoed (flag : UInt16) (l : List UInt8) : List UInt8 := if e.has flag then l else []

/-- What a byte sends to a side: input for the slave, and the echo for the master. -/
def emit (c : UInt8) : Side → List UInt8
  | .slave => match e.key c with
    | .newline => e.line ++ ['\n'.toUInt8]
    | .raw => [c]
    | .interrupt _ | .erase | .text => []
  | .master => match e.key c with
    | .interrupt letter => e.echoed ECHO ['^'.toUInt8, letter]
    | .erase => if e.line = [] then [] else e.echoed ECHO [BACKSPACE]
    | .newline => e.echoed ECHONL ['\n'.toUInt8]
    | .text => e.echoed ECHO [c]
    | .raw => e.echoed (if c = '\n'.toUInt8 then ECHONL else ECHO) [c]

def step : TermEvent → Editor
  | .typed c => { e with line := e.edit c, out := fun side => e.out side ++ e.emit c side }
  | .printed l => { e with out := Function.update e.out .master (e.out .master ++ l) }
  | .modes lflag => { e with lflag }

example : ((start.step (.typed 'a'.toUInt8)).step (.modes ECHO)).out .master = ['a'.toUInt8] := by
  simp [step, emit, start, key, has, echoed]
  rfl

theorem out_step (e : Editor) (event : TermEvent) (side : Side) :
    e.out side <+: (e.step event).out side := by
  cases event with
  | typed c => exact List.prefix_append _ _
  | printed l =>
    cases side with
    | master => simp [step]
    | slave => simp [step]
  | modes lflag => exact List.prefix_rfl

/-- What an editor has produced stays. -/
theorem out_grows (e : Editor) (events : List TermEvent) (side : Side) :
    e.out side <+: (events.foldl step e).out side := by
  induction events generalizing e with
  | nil => exact List.prefix_rfl
  | cons event events ih => exact (e.out_step event side).trans (ih _)

/-- No character is typed behind a line that fills the line buffer. -/
def LinesFit : Editor → List UInt8 → Prop
  | _, [] => True
  | e, c :: l => (e.key c = .text → e.line.length < TERM_BUFFER_SIZE - 1) ∧ (e.step (.typed c)).LinesFit l

instance decidableLinesFit : (e : Editor) → (l : List UInt8) → Decidable (e.LinesFit l)
  | _, [] => inferInstanceAs (Decidable True)
  | e, c :: l =>
    have := decidableLinesFit (e.step (.typed c)) l
    inferInstanceAs (Decidable (_ ∧ _))

end Editor

/-- The bytes that a read is about to take. -/
def TermRead.taken : TermRead → ℕ
  | .wait _ _ => 0
  | .copy count => count

/-- A read that may get bytes asks for a number that is not below -1 as an `int`. -/
def TermRead.AsksFit (b : TermBuffer) : TermRead → Prop
  | .wait _ size => b.counter.left ≠ 0 → -1 ≤ (Int32.ofNat size).toInt
  | .copy _ => True

instance (b : TermBuffer) : DecidablePred (TermRead.AsksFit b)
  | .wait .. => inferInstanceAs (Decidable (_ → _))
  | .copy _ => inferInstanceAs (Decidable True)

namespace Ptty

variable (p : Ptty)

/-- The editor after what has been done to the terminal. -/
def editor : Editor := p.events.foldl Editor.step .start

/-- The bytes whose signals the write that holds the lock has still to give. -/
def unsignalled (side : Side) : ℕ :=
  match p.writing with
  | none => 0
  | some w => tally (fun s => if s.1 = side then s.2 else 0) w.signals

/-- The number of bytes that wait to be read on a side. -/
def waiting (side : Side) : ℕ :=
  (p.buf side).counter.left + tally TermRead.taken (p.buf side).reads + p.unsignalled side

/-- On both sides, what was read and what waits to be read are what the editor has produced. -/
def Transparent : Prop := ∀ side, (p.buf side).got ++
  (Ring.get TERM_BUFFER_SIZE (p.buf side).buffer (p.buf side).fetch (p.waiting side)).1 =
    p.editor.out side

/-- An editor is not ahead of the reads by more than the buffers hold. -/
def HasRoom (e : Editor) : Prop :=
  ∀ side, (e.out side).length ≤ (p.buf side).got.length + TERM_BUFFER_SIZE

instance (e : Editor) : Decidable (p.HasRoom e) := inferInstanceAs (Decidable (∀ _, _))

/-- What a step must do for the terminal to be transparent. -/
def Fits : PttyOp → Prop
  | .ptsWrite buffer => p.HasRoom (p.editor.step (.printed buffer))
  | .ptmWrite buffer => p.sid ≠ 0 → p.editor.LinesFit buffer ∧
    p.HasRoom ((buffer.map .typed).foldl Editor.step p.editor)
  | .readWait side i _ => ∀ c ∈ (p.buf side).reads[i]?, c.AsksFit (p.buf side)
  | _ => True

instance : DecidablePred p.Fits
  | .ptsWrite _ => inferInstanceAs (Decidable (p.HasRoom _))
  | .ptmWrite _ => inferInstanceAs (Decidable (_ → _))
  | .readWait side i _ => inferInstanceAs (Decidable (∀ c ∈ (p.buf side).reads[i]?, _))
  | .ptsOpen .. | .getAttr | .setAttr _ | .getPgid | .setPgid .. | .goOn | .read .. | .readCopy .. =>
    inferInstanceAs (Decidable True)

end Ptty

/-! ## One side -/

namespace TermBuffer

variable {b b' : TermBuffer} {queue : List UInt8} {n i : ℕ} {r : TermResult} {giveUp : Option GiveUp}

/-- The ring holds the queue, whose bytes are counted, taken by reads, or among the `n` that are not
signalled yet. -/
structure Queues (b : TermBuffer) (queue : List UInt8) (n : ℕ) : Prop where
  ring : Ring.Holds TERM_BUFFER_SIZE b.buffer b.fetch b.put queue
  sound : b.counter.Sound
  live : b.counter.terminated = false
  count : b.counter.left + tally TermRead.taken b.reads + n = queue.length
  fits : queue.length ≤ TERM_BUFFER_SIZE

theorem Queues.putChar (h : b.Queues queue n) (hroom : queue.length < TERM_BUFFER_SIZE) (c : UInt8) :
    (b.putChar c).Queues (queue ++ [c]) (n + 1) where
  ring := h.ring.put_one hroom c
  sound := h.sound
  live := h.live
  count := by
    have hcount := h.count
    rw [List.length_append, List.length_singleton]
    exact congrArg (· + 1) hcount
  fits := by
    rw [List.length_append, List.length_singleton]
    exact hroom

theorem Queues.signal {m : ℕ} {counter : SemUnits} (h : b.Queues queue (m + n))
    (hs : b.counter.signal (.ofNat m) = some counter) : ({ b with counter } : TermBuffer).Queues queue n := by
  have hcount := h.count
  have hfits := h.fits
  have hmax : TERM_BUFFER_SIZE < 2 ^ 31 := by decide
  have hint : (Int32.ofNat m).toInt = m := Int32.toInt_ofNat_of_lt (by omega)
  obtain ⟨hsound, hterm, hleft⟩ := h.sound.signal (by omega) (by omega) hs
  rw [if_neg (by simp [h.live])] at hleft
  refine ⟨h.ring, hsound, hterm.trans h.live, ?_, hfits⟩
  simp only
  omega

theorem Queues.read (h : b.Queues queue n) (nonblock : Bool) (size : ℕ) :
    ({ b with reads := .wait nonblock size :: b.reads } : TermBuffer).Queues queue n where
  ring := h.ring
  sound := h.sound
  live := h.live
  count := by
    have hcount := h.count
    simp only [tally_cons, TermRead.taken]
    omega
  fits := h.fits

theorem toNat_eq_zero {m : Int32} (h : m < 0 ∨ m = 0) : m.toInt.toNat = 0 := by
  obtain h | rfl := h
  · have := Int32.lt_iff_toInt_lt.1 h
    rw [Int32.toInt_zero] at this
    omega
  · rfl

theorem Queues.readWait (h : b.Queues queue n) (hasks : ∀ c ∈ b.reads[i]?, c.AsksFit b)
    (hs : b.readWait i giveUp = some (r, b')) : b'.Queues queue n ∧ b'.got = b.got := by
  have hcount := h.count
  unfold TermBuffer.readWait at hs
  split at hs
  · next nonblock size hcall =>
    obtain ⟨-, hs⟩ := Option.ite_none_left_eq_some.1 hs
    obtain ⟨⟨m, counter⟩, hwait, he⟩ := Option.map_eq_some_iff.1 hs
    obtain ⟨hsound, hsum, hterm, -⟩ := h.sound.waitGen (hasks _ hcall) hwait
    have herase := tally_eraseIdx (p := TermRead.taken) hcall
    have hset := tally_set (p := TermRead.taken) (x := .copy m.toInt.toNat) hcall
    simp only [TermRead.taken] at herase hset
    dsimp only at he
    split_ifs at he with hneg hzero
    · cases he
      have := toNat_eq_zero (.inl hneg)
      exact ⟨⟨h.ring, hsound, hterm.trans h.live, by simp only; omega, h.fits⟩, rfl⟩
    · cases he
      have := toNat_eq_zero (.inr hzero)
      exact ⟨⟨h.ring, hsound, hterm.trans h.live, by simp only; omega, h.fits⟩, rfl⟩
    · cases he
      exact ⟨⟨h.ring, hsound, hterm.trans h.live, by simp only; omega, h.fits⟩, rfl⟩
  · cases hs

/-- A read returns bytes from the front of the queue. -/
theorem Queues.readCopy (h : b.Queues queue n) (hs : b.readCopy i = some (r, b')) :
    ∃ l rest, queue = l ++ rest ∧ b'.got = b.got ++ l ∧ b'.Queues rest n := by
  have hcount := h.count
  have hfits := h.fits
  unfold TermBuffer.readCopy at hs
  split at hs
  · next count hcall =>
    cases hs
    have herase := tally_eraseIdx (p := TermRead.taken) hcall
    simp only [TermRead.taken] at herase
    have hle : count ≤ queue.length := by omega
    obtain ⟨htake, hring⟩ := h.ring.get hle
    refine ⟨queue.take count, queue.drop count, (List.take_append_drop ..).symm, ?_, hring, h.sound,
      h.live, ?_, ?_⟩
    · rw [htake]
    · simp only [List.length_drop]
      omega
    · rw [List.length_drop]
      omega
  · cases hs

end TermBuffer

/-! ## Both sides -/

/-- What was read and what is queued are the given bytes, on both sides. -/
def Queued (buf : Side → TermBuffer) (n : Side → ℕ) (out : Side → List UInt8) : Prop :=
  ∀ side, ∃ queue, (buf side).Queues queue (n side) ∧ (buf side).got ++ queue = out side

section Queued

variable {buf : Side → TermBuffer} {n : Side → ℕ} {out : Side → List UInt8} {d : Side}

/-- One side changes. -/
theorem Queued.update {b : TermBuffer} {m : ℕ} {l queue : List UInt8} (h : Queued buf n out)
    (hb : b.Queues queue m) (hl : b.got ++ queue = l) :
    Queued (Function.update buf d b) (Function.update n d m) (Function.update out d l) := by
  intro s
  by_cases hs : s = d
  · subst hs
    simp only [Function.update_self]
    exact ⟨queue, hb, hl⟩
  · simp only [Function.update_of_ne hs]
    exact h s

theorem Queued.putChar {c : UInt8} (h : Queued buf n out)
    (hroom : (out d).length < (buf d).got.length + TERM_BUFFER_SIZE) :
    Queued (Function.update buf d ((buf d).putChar c)) (Function.update n d (n d + 1))
      (Function.update out d (out d ++ [c])) := by
  obtain ⟨queue, hqueue, hout⟩ := h d
  have hlen : queue.length < TERM_BUFFER_SIZE := by
    rw [← hout, List.length_append] at hroom
    omega
  refine h.update (hqueue.putChar hlen c) ?_
  rw [← hout, List.append_assoc]
  rfl

end Queued

/-! ## Typing -/

namespace PtmLoop

variable {w : PtmLoop} {e e' : Editor} {d : Side} {c : UInt8} {l : List UInt8} {f : UInt16}

/-- What the reads on a side have returned so far. -/
def got (w : PtmLoop) (d : Side) : List UInt8 := (w.ptty.buf d).got

@[simp] theorem got_put : (w.put d c).got = w.got := by
  funext s
  by_cases hs : s = d
  · subst hs
    simp only [got, put, Function.update_self]
    rfl
  · simp only [got, put, Function.update_of_ne hs]

@[simp] theorem got_puts : (l.foldl (put · d) w).got = w.got := by
  induction l generalizing w with
  | nil => rfl
  | cons c l ih => rw [List.foldl_cons, ih, got_put]

@[simp] theorem got_echo : (w.echo f c).got = w.got := by
  unfold echo
  split_ifs
  · exact got_put
  · rfl

/-- The loop has done what the editor has. -/
structure Follows (w : PtmLoop) (e : Editor) : Prop where
  lflag : e.lflag = w.ptty.state.c_lflag
  line : (List.range w.ptty.lineSize).map w.ptty.lineBuffer = e.line
  queued : Queued w.ptty.buf w.numPut e.out

theorem Follows.has (h : w.Follows e) (f : UInt16) : w.has f = e.has f := by
  rw [PtmLoop.has, Editor.has, h.lflag]

theorem Follows.lineSize (h : w.Follows e) : w.ptty.lineSize = e.line.length := by
  rw [← h.line, List.length_map, List.length_range]

theorem Follows.congr (h : w.Follows e) (hlflag : e'.lflag = e.lflag) (hline : e'.line = e.line)
    (hout : ∀ d, e'.out d = e.out d) : w.Follows e' where
  lflag := hlflag.trans h.lflag
  line := h.line.trans hline.symm
  queued := (funext hout : e'.out = e.out) ▸ h.queued

theorem Follows.put (h : w.Follows e) (hroom : (e.out d).length < (w.got d).length + TERM_BUFFER_SIZE) :
    (w.put d c).Follows { e with out := Function.update e.out d (e.out d ++ [c]) } where
  lflag := h.lflag
  line := h.line
  queued := h.queued.putChar hroom

theorem Follows.puts (h : w.Follows e)
    (hroom : (e.out d ++ l).length ≤ (w.got d).length + TERM_BUFFER_SIZE) :
    (l.foldl (PtmLoop.put · d) w).Follows
      { e with out := Function.update e.out d (e.out d ++ l) } := by
  induction l generalizing w e with
  | nil => exact h.congr rfl rfl fun s => by rw [List.append_nil, Function.update_eq_self]
  | cons c l ih =>
    rw [List.length_append, List.length_cons] at hroom
    have hnext := h.put (c := c) (d := d) (by omega)
    have hrest := ih hnext (by
      simp only [got_put, Function.update_self, List.length_append, List.length_singleton]
      omega)
    exact hrest.congr rfl rfl fun s => by
      simp only [Function.update_self, Function.update_idem, List.append_assoc, List.singleton_append]

theorem Follows.setLineSize (h : w.Follows e) {n : ℕ} (hn : n ≤ w.ptty.lineSize) :
    (w.setLineSize n).Follows { e with line := e.line.take n } where
  lflag := h.lflag
  line := by
    rw [← h.line, ← List.map_take, List.take_range, Nat.min_eq_left hn]
    rfl
  queued := h.queued

theorem Follows.lineChar (h : w.Follows e) : (w.lineChar c).Follows { e with line := e.line ++ [c] } where
  lflag := h.lflag
  line := by
    have hold : ∀ i ∈ List.range w.ptty.lineSize,
        Function.update w.ptty.lineBuffer w.ptty.lineSize c i = w.ptty.lineBuffer i := fun i hi =>
      Function.update_of_ne (List.mem_range.1 hi).ne _ _
    show (List.range (w.ptty.lineSize + 1)).map (Function.update w.ptty.lineBuffer w.ptty.lineSize c) = _
    rw [List.range_succ, List.map_append, List.map_congr_left hold, h.line, List.map_singleton,
      Function.update_self]
  queued := h.queued

theorem Follows.flushLine (h : w.Follows e)
    (hroom : (e.out .slave ++ e.line).length ≤ (w.got .slave).length + TERM_BUFFER_SIZE) :
    w.flushLine.Follows
      { e with line := [], out := Function.update e.out .slave (e.out .slave ++ e.line) } := by
  unfold PtmLoop.flushLine
  rw [h.line]
  exact ((h.puts hroom).setLineSize (Nat.zero_le _)).congr rfl rfl fun _ => rfl

theorem Follows.interrupt (h : w.Follows e) (signo : ℤ) :
    (w.interrupt signo).Follows { e with line := [] } where
  lflag := h.lflag
  line := rfl
  queued := h.queued

theorem Follows.echo (h : w.Follows e)
    (hroom : (e.out .master ++ e.echoed f [c]).length ≤ (w.got .master).length + TERM_BUFFER_SIZE) :
    (w.echo f c).Follows
      { e with out := Function.update e.out .master (e.out .master ++ e.echoed f [c]) } := by
  unfold PtmLoop.echo
  rw [h.has, Editor.echoed] at *
  split_ifs at hroom ⊢
  · rw [List.length_append, List.length_singleton] at hroom
    exact h.put (by omega)
  · exact h.congr rfl rfl fun s => by rw [List.append_nil, Function.update_eq_self]

/-- A byte is a signal character for the loop and the editor alike. -/
theorem signal_cases (e : Editor) (c : UInt8) :
    (∃ signo letter, (if e.has ISIG then sigChar c else none) = some (signo, letter) ∧
      e.key c = .interrupt letter) ∨
    (if e.has ISIG then sigChar c else none) = none ∧
      e.key c = if ¬e.has ICANON then .raw else if c = BACKSPACE then .erase
        else if c = '\n'.toUInt8 ∨ c = '\r'.toUInt8 then .newline else .text := by
  unfold Editor.key sigChar
  by_cases hsig : e.has ISIG = true
  · by_cases hintr : c = CC_VINTR
    · rw [if_pos hsig, if_pos hintr, if_pos ⟨hsig, hintr⟩]
      exact .inl ⟨_, _, rfl, rfl⟩
    · by_cases hkill : c = CC_VKILL
      · rw [if_pos hsig, if_neg hintr, if_pos hkill, if_neg fun hc => hintr hc.2, if_pos ⟨hsig, hkill⟩]
        exact .inl ⟨_, _, rfl, rfl⟩
      · rw [if_pos hsig, if_neg hintr, if_neg hkill, if_neg fun hc => hintr hc.2,
          if_neg fun hc => hkill hc.2]
        exact .inr ⟨rfl, rfl⟩
  · rw [if_neg hsig, if_neg fun hc => hsig hc.1, if_neg fun hc => hsig hc.1]
    exact .inr ⟨rfl, rfl⟩

section Char

variable (h : w.Follows e)
  (hroom : ∀ d, (e.out d ++ e.emit c d).length ≤ (w.got d).length + TERM_BUFFER_SIZE)

include h hroom

theorem Follows.interruptChar {signo : ℤ} {letter : UInt8} (hkey : e.key c = .interrupt letter) :
    (((w.interrupt signo).echo ECHO '^'.toUInt8).echo ECHO letter).Follows (e.step (.typed c)) := by
  have hmaster := hroom .master
  have hsplit : e.echoed ECHO ['^'.toUInt8, letter] =
      e.echoed ECHO ['^'.toUInt8] ++ e.echoed ECHO [letter] := by
    unfold Editor.echoed
    split_ifs <;> rfl
  simp only [Editor.emit, hkey, hsplit, ← List.append_assoc] at hmaster
  have hfirst := (h.interrupt signo).echo (f := ECHO) (c := '^'.toUInt8) (by
    rw [List.length_append] at hmaster
    exact Nat.le_of_add_right_le hmaster)
  have hsecond := hfirst.echo (f := ECHO) (c := letter) (by
    simp only [Function.update_self, got_echo]
    exact hmaster)
  refine hsecond.congr rfl ?_ fun d => ?_
  · simp only [Editor.step, Editor.edit, hkey]
  · cases d with
    | master =>
      simp only [Editor.step, Editor.emit, hkey, hsplit, Function.update_self, ← List.append_assoc]
      rfl
    | slave => simp [Editor.step, Editor.emit, hkey]

theorem Follows.eraseChar (hkey : e.key c = .erase) :
    (if w.ptty.lineSize ≠ 0 then (w.setLineSize (w.ptty.lineSize - 1)).echo ECHO BACKSPACE
      else w).Follows (e.step (.typed c)) := by
  have hmaster := hroom .master
  simp only [Editor.emit, hkey] at hmaster
  by_cases hline : e.line = []
  · rw [if_neg (not_not.2 (h.lineSize.trans (List.length_eq_zero_iff.2 hline)))]
    refine h.congr rfl ?_ fun d => ?_
    · simp only [Editor.step, Editor.edit, hkey, hline, List.dropLast_nil]
    · cases d <;> simp [Editor.step, Editor.emit, hkey, hline]
  · rw [if_neg hline] at hmaster
    rw [if_pos fun hc => hline (List.length_eq_zero_iff.1 (h.lineSize.symm.trans hc))]
    have hset := (h.setLineSize (Nat.sub_le _ 1)).echo (f := ECHO) (c := BACKSPACE) hmaster
    refine hset.congr rfl ?_ fun d => ?_
    · simp only [Editor.step, Editor.edit, hkey, h.lineSize, List.dropLast_eq_take]
    · cases d with
      | master =>
        simp only [Editor.step, Editor.emit, hkey, if_neg hline, Function.update_self]
        rfl
      | slave => simp [Editor.step, Editor.emit, hkey]

theorem Follows.newlineChar (hkey : e.key c = .newline) :
    (((w.lineChar '\n'.toUInt8).flushLine).echo ECHONL '\n'.toUInt8).Follows (e.step (.typed c)) := by
  have hmaster := hroom .master
  have hslave := hroom .slave
  simp only [Editor.emit, hkey] at hmaster hslave
  have hline := (h.lineChar (c := '\n'.toUInt8)).flushLine hslave
  have hgot : ((w.lineChar '\n'.toUInt8).flushLine).got = w.got := got_puts
  have hecho := hline.echo (f := ECHONL) (c := '\n'.toUInt8) (by
    rw [hgot]
    exact hmaster)
  refine hecho.congr rfl ?_ fun d => ?_
  · simp only [Editor.step, Editor.edit, hkey]
  · cases d with
    | master =>
      simp [Editor.step, Editor.emit, hkey]
      rfl
    | slave => simp [Editor.step, Editor.emit, hkey]

theorem Follows.textChar (hkey : e.key c = .text) (hfit : e.line.length < TERM_BUFFER_SIZE - 1) :
    ((if w.ptty.lineSize < TERM_BUFFER_SIZE - 1 then w.lineChar c else w).echo ECHO c).Follows
      (e.step (.typed c)) := by
  have hmaster := hroom .master
  simp only [Editor.emit, hkey] at hmaster
  rw [if_pos (h.lineSize.trans_lt hfit)]
  refine ((h.lineChar (c := c)).echo hmaster).congr rfl ?_ fun d => ?_
  · simp only [Editor.step, Editor.edit, hkey]
  · cases d with
    | master =>
      simp only [Editor.step, Editor.emit, hkey, Function.update_self]
      rfl
    | slave => simp [Editor.step, Editor.emit, hkey]

theorem Follows.rawChar (hkey : e.key c = .raw) :
    ((w.put .slave c).echo (if c = '\n'.toUInt8 then ECHONL else ECHO) c).Follows
      (e.step (.typed c)) := by
  have hmaster := hroom .master
  have hslave := hroom .slave
  simp only [Editor.emit, hkey] at hmaster hslave
  rw [List.length_append, List.length_singleton] at hslave
  have hput := h.put (c := c) (d := .slave) (by omega)
  have hecho := hput.echo (f := if c = '\n'.toUInt8 then ECHONL else ECHO) (c := c) (by
    rw [got_put]
    exact hmaster)
  refine hecho.congr rfl ?_ fun d => ?_
  · simp only [Editor.step, Editor.edit, hkey]
  · cases d with
    | master =>
      simp [Editor.step, Editor.emit, hkey]
      rfl
    | slave => simp [Editor.step, Editor.emit, hkey]

/-- The loop body does what the editor does. -/
theorem Follows.char (hfit : e.key c = .text → e.line.length < TERM_BUFFER_SIZE - 1) :
    (w.char c).Follows (e.step (.typed c)) := by
  unfold PtmLoop.char
  rw [h.has, h.has]
  obtain ⟨signo, letter, hsig, hkey⟩ | ⟨hsig, hkey⟩ := signal_cases e c
  · rw [hsig]
    exact h.interruptChar hroom hkey
  · rw [hsig]
    by_cases hraw : e.has ICANON = true
    · rw [if_neg (not_not.2 hraw)] at hkey
      refine (if_pos hraw).symm ▸ ?_
      by_cases herase : c = BACKSPACE
      · rw [if_pos herase] at hkey ⊢
        exact h.eraseChar hroom hkey
      · rw [if_neg herase] at hkey ⊢
        by_cases hnewline : c = '\n'.toUInt8 ∨ c = '\r'.toUInt8
        · rw [if_pos hnewline] at hkey ⊢
          exact h.newlineChar hroom hkey
        · rw [if_neg hnewline] at hkey ⊢
          exact h.textChar hroom hkey (hfit hkey)
    · rw [if_pos hraw] at hkey
      refine (if_neg hraw).symm ▸ ?_
      exact h.rawChar hroom hkey

end Char

theorem got_char : (w.char c).got = w.got := by
  have hflush : ∀ w : PtmLoop, w.flushLine.got = w.got := fun w => got_puts
  unfold PtmLoop.char
  split
  · rw [got_echo, got_echo]
    rfl
  · split_ifs
    · exact got_echo
    · rfl
    · rw [got_echo, hflush]
      rfl
    · exact got_echo
    · exact got_echo
    · rw [got_echo, got_put]
    · rw [got_echo, got_put]

theorem Follows.chars (h : w.Follows e) (hfit : e.LinesFit l)
    (hroom : ∀ d, ((l.map .typed).foldl Editor.step e |>.out d).length ≤
      (w.got d).length + TERM_BUFFER_SIZE) :
    (l.foldl PtmLoop.char w).Follows ((l.map .typed).foldl Editor.step e) ∧
      (l.foldl PtmLoop.char w).got = w.got := by
  induction l generalizing w e with
  | nil => exact ⟨h, rfl⟩
  | cons c l ih =>
    have hnext := h.char (c := c)
      (fun d => (((e.step (.typed c)).out_grows _ d).length_le).trans (hroom d)) hfit.1
    obtain ⟨hrest, hgot⟩ := ih hnext hfit.2 fun d => by
      rw [got_char]
      exact hroom d
    exact ⟨hrest, hgot.trans got_char⟩

theorem puts_eq : l.foldl (put · d) w =
    ⟨{ w.ptty with
        buf := Function.update w.ptty.buf d (l.foldl TermBuffer.putChar (w.ptty.buf d)) },
      Function.update w.numPut d (w.numPut d + l.length)⟩ := by
  induction l generalizing w with
  | nil => simp
  | cons c l ih =>
    rw [List.foldl_cons, ih]
    simp [put, Function.update_idem, Nat.add_assoc, Nat.add_comm 1]

end PtmLoop

/-! ## Steps and runs -/

namespace Ptty

variable {p q : Ptty} {r : TermResult}

/-- The terminal has done what its editor has. -/
def Follows (p : Ptty) : Prop := PtmLoop.Follows ⟨p, p.unsignalled⟩ p.editor

theorem editor_append {events : List TermEvent} (h : q.events = p.events ++ events) :
    q.editor = events.foldl Editor.step p.editor := by
  rw [editor, h, List.foldl_append, ← editor]

theorem not_isSome {α : Type} {o : Option α} (h : ¬o.isSome = true) : o = none := by
  rwa [Option.isSome_iff_ne_none, not_not] at h

/-- Nothing is left to be signalled when the lock is free. -/
theorem unsignalled_free (h : p.writing = none) : p.unsignalled = fun _ => 0 := by
  funext side
  rw [unsignalled, h]

/-- A terminal as the loop of `ptm_write` leaves it. -/
theorem Follows.of_loop {w : PtmLoop} {e : Editor} (h : w.Follows e) (hbuf : q.buf = w.ptty.buf)
    (hstate : q.state = w.ptty.state) (hline : q.lineBuffer = w.ptty.lineBuffer)
    (hsize : q.lineSize = w.ptty.lineSize) (hn : q.unsignalled = w.numPut) (he : q.editor = e) :
    q.Follows := by
  refine ⟨?_, ?_, ?_⟩
  · rw [he, h.lflag, ← hstate]
  · rw [he, ← h.line, ← hline, ← hsize]
  · rw [he, hbuf, hn]
    exact h.queued

theorem Follows.ptsWrite {buffer : List UInt8} (h : p.Follows) (hfits : p.Fits (.ptsWrite buffer))
    (hs : p.ptsWrite buffer = some (r, q)) : q.Follows := by
  unfold Ptty.ptsWrite at hs
  obtain ⟨hfree, hs⟩ := Option.ite_none_left_eq_some.1 hs
  have hzero := unsignalled_free (not_isSome hfree)
  cases hs
  have hroom := hfits .master
  rw [Editor.step] at hroom
  simp only [Function.update_self] at hroom
  have hputs := PtmLoop.Follows.puts (d := .master) (l := buffer) h hroom
  rw [PtmLoop.puts_eq, hzero] at hputs
  have heditor := editor_append (p := p) (q := { p with events := p.events ++ [.printed buffer] }) rfl
  refine .of_loop hputs rfl rfl rfl rfl (funext fun side => ?_) heditor
  cases side <;> simp [unsignalled]

theorem Follows.ptmWrite {buffer : List UInt8} (h : p.Follows) (hfits : p.Fits (.ptmWrite buffer))
    (hs : p.ptmWrite buffer = some (r, q)) : q.Follows := by
  unfold Ptty.ptmWrite at hs
  obtain ⟨hfree, hs⟩ := Option.ite_none_left_eq_some.1 hs
  have hzero := unsignalled_free (not_isSome hfree)
  split_ifs at hs with hsid
  · cases hs
    exact h
  · cases hs
    have hloop : PtmLoop.Follows ⟨p, fun _ => 0⟩ p.editor := hzero ▸ h
    obtain ⟨hlines, hroom⟩ := hfits hsid
    obtain ⟨hchars, -⟩ := hloop.chars hlines hroom
    refine .of_loop hchars rfl rfl rfl rfl (funext fun side => ?_) (editor_append rfl)
    cases side <;> simp [unsignalled]

theorem Follows.goOn (h : p.Follows) (hs : p.goOn = some (r, q)) : q.Follows := by
  unfold Ptty.goOn at hs
  split at hs
  · cases hs
  · next out hwriting =>
    cases hs
    refine .of_loop h rfl rfl rfl rfl (funext fun side => ?_) rfl
    simp [unsignalled, hwriting]
  · next side n signals out hwriting =>
    obtain ⟨counter, hsignal, he⟩ := Option.map_eq_some_iff.1 hs
    cases he
    have hleft : p.unsignalled side =
        n + tally (fun s : Side × ℕ => if s.1 = side then s.2 else 0) signals := by
      simp [unsignalled, hwriting]
    obtain ⟨queue, hqueue, hout⟩ := h.queued side
    dsimp only at hqueue
    rw [hleft] at hqueue
    have hnext := h.queued.update (d := side) (hqueue.signal hsignal) hout
    refine ⟨h.lflag, h.line, ?_⟩
    have hn : Function.update p.unsignalled side
        (tally (fun s : Side × ℕ => if s.1 = side then s.2 else 0) signals) =
          unsignalled { p with writing := some ⟨signals, out⟩ } := by
      funext s
      by_cases hside : s = side
      · subst hside
        rw [Function.update_self]
        rfl
      · rw [Function.update_of_ne hside]
        simp [unsignalled, hwriting, Ne.symm hside]
    rw [Function.update_eq_self] at hnext
    exact hn ▸ hnext

/-- One side changes, and the number of bytes to be signalled does not. -/
theorem Follows.setBuf {side : Side} {b : TermBuffer} {queue : List UInt8} (h : p.Follows)
    (hb : b.Queues queue (p.unsignalled side)) (hgot : b.got ++ queue = p.editor.out side) :
    ({ p with buf := Function.update p.buf side b } : Ptty).Follows := by
  have hnext := h.queued.update (d := side) hb hgot
  rw [Function.update_eq_self, Function.update_eq_self] at hnext
  exact ⟨h.lflag, h.line, hnext⟩

theorem Follows.readWait {side : Side} {i : ℕ} {giveUp : Option GiveUp} (h : p.Follows)
    (hfits : p.Fits (.readWait side i giveUp)) (hs : p.readWait side i giveUp = some (r, q)) :
    q.Follows := by
  obtain ⟨⟨r', b⟩, hwait, he⟩ := Option.map_eq_some_iff.1 hs
  cases he
  obtain ⟨queue, hqueue, hout⟩ := h.queued side
  obtain ⟨hb, hgot⟩ := hqueue.readWait hfits hwait
  exact h.setBuf hb (hgot ▸ hout)

theorem Follows.readCopy {side : Side} {i : ℕ} (h : p.Follows)
    (hs : p.readCopy side i = some (r, q)) : q.Follows := by
  obtain ⟨-, hs⟩ := Option.ite_none_left_eq_some.1 hs
  obtain ⟨⟨r', b⟩, hcopy, he⟩ := Option.map_eq_some_iff.1 hs
  cases he
  obtain ⟨queue, hqueue, hout⟩ := h.queued side
  obtain ⟨l, rest, rfl, hgot, hb⟩ := hqueue.readCopy hcopy
  refine h.setBuf hb ?_
  rw [hgot, List.append_assoc]
  exact hout

theorem Follows.step {op : PttyOp} (h : p.Follows) (hfits : p.Fits op)
    (hs : p.step op = some (r, q)) : q.Follows := by
  cases op with
  | ptsOpen noctty sid pgid =>
    simp only [Ptty.step, ptsOpen] at hs
    split_ifs at hs <;> cases hs
    · exact h
    · exact h
    · exact ⟨h.lflag, h.line, h.queued⟩
  | getAttr =>
    obtain ⟨-, hs⟩ := Option.ite_none_left_eq_some.1 hs
    cases hs
    exact h
  | setAttr tc =>
    obtain ⟨-, hs⟩ := Option.ite_none_left_eq_some.1 hs
    cases hs
    have heditor := editor_append (p := p) (q := { p with events := p.events ++ [.modes tc.c_lflag] }) rfl
    refine ⟨?_, ?_, ?_⟩
    · exact congrArg Editor.lflag heditor
    · exact h.line.trans (congrArg Editor.line heditor).symm
    · exact (congrArg Editor.out heditor) ▸ h.queued
  | getPgid =>
    obtain ⟨-, hs⟩ := Option.ite_none_left_eq_some.1 hs
    cases hs
    exact h
  | setPgid sid pgid target =>
    simp only [Ptty.step, setPgid] at hs
    split_ifs at hs <;> cases hs
    · exact h
    · exact ⟨h.lflag, h.line, h.queued⟩
    · exact h
  | ptsWrite buffer => exact h.ptsWrite hfits hs
  | ptmWrite buffer => exact h.ptmWrite hfits hs
  | goOn => exact h.goOn hs
  | read side nonblock size =>
    cases hs
    obtain ⟨queue, hqueue, hout⟩ := h.queued side
    exact h.setBuf (hqueue.read nonblock size) hout
  | readWait side i giveUp => exact h.readWait hfits hs
  | readCopy side i => exact h.readCopy hs

theorem Follows.transparent (h : p.Follows) : p.Transparent := by
  intro side
  obtain ⟨queue, hqueue, hout⟩ := h.queued side
  have hcount : p.waiting side = queue.length := hqueue.count
  rw [hcount, (hqueue.ring.get le_rfl).1, List.take_length]
  exact hout

end Ptty

theorem follows_of_init {p : Ptty} (h : ptty.init p) : p.Follows := by
  obtain ⟨buffer, lineBuffer, rfl⟩ := h
  have hring : (0 : ℕ) < TERM_BUFFER_SIZE := by decide
  have hsound : SemUnits.Sound ⟨0, false⟩ := ⟨SemUnits.valid_of_nonneg (by decide), by decide⟩
  exact ⟨rfl, rfl, fun side => ⟨[], ⟨.empty hring, hsound, rfl, rfl, Nat.zero_le _⟩, rfl⟩⟩

/-- If the bytes that wait fit into the buffers, the lines into the line buffer, and no read that may get
bytes asks for a negative number of them, then both sides read what the editor produces. -/
theorem transparent_of_run {p : Ptty} (h : ptty.ReachesBy Ptty.Fits p) : p.Transparent := by
  suffices hfollows : p.Follows from hfollows.transparent
  exact h.invariant (fun p => follows_of_init) fun p op q hp hfits ⟨r, hs⟩ => hp.step hfits hs

/-- A line with a mistake is typed, and both sides read. -/
theorem transparent_of_line : ∃ p : Ptty, (p.buf .slave).got = [98, 10] ∧
    (p.buf .master).got = [97, 8, 98, 10] ∧ p.Transparent := by
  have hrun : (System.execBy Ptty.Fits (fun p op => (Ptty.step p op).map Prod.snd)
      (ptmx_open (fun _ _ => 0) fun _ => 0) [.ptsOpen false 1 1, .ptmWrite [97, 8, 98, 10], .goOn, .goOn,
        .goOn, .read .slave false 10, .readWait .slave 0 none, .readCopy .slave 0,
        .read .master false 10, .readWait .master 0 none, .readCopy .master 0]).any
      (fun p => (p.buf .slave).got = [98, 10] ∧ (p.buf .master).got = [97, 8, 98, 10]) = true := by
    decide
  obtain ⟨p, hp, hgot⟩ := (Option.any_eq_true ..).1 hrun
  have hreach := System.ReachesBy.execBy (fun _ _ _ => ptty_step) (.init ⟨_, _, rfl⟩) hp
  exact ⟨p, (of_decide_eq_true hgot).1, (of_decide_eq_true hgot).2, transparent_of_run hreach⟩

/-! ## A full ring -/

theorem foldl_putChar (b : TermBuffer) (l : List UInt8) : l.foldl TermBuffer.putChar b =
    { b with
      buffer := (Ring.put TERM_BUFFER_SIZE b.buffer b.put l).1
      put := (Ring.put TERM_BUFFER_SIZE b.buffer b.put l).2 } := by
  induction l generalizing b with
  | nil => rfl
  | cons c l ih => exact ih _

/-- The slave writes one byte more than the ring holds, and the master reads the last one first. -/
theorem last_first {l : List UInt8} {c : UInt8} (hl : l.length = TERM_BUFFER_SIZE) :
    ∃ p, ptty.Reachable p ∧ (p.buf .master).got = [c] ∧ p.editor.out .master = l ++ [c] := by
  have hlen : (l ++ [c]).length = 4097 := by rw [List.length_append, hl]; rfl
  have hlast : (Ring.put TERM_BUFFER_SIZE (fun _ => 0) 0 (l ++ [c])).1 0 = c := by
    have hpos : (Ring.put TERM_BUFFER_SIZE (fun _ => (0 : UInt8)) 0 l).2 = 0 := by
      rw [Ring.put_snd (by decide), hl]
      rfl
    rw [Ring.put_append, hpos]
    exact Function.update_self 0 c (Ring.put TERM_BUFFER_SIZE (fun _ => 0) 0 l).1
  -- the terminal after the bytes are put, with what the steps change
  let after (writing : Option TermWrite) (b : TermBuffer) : Ptty :=
    { ptmx_open (fun _ _ => 0) (fun _ => 0) with
      writing
      buf := Function.update (ptmx_open (fun _ _ => 0) fun _ => 0).buf .master b
      events := [.printed (l ++ [c])] }
  let full (counter : SemUnits) (reads : List TermRead) : TermBuffer :=
    { buffer := (Ring.put TERM_BUFFER_SIZE (fun _ => 0) 0 (l ++ [c])).1
      put := (Ring.put TERM_BUFFER_SIZE (fun _ => 0) 0 (l ++ [c])).2
      fetch := 0
      counter
      reads
      got := [] }
  have hwrite : ptty.step (ptmx_open (fun _ _ => 0) fun _ => 0) (.ptsWrite (l ++ [c]))
      (after (some ⟨[(.master, 4097)], 4097⟩) (full ⟨0, false⟩ [])) := by
    refine ⟨.pending, ?_⟩
    simp only [Ptty.step, Ptty.ptsWrite, foldl_putChar, hlen]
    rfl
  have hsignal : ptty.step (after (some ⟨[(.master, 4097)], 4097⟩) (full ⟨0, false⟩ [])) .goOn
      (after (some ⟨[], 4097⟩) (full ⟨4097, false⟩ [])) := by
    refine ⟨.pending, ?_⟩
    simp only [Ptty.step, Ptty.goOn, after, Function.update_self, Function.update_idem]
    rfl
  have hrelease : ptty.step (after (some ⟨[], 4097⟩) (full ⟨4097, false⟩ [])) .goOn
      (after none (full ⟨4097, false⟩ [])) := ⟨.wrote 4097, rfl⟩
  have hread : ptty.step (after none (full ⟨4097, false⟩ [])) (.read .master false 1)
      (after none (full ⟨4097, false⟩ [.wait false 1])) := by
    refine ⟨.pending, ?_⟩
    simp only [Ptty.step, Ptty.read, after, Function.update_self, Function.update_idem]
    rfl
  have hwait : ptty.step (after none (full ⟨4097, false⟩ [.wait false 1])) (.readWait .master 0 none)
      (after none (full ⟨4096, false⟩ [.copy 1])) := by
    have hunits : SemUnits.waitGen ⟨4097, false⟩ (.ofNat 1) none = some (1, ⟨4096, false⟩) := by decide
    have hbuf : (full ⟨4097, false⟩ [.wait false 1]).readWait 0 none =
        some (.pending, full ⟨4096, false⟩ [.copy 1]) := by
      simp only [TermBuffer.readWait, full, List.getElem?_cons_zero, hunits]
      rfl
    refine ⟨.pending, ?_⟩
    simp only [Ptty.step, Ptty.readWait, after, Function.update_self, Function.update_idem, hbuf]
    rfl
  have hcopy : ptty.step (after none (full ⟨4096, false⟩ [.copy 1])) (.readCopy .master 0)
      (after none { full ⟨4096, false⟩ [] with fetch := 1, got := [c] }) := by
    have hbuf : (full ⟨4096, false⟩ [.copy 1]).readCopy 0 =
        some (.bytes [c], { full ⟨4096, false⟩ [] with fetch := 1, got := [c] }) := by
      simp only [TermBuffer.readCopy, full, List.getElem?_cons_zero, Ring.get, hlast]
      rfl
    refine ⟨.bytes [c], ?_⟩
    simp only [Ptty.step, Ptty.readCopy, after, Function.update_self, Function.update_idem, hbuf]
    rfl
  refine ⟨_, .step (.step (.step (.step (.step (.step (.init ⟨_, _, rfl⟩) trivial hwrite) trivial hsignal)
    trivial hrelease) trivial hread) trivial hwait) trivial hcopy, ?_, ?_⟩
  · simp only [after, Function.update_self]
  · simp [after, Ptty.editor, Editor.step, Editor.start]

theorem bytes_overwritten : ∃ p, ptty.Reachable p ∧ ¬p.Transparent := by
  obtain ⟨p, hp, hgot, hout⟩ :=
    last_first (l := List.replicate TERM_BUFFER_SIZE 0) (c := 1) List.length_replicate
  refine ⟨p, hp, fun htransparent => ?_⟩
  have hmaster := htransparent .master
  rw [hgot, hout, show TERM_BUFFER_SIZE = 4095 + 1 from rfl, List.replicate_succ] at hmaster
  exact absurd (List.cons.inj hmaster).1 (by decide)

end Glidix.Term
