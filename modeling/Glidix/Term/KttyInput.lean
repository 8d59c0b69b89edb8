import Glidix.Lib.Tally
import Glidix.Term.Ktty

/-!
# The input of the kernel terminal

A line editor without buffers says which characters the readers are to get.  All positions are inside
the ring as long as no backspace is typed to a line that goes round its end with the write position at
the start, and no interrupt character while the read position is behind the last cell.  If further the
ring has room for what is typed and nothing is being read when an interrupt character is, then the
readers get what the editor says (`input_of_run`).
-/

namespace Glidix.Term

open Glidix.Thread

/-! ## The line editor -/

/-- The local modes, the line that is being typed, the characters that wait for readers, and those that
readers were given. -/
structure KeyEditor where
  lflag : UInt16
  line : List UInt8
  ready : List UInt8
  returned : List UInt8

namespace KeyEditor

def start : KeyEditor where
  lflag := ECHO ||| ECHOE ||| ECHOK ||| ECHONL ||| ICANON ||| ISIG
  line := []
  ready := []
  returned := []

variable (e : KeyEditor)

def canonical : Bool := e.lflag &&& ICANON != 0

/-- The interrupt character discards what waits. -/
def type (c : UInt8) : KeyEditor :=
  if e.canonical then
    if c = BACKSPACE then { e with line := e.line.dropLast }
    else if c = CC_VINTR then { e with line := [], ready := [] }
    else if c = '\n'.toUInt8 then { e with line := [], ready := e.ready ++ (e.line ++ [c]) }
    else { e with line := e.line ++ [c] }
  else { e with line := [], ready := e.ready ++ (e.line ++ [c]) }

def step : KttyEvent → KeyEditor
  | .typed c => e.type c
  | .modes lflag => { e with lflag }
  | .took n => { e with ready := e.ready.drop n, returned := e.returned ++ e.ready.take n }

end KeyEditor

/-- The characters that a read is about to copy. -/
def KttyRead.taken : KttyRead → ℕ
  | .wait _ => 0
  | .copy size | .loop size _ => size

namespace Ktty

variable (s : Ktty)

def editor : KeyEditor := s.events.foldl KeyEditor.step .start

/-- The characters that wait for readers. -/
def waiting : ℕ := s.semCount.left + tally KttyRead.taken s.reads

/-- The read position, where the next character is taken from. -/
def nextRead : ℕ := if s.inputRead = INPUT_BUFFER_SIZE then 0 else s.inputRead

/-- Every access was to a cell of the ring. -/
def Indexed : Prop := ∀ i ∈ s.touched, i < INPUT_BUFFER_SIZE

/-- The readers were given the characters of the editor, and will be given the others. -/
structure Faithful : Prop where
  returned : s.got = s.editor.returned
  ready : s.draining = false →
    (Ring.get INPUT_BUFFER_SIZE s.inputBuffer s.nextRead s.waiting).1 = s.editor.ready

/-- What a step must do for the positions to stay inside the ring. -/
def InRange : KttyOp → Prop
  | .putChar c => s.canonical = true →
    (c = BACKSPACE → s.lineBufferSize ≠ 0 → s.inputWrite ≠ 0) ∧
      (c = CC_VINTR → s.inputRead ≠ INPUT_BUFFER_SIZE)
  | _ => True

/-- A read that may get characters asks for a number that is not below -1 as an `int`, and does not get
any while others are taken away. -/
def AsksFit (giveUp : Option GiveUp) : KttyRead → Prop
  | .wait size => s.semCount.left ≠ 0 → -1 ≤ (Int32.ofNat size).toInt ∧
    (s.draining = true → giveUp ≠ none ∧ Int32.ofNat size ≠ -1)
  | .copy _ | .loop _ _ => True

/-- What a step must do for the readers to get the right characters. -/
def Fits : KttyOp → Prop
  | .putChar c => s.InRange (.putChar c) ∧
    (¬(c = BACKSPACE ∧ s.canonical = true) →
      s.waiting + s.lineBufferSize.toInt.toNat < INPUT_BUFFER_SIZE) ∧
    (c = CC_VINTR ∧ s.canonical = true → tally KttyRead.taken s.reads = 0)
  | .readWait i giveUp => ∀ c ∈ s.reads[i]?, s.AsksFit giveUp c
  | _ => True

instance : DecidablePred s.InRange
  | .putChar _ => inferInstanceAs (Decidable (_ → _))
  | .drain | .read .. | .readWait .. | .readLock _ | .readLoop _ | .setAttr _ | .setPgid .. =>
    inferInstanceAs (Decidable True)

instance (giveUp : Option GiveUp) : DecidablePred (s.AsksFit giveUp)
  | .wait _ => inferInstanceAs (Decidable (_ → _))
  | .copy _ | .loop _ _ => inferInstanceAs (Decidable True)

instance : DecidablePred s.Fits
  | .putChar _ => inferInstanceAs (Decidable (_ ∧ _))
  | .readWait i _ => inferInstanceAs (Decidable (∀ c ∈ s.reads[i]?, _))
  | .drain | .read .. | .readLock _ | .readLoop _ | .setAttr _ | .setPgid .. =>
    inferInstanceAs (Decidable True)

/-! ## Positions -/

variable {s} {t : Ktty} {r : TermResult} {c : UInt8} {i : ℕ}

/-- The positions are inside the ring; the read position may be behind the last cell. -/
structure Inside (s : Ktty) : Prop where
  write : s.inputWrite < INPUT_BUFFER_SIZE
  read : s.inputRead ≤ INPUT_BUFFER_SIZE
  touched : s.Indexed

theorem Inside.erase (h : s.Inside) (hne : s.lineBufferSize ≠ 0 → s.inputWrite ≠ 0) : s.erase.Inside := by
  have hwrite := h.write
  unfold Ktty.erase
  split_ifs with hline hzero
  · exact absurd hzero (hne hline)
  · exact ⟨Nat.lt_of_le_of_lt (Nat.sub_le _ _) h.write, h.read, h.touched⟩
  · exact h

theorem Inside.store (h : s.Inside) (c : UInt8) : (s.store c).Inside := by
  have hwrite := h.write
  refine ⟨?_, h.read, fun j hj => ?_⟩
  · unfold Ktty.store
    dsimp only
    split_ifs with hend
    · exact Nat.zero_lt_of_lt hwrite
    · omega
  · obtain hj | hj := List.mem_append.1 hj
    · exact h.touched j hj
    · exact List.mem_singleton.1 hj ▸ hwrite

theorem Inside.submit (h : s.Inside) (hs : s.submit = some t) :
    t.Inside ∧ t.inputRead = s.inputRead ∧ t.termState = s.termState := by
  obtain ⟨u, -, rfl⟩ := Option.map_eq_some_iff.1 hs
  exact ⟨⟨h.write, h.read, h.touched⟩, rfl, rfl⟩

theorem Inside.signalGroup (h : s.Inside) : s.signalGroup.Inside := by
  unfold Ktty.signalGroup
  split_ifs
  · exact ⟨h.write, h.read, h.touched⟩
  · exact h

theorem Inside.interrupt (h : s.Inside) (hne : s.canonical = true → s.inputRead ≠ INPUT_BUFFER_SIZE) :
    s.interrupt.Inside := by
  unfold Ktty.interrupt
  split_ifs with hcanon
  · exact ⟨lt_of_le_of_ne h.read (hne hcanon), h.read, h.touched⟩
  · exact h.signalGroup

theorem signed_lt (c : UInt8) : c.toInt8.toInt < 0x80 := Int8.toInt_lt _

theorem termPutChar_cases (hs : s.termPutChar c = some (r, t)) : s.draining = false ∧ r = .ok ∧
    ((c = BACKSPACE ∧ s.canonical = true) ∧ t = s.erase.log (.typed c) ∨
      ¬(c = BACKSPACE ∧ s.canonical = true) ∧ ∃ u,
        (if s.canonical = false ∨ c = '\n'.toUInt8 then (s.store c).submit else some (s.store c)) = some u ∧
          t = (if c = CC_VINTR then u.interrupt else u).log (.typed c)) := by
  unfold termPutChar at hs
  obtain ⟨hdraining, hs⟩ := Option.ite_none_left_eq_some.1 hs
  refine ⟨Bool.not_eq_true _ ▸ hdraining, ?_⟩
  by_cases herase : c = BACKSPACE ∧ s.canonical = true
  · rw [if_pos herase] at hs
    cases hs
    exact ⟨rfl, .inl ⟨herase, rfl⟩⟩
  · rw [if_neg herase] at hs
    dsimp only at hs
    rw [if_pos (signed_lt c)] at hs
    obtain ⟨u, hu, he⟩ := Option.map_eq_some_iff.1 hs
    cases he
    exact ⟨rfl, .inr ⟨herase, u, hu, rfl⟩⟩

theorem Inside.log (h : s.Inside) (event : KttyEvent) : (s.log event).Inside :=
  ⟨h.write, h.read, h.touched⟩

theorem Inside.termPutChar (h : s.Inside) (hrange : s.InRange (.putChar c))
    (hs : s.termPutChar c = some (r, t)) : t.Inside := by
  obtain ⟨-, -, ⟨herase, rfl⟩ | ⟨-, u, hu, rfl⟩⟩ := termPutChar_cases hs
  · exact (h.erase ((hrange herase.2).1 herase.1)).log _
  · have hinside : u.Inside ∧ u.inputRead = s.inputRead ∧ u.termState = s.termState := by
      split_ifs at hu
      · exact (h.store c).submit hu
      · cases hu
        exact ⟨h.store c, rfl, rfl⟩
    obtain ⟨hinside, hread, hstate⟩ := hinside
    refine Inside.log ?_ _
    split_ifs with hintr
    · refine hinside.interrupt fun hcanon => ?_
      rw [Ktty.canonical, hstate] at hcanon
      rw [hread]
      exact (hrange hcanon).2 hintr
    · exact hinside

theorem drain_cases (hs : s.drain = some (r, t)) : s.draining = true ∧ ∃ n u,
    s.semCount.waitGen 1024 (if s.semCount.count = 0 then some .again else none) = some (n, u) ∧
      (0 < n ∧ t = { s with semCount := u } ∨
        ¬0 < n ∧ t = { s with semCount := u, lineBufferSize := 0, draining := false }.signalGroup) := by
  obtain ⟨hdraining, hs⟩ := Option.ite_none_right_eq_some.1 hs
  obtain ⟨⟨n, u⟩, hwait, he⟩ := Option.map_eq_some_iff.1 hs
  refine ⟨hdraining, n, u, hwait, ?_⟩
  dsimp only at he
  split_ifs at he with hpos
  · cases he
    exact .inl ⟨hpos, rfl⟩
  · cases he
    exact .inr ⟨hpos, rfl⟩

theorem readWait_cases {giveUp : Option GiveUp} (hs : s.readWait i giveUp = some (r, t)) :
    ∃ size n u, s.reads[i]? = some (.wait size) ∧
      s.semCount.waitGen (.ofNat size) giveUp = some (n, u) ∧
      (n < 0 ∧ t = { s with semCount := u, reads := s.reads.eraseIdx i } ∨
        ¬n < 0 ∧ t = { s with semCount := u, reads := s.reads.set i (.copy (min size n.toInt.toNat)) }) := by
  unfold readWait at hs
  split at hs
  · next size hread =>
    obtain ⟨-, hs⟩ := Option.ite_none_left_eq_some.1 hs
    obtain ⟨⟨n, u⟩, hwait, he⟩ := Option.map_eq_some_iff.1 hs
    refine ⟨size, n, u, hread, hwait, ?_⟩
    dsimp only at he
    split_ifs at he with hneg
    · cases he
      exact .inl ⟨hneg, rfl⟩
    · cases he
      exact .inr ⟨hneg, rfl⟩
  · cases hs

theorem readLock_cases (hs : s.readLock i = some (r, t)) : ∃ size,
    s.reads[i]? = some (.copy size) ∧ t = { s with reads := s.reads.set i (.loop size []) } := by
  unfold readLock at hs
  split at hs
  · next size hread =>
    obtain ⟨-, hs⟩ := Option.ite_none_left_eq_some.1 hs
    cases hs
    exact ⟨size, hread, rfl⟩
  · cases hs

theorem readLoop_cases (hs : s.readLoop i = some (r, t)) : ∃ size out,
    s.reads[i]? = some (.loop size out) ∧
      (size = 0 ∧ t = { s with reads := s.reads.eraseIdx i } ∨ size ≠ 0 ∧ ∃ n,
        n = min (INPUT_BUFFER_SIZE - s.nextRead) size ∧ t = { s with
          inputRead := s.nextRead + n
          touched := s.touched ++ List.range' s.nextRead n
          got := s.got ++ (List.range' s.nextRead n).map s.inputBuffer
          events := s.events ++ [.took n]
          reads := s.reads.set i
            (.loop (size - n) (out ++ (List.range' s.nextRead n).map s.inputBuffer)) }) := by
  unfold readLoop at hs
  split at hs
  · next size out hread =>
    refine ⟨size, out, hread, ?_⟩
    by_cases hzero : size = 0
    · rw [if_pos hzero] at hs
      cases hs
      exact .inl ⟨hzero, rfl⟩
    · rw [if_neg hzero] at hs
      cases hs
      exact .inr ⟨hzero, _, rfl, rfl⟩
  · cases hs

theorem Inside.nextRead_lt (h : s.Inside) : s.nextRead < INPUT_BUFFER_SIZE := by
  have hread := h.read
  unfold Ktty.nextRead
  split_ifs
  · decide
  · omega

theorem Inside.readLoop (h : s.Inside) (hs : s.readLoop i = some (r, t)) : t.Inside := by
  obtain ⟨size, out, -, ⟨-, rfl⟩ | ⟨-, n, hn, rfl⟩⟩ := readLoop_cases hs
  · exact ⟨h.write, h.read, h.touched⟩
  · have hnext := h.nextRead_lt
    refine ⟨h.write, ?_, fun j hj => ?_⟩
    · dsimp only
      omega
    · obtain hj | hj := List.mem_append.1 hj
      · exact h.touched j hj
      · have := List.mem_range'_1.1 hj
        omega

theorem Inside.step {op : KttyOp} (h : s.Inside) (hrange : s.InRange op) (hs : s.step op = some (r, t)) :
    t.Inside := by
  cases op with
  | putChar c => exact h.termPutChar hrange hs
  | drain =>
    obtain ⟨-, n, u, -, ⟨-, rfl⟩ | ⟨-, rfl⟩⟩ := drain_cases hs
    · exact ⟨h.write, h.read, h.touched⟩
    · exact Inside.signalGroup ⟨h.write, h.read, h.touched⟩
  | read pgid size =>
    simp only [Ktty.step, Ktty.termRead] at hs
    split_ifs at hs <;> cases hs <;> exact ⟨h.write, h.read, h.touched⟩
  | readWait i giveUp =>
    obtain ⟨size, n, u, -, -, ⟨-, rfl⟩ | ⟨-, rfl⟩⟩ := readWait_cases hs <;>
      exact ⟨h.write, h.read, h.touched⟩
  | readLock i =>
    obtain ⟨size, -, rfl⟩ := readLock_cases hs
    exact ⟨h.write, h.read, h.touched⟩
  | readLoop i => exact h.readLoop hs
  | setAttr tc =>
    cases hs
    exact ⟨h.write, h.read, h.touched⟩
  | setPgid sid pgid target =>
    simp only [Ktty.step, Ktty.setPgid] at hs
    split_ifs at hs <;> cases hs <;> exact ⟨h.write, h.read, h.touched⟩

/-! ## Characters -/

/-- The ring holds what waits and the line, and what waits is counted or about to be copied. -/
structure Holds (s : Ktty) (ready line : List UInt8) : Prop where
  ring : Ring.Holds INPUT_BUFFER_SIZE s.inputBuffer s.nextRead s.inputWrite (ready ++ line)
  count : s.waiting = ready.length
  size : s.lineBufferSize = .ofNat line.length
  fits : ready.length + line.length ≤ INPUT_BUFFER_SIZE

/-- Nothing is held while what the semaphore counts is taken away. -/
structure Drained (s : Ktty) (ready line : List UInt8) : Prop where
  ready : ready = []
  line : line = []
  taken : tally KttyRead.taken s.reads = 0
  write : s.inputWrite = s.inputRead

/-- The terminal has done what the editor has. -/
structure Follows (s : Ktty) (e : KeyEditor) : Prop where
  inside : s.Inside
  sound : s.semCount.Sound
  live : s.semCount.terminated = false
  lflag : e.lflag = s.termState.c_lflag
  returned : s.got = e.returned
  held : s.draining = false → s.Holds e.ready e.line
  drained : s.draining = true → s.Drained e.ready e.line

variable {ready line : List UInt8} {e : KeyEditor}

theorem Follows.canonical (h : s.Follows e) : s.canonical = e.canonical := by
  rw [Ktty.canonical, KeyEditor.canonical, h.lflag]

theorem ofNat_eq_zero {n : ℕ} (hn : n ≤ INPUT_BUFFER_SIZE) : Int32.ofNat n = 0 ↔ n = 0 := by
  have hmax : INPUT_BUFFER_SIZE < 2 ^ 31 := by decide
  have hint : (Int32.ofNat n).toInt = n := Int32.toInt_ofNat_of_lt (by omega)
  rw [← Int32.toInt_inj, hint, Int32.toInt_zero]
  omega

/-- A line that is not empty loses its last character. -/
theorem Holds.erase (h : s.Holds ready line) (hne : s.lineBufferSize ≠ 0 → s.inputWrite ≠ 0) :
    s.erase.Holds ready line.dropLast := by
  have hfits := h.fits
  have hsize := h.size
  unfold Ktty.erase
  rcases List.eq_nil_or_concat line with rfl | ⟨init, c, rfl⟩
  · have hzero : s.lineBufferSize = 0 := hsize
    rw [if_neg (not_not.2 hzero)]
    exact h
  · rw [List.concat_eq_append, List.length_append, List.length_singleton] at hsize hfits
    have hline : s.lineBufferSize ≠ 0 := fun hzero => by
      have := (ofNat_eq_zero (by omega)).1 (hsize.symm.trans hzero)
      omega
    have hring := h.ring
    rw [List.concat_eq_append, ← List.append_assoc] at hring
    have hlen : Int32.ofNat (init.length + 1) - 1 = Int32.ofNat init.length := by
      rw [Int32.ofNat_add]
      exact Int32.add_sub_cancel _ _
    rw [if_pos hline, List.concat_eq_append, List.dropLast_concat]
    refine ⟨?_, h.count, ?_, ?_⟩
    · dsimp only
      rw [if_neg (hne hline)]
      have hpop := hring.pop_back
      rw [if_neg (hne hline)] at hpop
      exact hpop
    · dsimp only
      rw [hsize, hlen]
    · omega

theorem Holds.store (h : s.Holds ready line) (hroom : ready.length + line.length < INPUT_BUFFER_SIZE)
    (hwrite : s.inputWrite < INPUT_BUFFER_SIZE) (c : UInt8) : (s.store c).Holds ready (line ++ [c]) := by
  refine ⟨?_, h.count, ?_, ?_⟩
  · have hput := h.ring.put_one (by rwa [List.length_append]) c
    have hnext : (if s.inputWrite + 1 = INPUT_BUFFER_SIZE then 0 else s.inputWrite + 1) =
        (s.inputWrite + 1) % INPUT_BUFFER_SIZE := by
      split_ifs with hend
      · rw [hend, Nat.mod_self]
      · exact (Nat.mod_eq_of_lt (by omega)).symm
    rw [← List.append_assoc]
    show Ring.Holds INPUT_BUFFER_SIZE _ _ (if s.inputWrite + 1 = INPUT_BUFFER_SIZE then 0 else _) _
    rw [hnext]
    exact hput
  · show s.lineBufferSize + 1 = _
    rw [h.size, List.length_append, List.length_singleton, Int32.ofNat_add]
    rfl
  · rw [List.length_append, List.length_singleton]
    omega

/-- The line is given to the readers. -/
theorem Holds.submit (h : s.Holds ready line) (hsound : s.semCount.Sound)
    (hlive : s.semCount.terminated = false) (hs : s.submit = some t) :
    t.Holds (ready ++ line) [] ∧ t.semCount.Sound ∧ t.semCount.terminated = false := by
  obtain ⟨u, hu, rfl⟩ := Option.map_eq_some_iff.1 hs
  have hfits := h.fits
  have hcount := h.count
  have hmax : INPUT_BUFFER_SIZE < 2 ^ 31 := by decide
  have hint : (Int32.ofNat line.length).toInt = line.length := Int32.toInt_ofNat_of_lt (by omega)
  rw [h.size] at hu
  unfold Ktty.waiting at hcount
  obtain ⟨husound, hterm, hleft⟩ := hsound.signal (by omega) (by omega) hu
  rw [if_neg (by simp [hlive])] at hleft
  refine ⟨⟨?_, ?_, rfl, ?_⟩, husound, hterm.trans hlive⟩
  · rw [List.append_nil]
    exact h.ring
  · show u.left + tally KttyRead.taken s.reads = (ready ++ line).length
    rw [List.length_append]
    omega
  · rw [List.length_append]
    exact hfits

/-! ## What each step does -/

theorem erase_eq : ∃ w n, s.erase = { s with inputWrite := w, lineBufferSize := n } := by
  unfold Ktty.erase
  by_cases hline : s.lineBufferSize ≠ 0
  · rw [if_pos hline]
    exact ⟨_, _, rfl⟩
  · rw [if_neg hline]
    exact ⟨s.inputWrite, s.lineBufferSize, rfl⟩

theorem signalGroup_eq : ∃ sent, s.signalGroup = { s with sent } := by
  unfold Ktty.signalGroup
  split_ifs
  · exact ⟨_, rfl⟩
  · exact ⟨s.sent, rfl⟩

/-- What the positions and the characters depend on is as before. -/
structure Same (s t : Ktty) : Prop where
  inputBuffer : t.inputBuffer = s.inputBuffer
  inputRead : t.inputRead = s.inputRead
  inputWrite : t.inputWrite = s.inputWrite
  semCount : t.semCount = s.semCount
  lineBufferSize : t.lineBufferSize = s.lineBufferSize
  draining : t.draining = s.draining
  taken : tally KttyRead.taken t.reads = tally KttyRead.taken s.reads
  touched : t.touched = s.touched
  got : t.got = s.got

theorem Follows.of_same {e' : KeyEditor} (h : s.Follows e) (hst : Same s t)
    (hlflag : e'.lflag = t.termState.c_lflag)
    (he : e'.line = e.line ∧ e'.ready = e.ready ∧ e'.returned = e.returned) : t.Follows e' := by
  obtain ⟨hline, hready, hreturned⟩ := he
  refine ⟨⟨?_, ?_, ?_⟩, ?_, ?_, hlflag, ?_, fun hd => ?_, fun hd => ?_⟩
  · rw [hst.inputWrite]
    exact h.inside.write
  · rw [hst.inputRead]
    exact h.inside.read
  · rw [Indexed, hst.touched]
    exact h.inside.touched
  · rw [hst.semCount]
    exact h.sound
  · rw [hst.semCount]
    exact h.live
  · rw [hst.got, hreturned]
    exact h.returned
  · rw [hst.draining] at hd
    obtain ⟨hring, hcount, hsize, hfits⟩ := h.held hd
    rw [hready, hline]
    refine ⟨?_, ?_, hst.lineBufferSize.trans hsize, hfits⟩
    · rw [hst.inputBuffer, Ktty.nextRead, hst.inputRead, hst.inputWrite]
      exact hring
    · rw [Ktty.waiting, hst.semCount, hst.taken]
      exact hcount
  · rw [hst.draining] at hd
    obtain ⟨hready', hline', htaken, hwrite⟩ := h.drained hd
    exact ⟨hready.trans hready', hline.trans hline', hst.taken.trans htaken,
      hst.inputWrite.trans (hwrite.trans hst.inputRead.symm)⟩

theorem Follows.log (h : s.Follows e) (event : KttyEvent) : (s.log event).Follows e :=
  h.of_same ⟨rfl, rfl, rfl, rfl, rfl, rfl, rfl, rfl, rfl⟩ h.lflag ⟨rfl, rfl, rfl⟩

theorem Follows.signalGroup (h : s.Follows e) : s.signalGroup.Follows e := by
  obtain ⟨sent, he⟩ := s.signalGroup_eq
  rw [he]
  exact h.of_same ⟨rfl, rfl, rfl, rfl, rfl, rfl, rfl, rfl, rfl⟩ h.lflag ⟨rfl, rfl, rfl⟩

theorem Follows.erase (h : s.Follows e) (hd : s.draining = false)
    (hne : s.lineBufferSize ≠ 0 → s.inputWrite ≠ 0) :
    s.erase.Follows { e with line := e.line.dropLast } := by
  have hinside := h.inside.erase hne
  have hheld := (h.held hd).erase hne
  obtain ⟨w, n, he⟩ := s.erase_eq
  rw [he] at hinside hheld ⊢
  exact ⟨hinside, h.sound, h.live, h.lflag, h.returned, fun _ => hheld,
    fun hd' => Bool.noConfusion (hd.symm.trans hd')⟩

theorem Follows.store (h : s.Follows e) (hd : s.draining = false)
    (hroom : s.waiting + s.lineBufferSize.toInt.toNat < INPUT_BUFFER_SIZE) (c : UInt8) :
    (s.store c).Follows { e with line := e.line ++ [c] } := by
  have hheld := h.held hd
  have hfits := hheld.fits
  have hmax : INPUT_BUFFER_SIZE < 2 ^ 31 := by decide
  have hint : (Int32.ofNat e.line.length).toInt = e.line.length := Int32.toInt_ofNat_of_lt (by omega)
  rw [hheld.count, hheld.size, hint] at hroom
  exact ⟨h.inside.store c, h.sound, h.live, h.lflag, h.returned,
    fun _ => hheld.store (by omega) h.inside.write c,
    fun hd' => Bool.noConfusion (hd.symm.trans hd')⟩

theorem Follows.submit (h : s.Follows e) (hd : s.draining = false) (hs : s.submit = some t) :
    t.Follows { e with ready := e.ready ++ e.line, line := [] } := by
  obtain ⟨hheld, hsound, hlive⟩ := (h.held hd).submit h.sound h.live hs
  obtain ⟨hinside, -⟩ := h.inside.submit hs
  obtain ⟨u, -, rfl⟩ := Option.map_eq_some_iff.1 hs
  exact ⟨hinside, hsound, hlive, h.lflag, h.returned, fun _ => hheld,
    fun hd' => Bool.noConfusion (hd.symm.trans hd')⟩

theorem Follows.interrupt (h : s.Follows e) (hcanon : s.canonical = true)
    (hne : s.inputRead ≠ INPUT_BUFFER_SIZE) (htaken : tally KttyRead.taken s.reads = 0) :
    s.interrupt.Follows { e with ready := [], line := [] } := by
  have hinside := h.inside.interrupt fun _ => hne
  unfold Ktty.interrupt at hinside ⊢
  rw [if_pos hcanon] at hinside ⊢
  exact ⟨hinside, h.sound, h.live, h.lflag, h.returned, nofun, fun _ => ⟨rfl, rfl, htaken, rfl⟩⟩

theorem Follows.putChar (h : s.Follows e) (hfits : s.Fits (.putChar c))
    (hs : s.termPutChar c = some (r, t)) : t.Follows (e.type c) := by
  obtain ⟨hrange, hroom, htaken⟩ := hfits
  have hcanonical := h.canonical
  obtain ⟨hd, -, ⟨herase, rfl⟩ | ⟨hstore, u, hu, rfl⟩⟩ := termPutChar_cases hs
  · refine Follows.log ?_ _
    rw [KeyEditor.type, ← hcanonical, if_pos herase.2, if_pos herase.1]
    exact h.erase hd ((hrange herase.2).1 herase.1)
  · refine Follows.log ?_ _
    have hnext := h.store hd (hroom hstore) c
    have hd' : (s.store c).draining = false := hd
    unfold KeyEditor.type
    rw [← hcanonical]
    by_cases hcanon : s.canonical = true
    · have hback : c ≠ BACKSPACE := fun hc => hstore ⟨hc, hcanon⟩
      rw [if_pos hcanon, if_neg hback]
      by_cases hintr : c = CC_VINTR
      · have hline : ¬(s.canonical = false ∨ c = '\n'.toUInt8) := by
          rw [hcanon, hintr]
          decide
        rw [if_neg hline] at hu
        cases hu
        rw [if_pos hintr, if_pos hintr]
        exact hnext.interrupt hcanon ((hrange hcanon).2 hintr) (htaken ⟨hintr, hcanon⟩)
      · rw [if_neg hintr, if_neg hintr]
        by_cases hline : c = '\n'.toUInt8
        · rw [if_pos (.inr hline)] at hu
          rw [if_pos hline]
          exact hnext.submit hd' hu
        · rw [if_neg (by rw [hcanon]; simpa using hline)] at hu
          cases hu
          rw [if_neg hline]
          exact hnext
    · rw [if_neg hcanon]
      rw [if_pos (.inl (Bool.not_eq_true _ ▸ hcanon))] at hu
      have hsubmit := hnext.submit hd' hu
      split_ifs
      · have hraw : ¬u.canonical = true := by
          obtain ⟨-, -, hstate⟩ := (h.inside.store c).submit hu
          rw [Ktty.canonical, hstate]
          exact hcanon
        unfold Ktty.interrupt
        rw [if_neg hraw]
        exact hsubmit.signalGroup
      · exact hsubmit

theorem Follows.drain (h : s.Follows e) (hs : s.drain = some (r, t)) : t.Follows e := by
  obtain ⟨hd, n, u, hwait, hq⟩ := drain_cases hs
  obtain ⟨hready, hline, htaken, hwrite⟩ := h.drained hd
  obtain ⟨hsound, hsum, hterm, -⟩ := h.sound.waitGen (fun _ => by decide) hwait
  obtain ⟨-, rfl⟩ | ⟨hpos, rfl⟩ := hq
  · exact ⟨⟨h.inside.write, h.inside.read, h.inside.touched⟩, hsound, hterm.trans h.live, h.lflag,
      h.returned, fun hd' => Bool.noConfusion (hd.symm.trans hd'),
      fun _ => ⟨hready, hline, htaken, hwrite⟩⟩
  · -- the loop ends when nothing is left
    have hleft : u.left = 0 := by
      by_cases hzero : s.semCount.count = 0
      · rw [if_pos hzero] at hwait
        obtain ⟨-, rfl⟩ := SemUnits.waitGen_giveUp (by decide) hwait
        rw [SemUnits.left, hzero]
        rfl
      · rw [if_neg hzero] at hwait
        have hmark : s.semCount.count ≠ -1 := fun hc => by
          have hterm := h.sound.marked hc
          rw [h.live] at hterm
          cases hterm
        have htake : s.semCount.take 1024 = (n, u) := by
          simp only [SemUnits.waitGen, SemUnits.acquire, if_neg hzero] at hwait
          exact Option.some.inj hwait
        have hn := (h.sound.take (h.sound.pos hzero hmark) (n := 1024) (by decide)).1
        rw [htake] at hn
        rw [← Int32.toInt_zero] at hn
        exact absurd (Int32.lt_iff_toInt_lt.2 hn) hpos
    have hread : s.nextRead = s.inputRead := if_neg (hwrite ▸ h.inside.write.ne)
    refine Follows.signalGroup ⟨⟨h.inside.write, h.inside.read, h.inside.touched⟩, hsound,
      hterm.trans h.live, h.lflag, h.returned, fun _ => ?_, fun hd' => Bool.noConfusion hd'⟩
    rw [hready, hline]
    refine ⟨?_, ?_, rfl, Nat.zero_le _⟩
    · show Ring.Holds INPUT_BUFFER_SIZE s.inputBuffer s.nextRead s.inputWrite []
      rw [hread, hwrite]
      exact .empty (hwrite ▸ h.inside.write)
    · show u.left + tally KttyRead.taken s.reads = 0
      omega

/-- What a read is given by the semaphore. -/
theorem Follows.given {size : ℕ} {giveUp : Option GiveUp} {n : Int32} {u : SemUnits} (h : s.Follows e)
    (hasks : s.AsksFit giveUp (.wait size)) (hwait : s.semCount.waitGen (.ofNat size) giveUp = some (n, u)) :
    u.Sound ∧ u.terminated = false ∧ u.left + n.toInt.toNat = s.semCount.left ∧
      (¬n < 0 → n.toInt.toNat ≤ size) ∧ (s.draining = true → n.toInt.toNat = 0) := by
  obtain ⟨hsound, hsum, hterm, hle, -⟩ := h.sound.waitGen (fun hleft => (hasks hleft).1) hwait
  refine ⟨hsound, hterm.trans h.live, hsum, fun hneg => ?_, fun hd => ?_⟩
  · by_cases hleft : s.semCount.left = 0
    · omega
    have hsize := SemUnits.toInt_ofNat_le size
    by_cases hzero : Int32.ofNat size = 0
    · rw [hzero, SemUnits.waitGen, if_pos rfl] at hwait
      cases hwait
      exact absurd (by decide) hneg
    · have hne : (Int32.ofNat size).toInt ≠ 0 := fun he => hzero (Int32.toInt_inj.1 he)
      rcases lt_or_gt_of_ne hne with hlt | hgt
      · have hbig := SemUnits.le_of_toInt_ofNat_neg hlt
        have := n.toInt_lt
        omega
      · have := hle hgt
        omega
  · by_cases hleft : s.semCount.left = 0
    · omega
    obtain ⟨hgive, hall⟩ := (hasks hleft).2 hd
    obtain ⟨g, rfl⟩ := Option.ne_none_iff_exists'.1 hgive
    have hneg := (SemUnits.waitGen_giveUp hall hwait).1
    omega

theorem Follows.readWait {giveUp : Option GiveUp} (h : s.Follows e) (hfits : s.Fits (.readWait i giveUp))
    (hs : s.readWait i giveUp = some (r, t)) : t.Follows e := by
  obtain ⟨size, n, u, hread, hwait, hq⟩ := readWait_cases hs
  obtain ⟨hsound, hlive, hsum, hsize, hdrain⟩ := h.given (hfits _ hread) hwait
  have herase := tally_eraseIdx (p := KttyRead.taken) hread
  have hset := tally_set (p := KttyRead.taken) (x := .copy (min size n.toInt.toNat)) hread
  simp only [KttyRead.taken] at herase hset
  obtain ⟨hneg, rfl⟩ | ⟨hneg, rfl⟩ := hq
  · have hzero : n.toInt.toNat = 0 := by
      have := Int32.lt_iff_toInt_lt.1 hneg
      rw [Int32.toInt_zero] at this
      omega
    refine ⟨⟨h.inside.write, h.inside.read, h.inside.touched⟩, hsound, hlive, h.lflag, h.returned,
      fun hd => ?_, fun hd => ?_⟩
    · obtain ⟨hring, hcount, hline, hroom⟩ := h.held hd
      refine ⟨hring, ?_, hline, hroom⟩
      unfold Ktty.waiting at hcount ⊢
      simp only
      omega
    · obtain ⟨hready, hline, htaken, hwrite⟩ := h.drained hd
      exact ⟨hready, hline, by simp only; omega, hwrite⟩
  · have hmin := hsize hneg
    refine ⟨⟨h.inside.write, h.inside.read, h.inside.touched⟩, hsound, hlive, h.lflag, h.returned,
      fun hd => ?_, fun hd => ?_⟩
    · obtain ⟨hring, hcount, hline, hroom⟩ := h.held hd
      refine ⟨hring, ?_, hline, hroom⟩
      unfold Ktty.waiting at hcount ⊢
      simp only
      omega
    · obtain ⟨hready, hline, htaken, hwrite⟩ := h.drained hd
      have := hdrain hd
      exact ⟨hready, hline, by simp only; omega, hwrite⟩

theorem Follows.readLock (h : s.Follows e) (hs : s.readLock i = some (r, t)) : t.Follows e := by
  obtain ⟨size, hread, rfl⟩ := readLock_cases hs
  have htaken : tally KttyRead.taken (s.reads.set i (.loop size [])) = tally KttyRead.taken s.reads :=
    tally_set_eq hread rfl
  exact h.of_same ⟨rfl, rfl, rfl, rfl, rfl, rfl, htaken, rfl, rfl⟩ h.lflag ⟨rfl, rfl, rfl⟩

/-- A turn of the loop copies characters from the front of those that wait. -/
theorem Follows.readLoop (h : s.Follows e) (hs : s.readLoop i = some (r, t)) :
    t.events = s.events ∧ t.Follows e ∨
      ∃ n, t.events = s.events ++ [.took n] ∧ t.Follows (e.step (.took n)) := by
  have hinside := h.inside.readLoop hs
  obtain ⟨size, out, hread, hq⟩ := readLoop_cases hs
  obtain ⟨rfl, rfl⟩ | ⟨hne, n, hn, rfl⟩ := hq
  · have htaken := tally_eraseIdx (p := KttyRead.taken) hread
    exact .inl ⟨rfl, h.of_same ⟨rfl, rfl, rfl, rfl, rfl, rfl, htaken, rfl, rfl⟩ h.lflag ⟨rfl, rfl, rfl⟩⟩
  · have hset := tally_set (p := KttyRead.taken)
      (x := .loop (size - n) (out ++ (List.range' s.nextRead n).map s.inputBuffer)) hread
    have hpos := le_tally (p := KttyRead.taken) (List.mem_of_getElem? hread)
    simp only [KttyRead.taken] at hset hpos
    refine .inr ⟨n, rfl, ?_⟩
    have hd : s.draining = false := by
      cases hd : s.draining with
      | false => rfl
      | true =>
        have := (h.drained hd).taken
        omega
    obtain ⟨hring, hcount, hline, hroom⟩ := h.held hd
    have hnext := h.inside.nextRead_lt
    unfold Ktty.waiting at hcount
    have hle : n ≤ e.ready.length := by omega
    have hget := hring.get (k := n) (by rw [List.length_append]; omega)
    rw [Ring.get_straight (by omega) hnext, List.take_append_of_le_length hle,
      List.drop_append_of_le_length hle] at hget
    refine ⟨hinside, h.sound, h.live, h.lflag, ?_, fun _ => ⟨?_, ?_, hline, ?_⟩,
      fun hd' => Bool.noConfusion (hd.symm.trans hd')⟩
    · show s.got ++ (List.range' s.nextRead n).map s.inputBuffer = e.returned ++ e.ready.take n
      rw [h.returned, ← hget.1]
    · have hwrap : (if s.nextRead + n = INPUT_BUFFER_SIZE then 0 else s.nextRead + n) =
          (s.nextRead + n) % INPUT_BUFFER_SIZE := by
        split_ifs with hend
        · rw [hend, Nat.mod_self]
        · exact (Nat.mod_eq_of_lt (by omega)).symm
      show Ring.Holds INPUT_BUFFER_SIZE s.inputBuffer (if s.nextRead + n = _ then 0 else _) _ _
      rw [hwrap]
      exact hget.2
    · show s.semCount.left + tally KttyRead.taken (s.reads.set i (.loop (size - n) _)) =
        (e.ready.drop n).length
      rw [List.length_drop]
      omega
    · show (e.ready.drop n).length + e.line.length ≤ INPUT_BUFFER_SIZE
      rw [List.length_drop]
      omega

theorem editor_log {l : List KttyEvent} (h : t.events = s.events ++ l) :
    t.editor = l.foldl KeyEditor.step s.editor := by
  rw [editor, h, List.foldl_append, ← editor]

theorem termPutChar_events (hs : s.termPutChar c = some (r, t)) : t.events = s.events ++ [.typed c] := by
  have hgroup : ∀ u : Ktty, u.signalGroup.events = u.events := fun u => by
    obtain ⟨sent, he⟩ := u.signalGroup_eq
    rw [he]
  obtain ⟨-, -, ⟨-, rfl⟩ | ⟨-, u, hu, rfl⟩⟩ := termPutChar_cases hs
  · obtain ⟨w, n, he⟩ := s.erase_eq
    rw [he]
    rfl
  · have hevents : u.events = s.events := by
      split_ifs at hu
      · obtain ⟨v, -, rfl⟩ := Option.map_eq_some_iff.1 hu
        rfl
      · cases hu
        rfl
    show (if c = CC_VINTR then u.interrupt else u).events ++ _ = _
    unfold Ktty.interrupt
    split_ifs
    · rw [← hevents]
    · rw [hgroup, hevents]
    · rw [hevents]

theorem Follows.step {op : KttyOp} (h : s.Follows s.editor) (hfits : s.Fits op)
    (hs : s.step op = some (r, t)) : t.Follows t.editor := by
  have hsame : t.events = s.events → t.editor = s.editor := fun he =>
    editor_log (l := []) (he.trans (List.append_nil _).symm)
  cases op with
  | putChar c =>
    rw [editor_log (termPutChar_events hs)]
    exact h.putChar hfits hs
  | drain =>
    have hevents : t.events = s.events := by
      obtain ⟨-, n, u, -, ⟨-, rfl⟩ | ⟨-, rfl⟩⟩ := drain_cases hs
      · rfl
      · obtain ⟨sent, he⟩ := signalGroup_eq
          (s := { s with semCount := u, lineBufferSize := 0, draining := false })
        rw [he]
    rw [hsame hevents]
    exact h.drain hs
  | read pgid size =>
    simp only [Ktty.step, Ktty.termRead] at hs
    split_ifs at hs <;> cases hs
    · exact h.of_same ⟨rfl, rfl, rfl, rfl, rfl, rfl, rfl, rfl, rfl⟩ h.lflag ⟨rfl, rfl, rfl⟩
    · have htaken : tally KttyRead.taken (.wait size :: s.reads) = tally KttyRead.taken s.reads :=
        tally_cons.trans (Nat.zero_add _)
      exact h.of_same ⟨rfl, rfl, rfl, rfl, rfl, rfl, htaken, rfl, rfl⟩ h.lflag ⟨rfl, rfl, rfl⟩
  | readWait i giveUp =>
    have hevents : t.events = s.events := by
      obtain ⟨size, n, u, -, -, ⟨-, rfl⟩ | ⟨-, rfl⟩⟩ := readWait_cases hs <;> rfl
    rw [hsame hevents]
    exact h.readWait hfits hs
  | readLock i =>
    have hevents : t.events = s.events := by
      obtain ⟨size, -, rfl⟩ := readLock_cases hs
      rfl
    rw [hsame hevents]
    exact h.readLock hs
  | readLoop i =>
    obtain ⟨hevents, hnext⟩ | ⟨n, hevents, hnext⟩ := h.readLoop hs
    · rw [hsame hevents]
      exact hnext
    · rw [editor_log hevents]
      exact hnext
  | setAttr tc =>
    cases hs
    rw [editor_log (s := s) (l := [.modes tc.c_lflag]) rfl]
    exact h.of_same ⟨rfl, rfl, rfl, rfl, rfl, rfl, rfl, rfl, rfl⟩ rfl ⟨rfl, rfl, rfl⟩
  | setPgid sid pgid target =>
    simp only [Ktty.step, Ktty.setPgid] at hs
    split_ifs at hs <;> cases hs
    · exact h
    · exact h.of_same ⟨rfl, rfl, rfl, rfl, rfl, rfl, rfl, rfl, rfl⟩ h.lflag ⟨rfl, rfl, rfl⟩
    · exact h

theorem Follows.faithful (h : s.Follows s.editor) : s.Faithful where
  returned := h.returned
  ready hd := by
    obtain ⟨hring, hcount, -, -⟩ := h.held hd
    rw [hcount, (hring.get (by rw [List.length_append]; omega)).1, List.take_left]

end Ktty

/-! ## Runs -/

theorem inside_of_run {s : Ktty} (h : ktty.ReachesBy Ktty.InRange s) : s.Inside := by
  refine h.invariant (fun s hs => ?_) fun s op t hs hrange ⟨r, hstep⟩ => hs.step hrange hstep
  obtain rfl : s = initTerminal := hs
  exact ⟨by decide, by decide, nofun⟩

theorem follows_of_run {s : Ktty} (h : ktty.ReachesBy Ktty.Fits s) : s.Follows s.editor := by
  refine h.invariant (I := fun s => s.Follows s.editor) (fun s hs => ?_)
    fun s op t hs hfits ⟨r, hstep⟩ => hs.step hfits hstep
  obtain rfl : s = initTerminal := hs
  have hring : (0 : ℕ) < INPUT_BUFFER_SIZE := by decide
  exact ⟨⟨by decide, by decide, nofun⟩, ⟨SemUnits.valid_of_nonneg (by decide), by decide⟩, rfl, rfl, rfl,
    fun _ => ⟨.empty hring, rfl, rfl, Nat.zero_le _⟩, nofun⟩

/-- If no backspace and no interrupt character is typed at the end of the ring, then all accesses are
inside it; and as long as the ring is not full and nothing is being read when an interrupt character is
typed, the readers get what was typed, without what was erased. -/
theorem input_of_run {s : Ktty} (h : ktty.ReachesBy Ktty.InRange s) :
    s.Indexed ∧ (ktty.ReachesBy Ktty.Fits s → s.Faithful) :=
  ⟨(inside_of_run h).touched, fun hfits => (follows_of_run hfits).faithful⟩

theorem Ktty.Fits.inRange {s : Ktty} {op : KttyOp} (h : s.Fits op) : s.InRange op := by
  cases op with
  | putChar c => exact h.1
  | _ => trivial

/-- A line with a mistake is typed and read. -/
theorem input_of_line : ∃ s : Ktty, s.got = [97, 10] ∧ s.Indexed ∧ s.Faithful := by
  have hrun : (System.execBy Ktty.Fits (fun s op => (Ktty.step s op).map Prod.snd) initTerminal
      [.putChar 97, .putChar 98, .putChar 8, .putChar 10, .read 1 10, .readWait 0 none, .readLock 0,
        .readLoop 0, .readLoop 0]).any (fun s => s.got = [97, 10]) = true := by decide
  obtain ⟨s, hs, hgot⟩ := (Option.any_eq_true ..).1 hrun
  have hreach := System.ReachesBy.execBy (fun _ _ _ => ktty_step) (.init rfl) hs
  have hinput := input_of_run (hreach.mono fun _ _ => Ktty.Fits.inRange)
  exact ⟨s, of_decide_eq_true hgot, hinput.1, hinput.2 hreach⟩

/-- A line goes round the end of the ring. -/
theorem line_reaches (n : ℕ) (hn : n ≤ INPUT_BUFFER_SIZE) : ∃ s, ktty.Reachable s ∧
    s.draining = false ∧ s.canonical = true ∧ s.lineBufferSize = .ofNat n ∧
      s.inputWrite = n % INPUT_BUFFER_SIZE := by
  induction n with
  | zero => exact ⟨initTerminal, .init rfl, rfl, by decide, rfl, rfl⟩
  | succ n ih =>
    obtain ⟨s, hs, hdraining, hcanon, hsize, hwrite⟩ := ih (by omega)
    rw [Nat.mod_eq_of_lt (by omega)] at hwrite
    have hstep : s.step (.putChar 97) = some (.ok, (s.store 97).log (.typed 97)) := by
      have hstore : ¬((97 : UInt8) = BACKSPACE ∧ s.canonical = true) := fun hc => absurd hc.1 (by decide)
      have hline : ¬(s.canonical = false ∨ (97 : UInt8) = '\n'.toUInt8) := by
        rw [hcanon]
        decide
      simp only [Ktty.step, Ktty.termPutChar, hdraining, if_neg hstore, if_neg hline,
        if_pos (Ktty.signed_lt 97), Bool.false_eq_true, if_false, Option.map_some]
      rfl
    refine ⟨_, hs.step trivial ⟨_, hstep⟩, hdraining, hcanon, ?_, ?_⟩
    · show s.lineBufferSize + 1 = _
      rw [hsize, Int32.ofNat_add]
      rfl
    · show (if s.inputWrite + 1 = INPUT_BUFFER_SIZE then 0 else s.inputWrite + 1) = _
      rw [hwrite]
      split_ifs with hend
      · rw [hend, Nat.mod_self]
      · rw [Nat.mod_eq_of_lt (by omega)]

/-- After a line of `INPUT_BUFFER_SIZE` characters and a backspace, the next character is written behind
the ring. -/
theorem write_behind : ∃ s, ktty.Reachable s ∧ ¬s.Indexed := by
  obtain ⟨s, hs, hdraining, hcanon, hsize, hwrite⟩ := line_reaches INPUT_BUFFER_SIZE le_rfl
  rw [Nat.mod_self] at hwrite
  have hline : s.lineBufferSize ≠ 0 := by
    rw [hsize]
    decide
  have herase : s.step (.putChar BACKSPACE) = some (.ok, s.erase.log (.typed BACKSPACE)) := by
    simp only [Ktty.step, Ktty.termPutChar, hdraining, hcanon, Bool.false_eq_true, if_false, and_self,
      if_true]
  have hafter : s.erase.inputWrite = INPUT_BUFFER_SIZE := by
    unfold Ktty.erase
    rw [if_pos hline]
    exact if_pos hwrite
  obtain ⟨w, n, he⟩ := s.erase_eq
  have hcanon' : (s.erase.log (.typed BACKSPACE)).canonical = true := by
    rw [he]
    exact hcanon
  have hdraining' : (s.erase.log (.typed BACKSPACE)).draining = false := by
    rw [he]
    exact hdraining
  obtain ⟨r, t, hput, htouched⟩ : ∃ r t, (s.erase.log (.typed BACKSPACE)).step (.putChar 97) = some (r, t) ∧
      s.erase.inputWrite ∈ t.touched := by
    have hstore : ¬((97 : UInt8) = BACKSPACE ∧ (s.erase.log (.typed BACKSPACE)).canonical = true) :=
      fun hc => absurd hc.1 (by decide)
    have hend : ¬((s.erase.log (.typed BACKSPACE)).canonical = false ∨ (97 : UInt8) = '\n'.toUInt8) := by
      rw [hcanon']
      decide
    simp only [Ktty.step, Ktty.termPutChar, hdraining', if_neg hstore, if_neg hend,
      if_pos (Ktty.signed_lt 97), Bool.false_eq_true, if_false, Option.map_some]
    exact ⟨_, _, rfl, List.mem_append_right _ (List.mem_singleton_self _)⟩
  refine ⟨t, (hs.step trivial ⟨_, herase⟩).step trivial ⟨r, hput⟩, fun hindexed => ?_⟩
  have hlt := hindexed _ htouched
  rw [hafter] at hlt
  exact absurd hlt (lt_irrefl _)

end Glidix.Term
