import Mathlib.Algebra.Order.BigOperators.Group.List
import Mathlib.Algebra.Order.Ring.Nat
import Mathlib.Tactic.Common

/-!
# Output streams of the C library

`fwrite` copies its data into the buffer of a stream, flushes the buffer whenever it is full, and
flushes it at the end.  A flush hands the buffer to `write` and then takes it to be empty, however
much `write` has accepted.
-/

namespace Glidix.Libc.Stream

/-! ## Files -/

/-- The fields of `FILE` that concern output.  `mem` is what has been stored at the offsets from
`_buf` on, the pointers are such offsets, and `flush` tells whether `_flush` is `__fd_flush` or
`NULL`. -/
structure File where
  mem : ℕ → Option UInt8
  rdbuf : ℕ
  wrbuf : ℕ
  bufsiz : ℕ
  bufsizOrg : ℕ
  trigger : UInt8
  flush : Bool

/-- The calls of `write` on the descriptor: the data, and how many bytes of it were accepted. -/
abbrev Descriptor := List (List UInt8 × ℕ)

structure State where
  fp : File
  fd : Descriptor

/-- The bytes that the descriptor has accepted. -/
def accepted (fd : Descriptor) : List UInt8 := fd.flatMap fun call => call.1.take call.2

/-- `memcpy` to an offset. -/
def store (mem : ℕ → Option UInt8) (offset : ℕ) (data : List UInt8) : ℕ → Option UInt8 :=
  fun i => if offset ≤ i ∧ i < offset + data.length then data[i - offset]? else mem i

/-- What stands between `_rdbuf` and `_wrbuf`. -/
def File.content (fp : File) : List UInt8 :=
  (List.range (fp.wrbuf - fp.rdbuf)).map fun i => (fp.mem (fp.rdbuf + i)).getD 0

def File.emptied (fp : File) : File :=
  { fp with wrbuf := 0, rdbuf := 0, bufsiz := fp.bufsizOrg }

section Functions

variable (accept : ℕ → ℕ → ℕ)

/-- `__fd_flush`, which aborts where the pointers have crossed.  The `n`-th call of `write` accepts
`accept n size` bytes, and the result of the call is ignored. -/
def fdFlush (s : State) : Option State :=
  if s.fp.wrbuf < s.fp.rdbuf then none
  else some ⟨s.fp.emptied, s.fd ++ [(s.fp.content, accept s.fd.length s.fp.content.length)]⟩

def fflush (s : State) : Option State := do
  let s ← if s.fp.flush then fdFlush accept s else some s
  return { s with fp := { s.fp with bufsiz := s.fp.bufsizOrg } }

/-- The bytes go to `_wrbuf`, and the pointer moves behind them. -/
def File.put (fp : File) (data : List UInt8) : File :=
  { fp with mem := store fp.mem fp.wrbuf data, wrbuf := fp.wrbuf + data.length
            bufsiz := fp.bufsiz - data.length }

/-- The first loop of `fwrite`, which leaves bytes that fit into the buffer. -/
def fwriteLoop : ℕ → State → List UInt8 → Option (State × List UInt8)
  | 0, _, _ => none
  | fuel + 1, s, buf =>
    if s.fp.bufsiz < buf.length then
      if s.fp.flush then do
        let s' ← fflush accept { s with fp := s.fp.put (buf.take s.fp.bufsiz) }
        fwriteLoop fuel s' (buf.drop s.fp.bufsiz)
      else fwriteLoop fuel s (buf.take s.fp.bufsiz)
    else some (s, buf)

/-- The second loop, which looks for the trigger in as many bytes as were left, but from the start
of the data. -/
def triggerLoop (s : State) (scan : List UInt8) : Option State :=
  scan.foldlM (fun s c => if c = s.fp.trigger ∧ s.fp.flush then fflush accept s else some s) s

/-- `fwrite` of all the bytes of `data` to a file that is open for writing. -/
def fwrite (fuel : ℕ) (s : State) (data : List UInt8) : Option State := do
  let (s, buf) ← fwriteLoop accept fuel s data
  let s ← triggerLoop accept { s with fp := s.fp.put buf } (data.take buf.length)
  if s.fp.flush then fflush accept s else some s

inductive Call where
  | fwrite (data : List UInt8)
  | fflush

/-- The bytes that a call passes to the stream. -/
def Call.data : Call → List UInt8
  | .fwrite data => data
  | .fflush => []

def Call.perform (fuel : ℕ) (s : State) : Call → Option State
  | .fwrite data => Stream.fwrite accept fuel s data
  | .fflush => Stream.fflush accept s

/-- A sequence of calls. -/
def run (fuel : ℕ) (s : State) (calls : List Call) : Option State :=
  calls.foldlM (Call.perform accept fuel) s

end Functions

/-! ## What is handed to `write` -/

/-- The data up to a boundary of the buffer, `q` times, and what is left of it. -/
def pieces (size : ℕ) : ℕ → List UInt8 → List (List UInt8)
  | 0, data => [data]
  | q + 1, data => data.take size :: pieces size q (data.drop size)

/-- How often the data fill the buffer with more to follow. -/
def fills (size : ℕ) (data : List UInt8) : ℕ := (data.length - 1) / size

/-- How many bytes are left after that. -/
def rest (size : ℕ) (data : List UInt8) : ℕ := data.length - fills size data * size

/-- Each trigger among the bytes that are scanned is one more flush, of an empty buffer. -/
def triggers (size : ℕ) (trigger : UInt8) (data : List UInt8) : ℕ :=
  (data.take (rest size data)).count trigger

/-- What a call hands to `write`. -/
def Call.handed (size : ℕ) (trigger : UInt8) : Call → List (List UInt8)
  | .fwrite data => pieces size (fills size data) data ++
      List.replicate (triggers size trigger data) []
  | .fflush => [[]]

/-- The sizes that a call asks `write` to accept. -/
def Call.requests (size : ℕ) (trigger : UInt8) : Call → List ℕ
  | .fwrite data => List.replicate (fills size data) size ++
      rest size data :: List.replicate (triggers size trigger data) 0
  | .fflush => [0]

/-- The descriptor after further calls of `write`. -/
def logged (accept : ℕ → ℕ → ℕ) (fd : Descriptor) (handed : List (List UInt8)) : Descriptor :=
  handed.foldl (fun fd data => fd ++ [(data, accept fd.length data.length)]) fd

theorem pieces_flatten {size q : ℕ} {data : List UInt8} : (pieces size q data).flatten = data := by
  induction q generalizing data with
  | zero => simp [pieces]
  | succ q ih => rw [pieces, List.flatten_cons, ih, List.take_append_drop]

theorem pieces_length {size q : ℕ} {data : List UInt8} (h : q * size ≤ data.length) :
    (pieces size q data).map List.length = List.replicate q size ++ [data.length - q * size] := by
  induction q generalizing data with
  | zero => simp [pieces]
  | succ q ih =>
    rw [Nat.succ_mul] at h
    have hdrop : q * size ≤ (data.drop size).length := by rw [List.length_drop]; omega
    rw [pieces, List.map_cons, ih hdrop, List.replicate_succ, List.cons_append, List.length_drop,
      List.length_take, Nat.min_eq_left (by omega), Nat.succ_mul, Nat.sub_sub, Nat.add_comm size]

theorem fills_mul_le {size : ℕ} {data : List UInt8} : fills size data * size ≤ data.length :=
  (Nat.div_mul_le_self _ _).trans (Nat.sub_le _ _)

theorem handed_flatten {size : ℕ} {trigger : UInt8} (call : Call) :
    (call.handed size trigger).flatten = call.data := by
  cases call with
  | fwrite data => simp [Call.handed, Call.data, pieces_flatten]
  | fflush => rfl

theorem handed_length {size : ℕ} {trigger : UInt8} (call : Call) :
    (call.handed size trigger).map List.length = call.requests size trigger := by
  cases call with
  | fwrite data =>
    rw [Call.handed, List.map_append, pieces_length fills_mul_le, List.map_replicate,
      List.append_assoc]
    rfl
  | fflush => rfl

/-! ## The descriptor -/

section Logged

variable {accept : ℕ → ℕ → ℕ} {fd : Descriptor} {handed : List (List UInt8)}

theorem logged_append {more : List (List UInt8)} :
    logged accept fd (handed ++ more) = logged accept (logged accept fd handed) more :=
  List.foldl_append

/-- The calls of `write` come in the order of the data, and the number of a call is its position. -/
theorem logged_eq : logged accept fd handed =
    fd ++ handed.mapIdx fun i data => (data, accept (fd.length + i) data.length) := by
  induction handed generalizing fd with
  | nil => simp [logged]
  | cons data handed ih =>
    have hstep : logged accept fd (data :: handed) =
        logged accept (fd ++ [(data, accept fd.length data.length)]) handed := rfl
    rw [hstep, ih, List.mapIdx_cons, List.append_assoc]
    simp [Nat.add_comm, Nat.add_left_comm]

/-- Bytes are lost as soon as one call accepts less than it was given. -/
theorem accepted_eq_iff (h : ∀ call ∈ fd, call.2 ≤ call.1.length) :
    accepted fd = fd.flatMap Prod.fst ↔ ∀ call ∈ fd, call.2 = call.1.length := by
  constructor
  · intro heq
    have hsum : (fd.map Prod.snd).sum = (fd.map fun call => call.1.length).sum := by
      have hlen := congrArg List.length heq
      rw [accepted, List.length_flatMap, List.length_flatMap] at hlen
      refine Eq.trans (congrArg List.sum (List.map_congr_left fun call hc => ?_)) hlen
      rw [List.length_take, Nat.min_eq_left (h call hc)]
    intro call hcall
    by_contra hne
    have hlt := List.sum_lt_sum (l := fd) Prod.snd (fun call => call.1.length) h
      ⟨call, hcall, lt_of_le_of_ne (h call hcall) hne⟩
    omega
  · intro hall
    refine List.flatMap_congr fun call hc => ?_
    rw [hall call hc, List.take_length]

end Logged

/-! ## Calls -/

section Calls

variable {accept : ℕ → ℕ → ℕ} {fp : File} {fd : Descriptor} {buf data : List UInt8}

/-- A stream that is flushed by `__fd_flush`, with `buf` in its buffer. -/
structure Filled (fp : File) (buf : List UInt8) : Prop where
  flush : fp.flush = true
  rdbuf : fp.rdbuf = 0
  content : fp.content = buf
  room : fp.wrbuf + fp.bufsiz = fp.bufsizOrg

theorem content_put (h : fp.rdbuf = 0) : (fp.put data).content = fp.content ++ data := by
  apply List.ext_getElem
  · simp [File.content, File.put, h]
  · intro i hi _
    have hlt : i < fp.wrbuf + data.length := by simpa [File.content, File.put, h] using hi
    by_cases hold : i < fp.wrbuf
    · rw [List.getElem_append_left (by simpa [File.content, h] using hold)]
      simp [File.content, File.put, store, h, Nat.not_le.2 hold]
    · obtain ⟨j, rfl⟩ : ∃ j, i = fp.wrbuf + j := ⟨i - fp.wrbuf, by omega⟩
      have hj : j < data.length := by omega
      rw [List.getElem_append_right (by simp [File.content, h])]
      simp [File.content, File.put, store, h, hj]

theorem Filled.put (h : Filled fp buf) (hfits : data.length ≤ fp.bufsiz) :
    Filled (fp.put data) (buf ++ data) where
  flush := h.flush
  rdbuf := h.rdbuf
  content := by rw [content_put h.rdbuf, h.content]
  room := by
    have := h.room
    simp only [File.put]
    omega

theorem filled_emptied (h : fp.flush = true) : Filled fp.emptied [] where
  flush := h
  rdbuf := rfl
  content := rfl
  room := Nat.zero_add _

/-- A flush hands over the buffer and empties it. -/
theorem fflush_filled (h : Filled fp buf) :
    fflush accept ⟨fp, fd⟩ = some ⟨fp.emptied, logged accept fd [buf]⟩ := by
  have hcross : ¬fp.wrbuf < fp.rdbuf := by rw [h.rdbuf]; exact Nat.not_lt_zero _
  simp only [fflush, fdFlush, h.flush, hcross, if_true, if_false, h.content]
  rfl

/-- The triggers are flushes, of which the first finds the buffer filled. -/
theorem triggerLoop_filled (h : Filled fp buf) (scan : List UInt8) :
    ((triggerLoop accept ⟨fp, fd⟩ scan).bind fun s =>
        if s.fp.flush then fflush accept s else some s) =
      some ⟨fp.emptied, logged accept fd (buf :: List.replicate (scan.count fp.trigger) [])⟩ := by
  induction scan generalizing fp fd buf with
  | nil => exact (if_pos h.flush).trans (fflush_filled h)
  | cons c scan ih =>
    have hstep : triggerLoop accept ⟨fp, fd⟩ (c :: scan) =
        (if c = fp.trigger ∧ fp.flush then fflush accept ⟨fp, fd⟩ else some ⟨fp, fd⟩).bind
          fun s => triggerLoop accept s scan := rfl
    by_cases hc : c = fp.trigger
    · rw [hstep, if_pos ⟨hc, h.flush⟩, fflush_filled h, Option.bind_some, ih (filled_emptied h.flush),
        ← logged_append, hc, List.count_cons_self, List.replicate_succ]
      rfl
    · rw [hstep, if_neg fun hand => hc hand.1, Option.bind_some, ih h, List.count_cons_of_ne hc]

theorem Filled.wrbuf (h : Filled fp buf) : fp.wrbuf = buf.length := by
  rw [← h.content, File.content, List.length_map, List.length_range, h.rdbuf, Nat.sub_zero]

theorem Filled.bufsiz (h : Filled fp []) : fp.bufsiz = fp.bufsizOrg := by
  have hroom := h.room
  rw [h.wrbuf, List.length_nil] at hroom
  omega

theorem fills_of_le {size : ℕ} (h : data.length ≤ size) (hsize : 0 < size) :
    fills size data = 0 :=
  Nat.div_eq_of_lt (by omega)

theorem fills_of_lt {size : ℕ} (h : size < data.length) (hsize : 0 < size) :
    fills size data = fills size (data.drop size) + 1 := by
  rw [fills, Nat.div_eq_sub_div hsize (by omega), fills, List.length_drop, Nat.sub_right_comm]

theorem rest_of_lt {size : ℕ} (h : size < data.length) (hsize : 0 < size) :
    rest size data = rest size (data.drop size) := by
  rw [rest, fills_of_lt h hsize, Nat.succ_mul, rest, List.length_drop, Nat.sub_sub, Nat.add_comm]

/-- The first loop hands over all the pieces but the last, which fits into the buffer that it leaves
empty. -/
theorem fwriteLoop_filled {fuel : ℕ} (h : Filled fp []) (hsize : 0 < fp.bufsizOrg)
    (hfuel : data.length < fuel) : ∃ fp' full last,
      fwriteLoop accept fuel ⟨fp, fd⟩ data = some (⟨fp', logged accept fd full⟩, last) ∧
      Filled fp' [] ∧ fp'.bufsizOrg = fp.bufsizOrg ∧ fp'.trigger = fp.trigger ∧
      pieces fp.bufsizOrg (fills fp.bufsizOrg data) data = full ++ [last] ∧
      last.length = rest fp.bufsizOrg data ∧ last.length ≤ fp.bufsizOrg := by
  induction fuel generalizing fp fd data with
  | zero => omega
  | succ fuel ih =>
    by_cases hfull : fp.bufsizOrg < data.length
    · have htake : (data.take fp.bufsizOrg).length ≤ fp.bufsiz := by
        rw [h.bufsiz, List.length_take]
        exact Nat.min_le_left _ _
      have hput := h.put htake
      have hdrop : (data.drop fp.bufsizOrg).length < fuel := by rw [List.length_drop]; omega
      obtain ⟨fp', full, last, hloop, hfilled, horg, htrig, hpieces, hlen, hle⟩ :=
        @ih (fp.put (data.take fp.bufsizOrg)).emptied (logged accept fd [data.take fp.bufsizOrg])
          (data.drop fp.bufsizOrg) (filled_emptied h.flush) hsize hdrop
      refine ⟨fp', data.take fp.bufsizOrg :: full, last, ?_, hfilled, horg, htrig, ?_, ?_, hle⟩
      · rw [fwriteLoop, if_pos (by rwa [h.bufsiz]), if_pos h.flush, h.bufsiz]
        change (fflush accept ⟨fp.put (data.take fp.bufsizOrg), fd⟩).bind _ = _
        rw [fflush_filled hput, Option.bind_some, List.nil_append]
        exact hloop
      · rw [fills_of_lt hfull hsize]
        exact congrArg (List.cons _) hpieces
      · rw [rest_of_lt hfull hsize]
        exact hlen
    · have hle : data.length ≤ fp.bufsizOrg := Nat.not_lt.1 hfull
      refine ⟨fp, [], data, ?_, h, rfl, rfl, ?_, ?_, hle⟩
      · rw [fwriteLoop, if_neg (by rwa [h.bufsiz])]
        rfl
      · rw [fills_of_le hle hsize]
        rfl
      · rw [rest, fills_of_le hle hsize, Nat.zero_mul, Nat.sub_zero]

/-- A call leaves the buffer empty and makes exactly its calls of `write`. -/
theorem perform_filled {fuel : ℕ} (call : Call) (h : Filled fp []) (hsize : 0 < fp.bufsizOrg)
    (hfuel : ∀ data, call = .fwrite data → data.length < fuel) : ∃ fp', Filled fp' [] ∧
      fp'.bufsizOrg = fp.bufsizOrg ∧ fp'.trigger = fp.trigger ∧ call.perform accept fuel ⟨fp, fd⟩ =
        some ⟨fp', logged accept fd (call.handed fp.bufsizOrg fp.trigger)⟩ := by
  cases call with
  | fflush => exact ⟨fp.emptied, filled_emptied h.flush, rfl, rfl, fflush_filled h⟩
  | fwrite data =>
    obtain ⟨fp', full, last, hloop, hfilled, horg, htrig, hpieces, hlen, hle⟩ :=
      @fwriteLoop_filled accept fp fd data fuel h hsize (hfuel data rfl)
    have hput : Filled (fp'.put last) last := hfilled.put (by rwa [hfilled.bufsiz, horg])
    refine ⟨(fp'.put last).emptied, filled_emptied hfilled.flush, horg, htrig, ?_⟩
    rw [Call.handed, hpieces, List.append_assoc, logged_append, triggers, ← htrig, ← hlen]
    change (fwriteLoop accept fuel ⟨fp, fd⟩ data).bind _ = _
    rw [hloop]
    exact triggerLoop_filled hput (data.take last.length)

/-- The data of a sequence of calls, in order. -/
def written (calls : List Call) : List UInt8 := calls.flatMap Call.data

/-- A sequence of calls makes the calls of `write` of its members, one after the other. -/
theorem run_filled {fuel : ℕ} (calls : List Call) (h : Filled fp []) (hsize : 0 < fp.bufsizOrg)
    (hfuel : ∀ data, .fwrite data ∈ calls → data.length < fuel) : ∃ fp', Filled fp' [] ∧
      run accept fuel ⟨fp, fd⟩ calls = some ⟨fp',
        logged accept fd (calls.flatMap (Call.handed fp.bufsizOrg fp.trigger))⟩ := by
  induction calls generalizing fp fd with
  | nil => exact ⟨fp, h, rfl⟩
  | cons call calls ih =>
    obtain ⟨fp₁, h₁, horg, htrig, hcall⟩ := @perform_filled accept fp fd fuel call h hsize
      fun data hdata => hfuel data (hdata ▸ List.mem_cons_self)
    obtain ⟨fp₂, h₂, hcalls⟩ :=
      @ih fp₁ (logged accept fd (call.handed fp.bufsizOrg fp.trigger)) h₁ (horg ▸ hsize)
        fun data hdata => hfuel data (List.mem_cons_of_mem _ hdata)
    refine ⟨fp₂, h₂, ?_⟩
    rw [List.flatMap_cons, logged_append]
    change (call.perform accept fuel ⟨fp, fd⟩).bind _ = _
    rw [hcall, Option.bind_some]
    rwa [horg, htrig] at hcalls

/-- Only the sizes matter for what the descriptor accepts. -/
theorem accepted_logged_iff {handed : List (List UInt8)} (haccept : ∀ n size, accept n size ≤ size) :
    accepted (logged accept [] handed) = handed.flatten ↔
      ∀ n size, (handed.map List.length)[n]? = some size → accept n size = size := by
  have hfst : (logged accept [] handed).flatMap Prod.fst = handed.flatten := by
    rw [logged_eq, List.nil_append, List.flatMap_def]
    congr 1
    exact List.ext_getElem (by simp) fun n _ _ => by simp
  rw [← hfst, accepted_eq_iff, logged_eq]
  · simp only [List.nil_append, List.length_nil, Nat.zero_add, List.mem_mapIdx]
    constructor
    · intro hall n size hget
      rw [List.getElem?_map] at hget
      obtain ⟨data, hdata, rfl⟩ := Option.map_eq_some_iff.1 hget
      obtain ⟨hlt, rfl⟩ := List.getElem?_eq_some_iff.1 hdata
      exact hall _ ⟨n, hlt, rfl⟩
    · rintro hall _ ⟨n, hlt, rfl⟩
      exact hall n _ (by simp [hlt])
  · rw [logged_eq]
    intro call hcall
    obtain ⟨n, hlt, rfl⟩ := List.mem_mapIdx.1 hcall
    exact haccept _ _

end Calls

/-! ## Delivery -/

/-- A stream that has just been opened for writing. -/
def File.opened (size : ℕ) (trigger : UInt8) : File where
  mem _ := none
  rdbuf := 0
  wrbuf := 0
  bufsiz := size
  bufsizOrg := size
  trigger := trigger
  flush := true

/-- `write` accepts a positive number of bytes, up to the number requested. -/
structure Accepts (accept : ℕ → ℕ → ℕ) : Prop where
  le : ∀ n size, accept n size ≤ size
  pos : ∀ n size, 0 < size → 0 < accept n size

theorem filled_opened (size : ℕ) (trigger : UInt8) : Filled (File.opened size trigger) [] where
  flush := rfl
  rdbuf := rfl
  content := rfl
  room := Nat.zero_add _

/-- The calls always end.  After an `fflush` the descriptor has accepted what was written exactly if
every call of `write` so far has accepted all that it was asked to. -/
theorem fflush_delivers_iff {size fuel : ℕ} {trigger : UInt8} {accept : ℕ → ℕ → ℕ}
    (hsize : 0 < size) (haccept : Accepts accept) (calls : List Call)
    (hfuel : ∀ data, .fwrite data ∈ calls → data.length < fuel) : ∃ s,
      run accept fuel ⟨File.opened size trigger, []⟩ (calls ++ [Call.fflush]) = some s ∧
      (accepted s.fd = written calls ↔ ∀ n k,
        ((calls ++ [Call.fflush]).flatMap (Call.requests size trigger))[n]? = some k →
          accept n k = k) := by
  have hfuels : ∀ data, .fwrite data ∈ calls ++ [Call.fflush] → data.length < fuel :=
    fun data hdata => hfuel data (by simpa using hdata)
  obtain ⟨fp', -, hrun⟩ := @run_filled accept (File.opened size trigger) [] fuel _
    (filled_opened size trigger) hsize hfuels
  have hdata : ((calls ++ [Call.fflush]).flatMap (Call.handed size trigger)).flatten =
      written calls := by
    rw [List.flatMap_def, List.flatten_flatten, List.map_map, written, List.flatMap_def,
      List.map_append, List.flatten_append]
    simp only [Function.comp_def, handed_flatten]
    exact List.append_nil _
  have hsizes : ((calls ++ [Call.fflush]).flatMap (Call.handed size trigger)).map List.length =
      (calls ++ [Call.fflush]).flatMap (Call.requests size trigger) := by
    rw [List.map_flatMap]
    exact List.flatMap_congr fun call _ => handed_length call
  refine ⟨_, hrun, ?_⟩
  rw [← hdata, ← hsizes]
  exact accepted_logged_iff haccept.le

/-- Three bytes for a buffer of two, and a descriptor that takes whatever it is given. -/
theorem fflush_delivers_three : ∃ s,
    run (fun _ size => size) 4 ⟨File.opened 2 10, []⟩ [.fwrite [97, 98, 10], .fflush] = some s ∧
      accepted s.fd = [97, 98, 10] := by
  obtain ⟨s, hrun, hiff⟩ := @fflush_delivers_iff 2 4 10 (fun _ size => size) (by decide)
    ⟨fun _ _ => le_rfl, fun _ _ h => h⟩ [.fwrite [97, 98, 10]] (by simp)
  exact ⟨s, hrun, hiff.2 fun _ _ _ => rfl⟩

/-- A descriptor that takes one byte of two: the other is lost. -/
theorem fflush_loses : ¬ ∀ size trigger accept, 0 < size → Accepts accept → ∀ calls, ∃ fuel s,
    run accept fuel ⟨File.opened size trigger, []⟩ (calls ++ [Call.fflush]) = some s ∧
      accepted s.fd = written calls := by
  intro h
  obtain ⟨fuel, s, hrun, hall⟩ := h 2 10 (fun _ size => min size 1) (by decide)
    ⟨fun _ _ => Nat.min_le_left _ _, fun _ _ hpos => lt_min hpos Nat.one_pos⟩ [.fwrite [97, 98]]
  cases fuel with
  | zero => cases hrun
  | succ fuel =>
    have hfd : s.fd = [([97, 98], 1), ([], 0)] := by
      cases hrun
      rfl
    rw [hfd] at hall
    exact absurd hall (by decide)

end Glidix.Libc.Stream
