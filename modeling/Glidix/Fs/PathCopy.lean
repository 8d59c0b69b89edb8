import Glidix.Fs.SysMv

/-!
# Copying a path from the caller

Here `strcpy_u2k` works on the buffer and on the registers that `catch` stores, which say where an
exception goes.  Its `count` stays 0 and it returns from the protected block without `uncatch`, so
that all of a string is stored, however long it is (`copyLoop_string`), and the thread goes on
catching (`strcpy_u2k_right_iff`).
-/

namespace Glidix.Fs

def USER_STRING_MAX : ℕ := 1024

/-- `catchRegs` of a thread that is catching exceptions: its `rip` is not 0 then. -/
structure CatchRegs where
  rbx : UInt64
  rsp : UInt64
  rbp : UInt64
  r12 : UInt64
  r13 : UInt64
  r14 : UInt64
  r15 : UInt64
  rip : UInt64
  deriving DecidableEq

/-- The memory from the start of the buffer on, the number of bytes stored there so far, and what the
thread does on exceptions. -/
structure CopyState where
  dst : ℕ → UInt8
  stored : ℕ
  catchRegs : Option CatchRegs

namespace CopyState

/-- `*dst++ = c`. -/
def put (s : CopyState) (c : UInt8) : CopyState :=
  { s with dst := Function.update s.dst s.stored c, stored := s.stored + 1 }

/-- `catch`, called with these registers. -/
def catching (s : CopyState) (regs : CatchRegs) : CopyState := { s with catchRegs := some regs }

/-- `throw` goes back to the `catch`, and stops catching. -/
def throw (s : CopyState) : CopyState := { s with catchRegs := none }

end CopyState

theorem toNat_add_one {addr : UInt64} (h : ¬ ADDR_MAX ≤ addr) :
    (addr + 1).toNat = addr.toNat + 1 ∧ addr.toNat < ADDR_MAX.toNat := by
  rw [UInt64.le_iff_toNat_le] at h
  rw [UInt64.toNat_add]
  have hmax : ADDR_MAX.toNat = 0x8000000000 := by decide
  have hone : (1 : UInt64).toNat = 1 := rfl
  omega

/-- The `while` loop of `strcpy_u2k`. -/
def copyLoop (mem : Mapped) (count : ℕ) (addr : UInt64) (s : CopyState) : ℤ × CopyState :=
  if h : ADDR_MAX ≤ addr then (-1, s)
  else if count = USER_STRING_MAX - 1 then (-1, s)
  else
    match mem addr with
    | none => (-1, s.throw)
    | some c => if c = 0 then (0, s.put c) else copyLoop mem count (addr + 1) (s.put c)
termination_by ADDR_MAX.toNat - addr.toNat
decreasing_by
  have := toNat_add_one h
  omega

def CopyState.strcpy_u2k (s : CopyState) (mem : Mapped) (regs : CatchRegs) (src : UInt64) :
    ℤ × CopyState :=
  copyLoop mem 0 src ({ s with stored := 0 }.catching regs)

/-! ## Strings of the caller -/

/-- The bytes `l` are read from `addr` on, below `ADDR_MAX` and without a page fault; none is 0, and
`stop` is the address behind them. -/
def UserBytes (mem : Mapped) : UInt64 → List UInt8 → UInt64 → Prop
  | addr, [], stop => addr = stop
  | addr, c :: l, stop =>
    ¬ ADDR_MAX ≤ addr ∧ mem addr = some c ∧ c ≠ 0 ∧ UserBytes mem (addr + 1) l stop

/-- The string `l` of the caller is at `src`. -/
def UserString (mem : Mapped) (src : UInt64) (l : List UInt8) : Prop :=
  ∃ stop, UserBytes mem src l stop ∧ ¬ ADDR_MAX ≤ stop ∧ mem stop = some 0

/-- What a copy from `src` is to do. -/
structure CopiesString (mem : Mapped) (src : UInt64) (s : CopyState) (r : ℤ × CopyState) : Prop where
  bounded : r.2.stored ≤ USER_STRING_MAX
  zero_iff : r.1 = 0 ↔ ∃ l, UserString mem src l ∧ l.length < USER_STRING_MAX
  string : ∀ l, UserString mem src l → r.1 = 0 → ∀ i ≤ l.length, r.2.dst i = l.getD i 0
  failed : r.1 ≠ 0 → r.1 = -1
  catchRegs : r.2.catchRegs = s.catchRegs

/-- The copy stops in time, and leaves `catchRegs` as they were: at a page fault when the thread was
not catching, and elsewhere when its registers were those that `catch` stores here. -/
def StopsInTime (mem : Mapped) (src : UInt64) (s : CopyState) (regs : CatchRegs) : Prop :=
  ∃ l stop, UserBytes mem src l stop ∧
    ((ADDR_MAX ≤ stop ∧ l.length ≤ USER_STRING_MAX ∧ s.catchRegs = some regs) ∨
      (¬ ADDR_MAX ≤ stop ∧ mem stop = none ∧ l.length ≤ USER_STRING_MAX ∧ s.catchRegs = none) ∨
      (¬ ADDR_MAX ≤ stop ∧ mem stop = some 0 ∧ l.length < USER_STRING_MAX ∧
        s.catchRegs = some regs))

section Copy

variable {mem : Mapped} {addr src stop stop' : UInt64} {l l' : List UInt8} {s : CopyState}
  {regs : CatchRegs}

/-- The copy stops at this address. -/
def StopsAt (mem : Mapped) (stop : UInt64) : Prop :=
  ADDR_MAX ≤ stop ∨ mem stop = none ∨ mem stop = some 0

/-- Every copy stops. -/
theorem exists_stop (mem : Mapped) (addr : UInt64) :
    ∃ l stop, UserBytes mem addr l stop ∧ StopsAt mem stop := by
  induction hn : ADDR_MAX.toNat - addr.toNat generalizing addr with
  | zero =>
    refine ⟨[], addr, rfl, Or.inl ?_⟩
    rw [UInt64.le_iff_toNat_le]
    omega
  | succ n ih =>
    by_cases hstop : StopsAt mem addr
    · exact ⟨[], addr, rfl, hstop⟩
    · obtain ⟨hmax, hnone, hzero⟩ : ¬ ADDR_MAX ≤ addr ∧ mem addr ≠ none ∧ mem addr ≠ some 0 := by
        simpa [StopsAt, not_or] using hstop
      obtain ⟨c, hc⟩ := Option.ne_none_iff_exists'.1 hnone
      have hnext := toNat_add_one hmax
      obtain ⟨l, stop, hl, hstop'⟩ := ih (addr + 1) (by omega)
      exact ⟨c :: l, stop, ⟨hmax, hc, fun h => hzero (h ▸ hc), hl⟩, hstop'⟩

/-- There is one place to stop. -/
theorem UserBytes.unique (h : UserBytes mem addr l stop) (h' : UserBytes mem addr l' stop')
    (hstop : StopsAt mem stop) (hstop' : StopsAt mem stop') : l = l' ∧ stop = stop' := by
  have hgoes : ∀ {a c}, ¬ ADDR_MAX ≤ a → mem a = some c → c ≠ 0 → ¬ StopsAt mem a := by
    rintro a c hmax hc hne (hle | hnone | hzero)
    · exact hmax hle
    · exact absurd (hc.symm.trans hnone) (Option.some_ne_none c)
    · exact hne (Option.some.inj (hc.symm.trans hzero))
  induction l generalizing addr l' with
  | nil =>
    obtain rfl : addr = stop := h
    cases l' with
    | nil => exact ⟨rfl, h'⟩
    | cons c l' => exact absurd hstop (hgoes h'.1 h'.2.1 h'.2.2.1)
  | cons c l ih =>
    obtain ⟨hmax, hc, hne, hl⟩ := h
    cases l' with
    | nil =>
      obtain rfl : addr = stop' := h'
      exact absurd hstop' (hgoes hmax hc hne)
    | cons c' l' =>
      obtain ⟨-, hc', -, hl'⟩ := h'
      obtain rfl : c = c' := Option.some.inj (hc.symm.trans hc')
      exact (ih hl hl').imp_left (congrArg _)

/-- The loop stores the bytes up to an address. -/
theorem copyLoop_bytes (h : UserBytes mem addr l stop) (s : CopyState) :
    copyLoop mem 0 addr s = copyLoop mem 0 stop (l.foldl CopyState.put s) := by
  induction l generalizing addr s with
  | nil => rw [show addr = stop from h]; rfl
  | cons c l ih =>
    obtain ⟨hmax, hc, hne, hl⟩ := h
    rw [copyLoop, dif_neg hmax, if_neg (by decide), hc]
    simp only [if_neg hne]
    exact ih hl (s.put c)

/-- Bytes are stored one after the other, and nothing else changes. -/
theorem foldl_put (l : List UInt8) (s : CopyState) :
    (l.foldl CopyState.put s).stored = s.stored + l.length ∧
      (l.foldl CopyState.put s).catchRegs = s.catchRegs ∧
      (∀ i < s.stored, (l.foldl CopyState.put s).dst i = s.dst i) ∧
      ∀ i < l.length, (l.foldl CopyState.put s).dst (s.stored + i) = l.getD i 0 := by
  induction l generalizing s with
  | nil => exact ⟨rfl, rfl, fun i hi => rfl, fun i hi => absurd hi (Nat.not_lt_zero i)⟩
  | cons c l ih =>
    obtain ⟨hstored, hregs, hbelow, hbytes⟩ := ih (s.put c)
    have hput : (s.put c).stored = s.stored + 1 := rfl
    rw [List.foldl_cons]
    refine ⟨?_, hregs, fun i hi => ?_, fun i hi => ?_⟩
    · rw [hstored, hput, List.length_cons]
      omega
    · rw [hbelow i (by omega)]
      exact Function.update_of_ne (Nat.ne_of_lt hi) c s.dst
    · cases i with
      | zero =>
        refine (hbelow s.stored (by omega)).trans ?_
        exact Function.update_self s.stored c s.dst
      | succ i =>
        rw [show s.stored + (i + 1) = (s.put c).stored + i by omega]
        exact hbytes i (Nat.lt_of_succ_lt_succ hi)

/-- At the end of the user range. -/
theorem strcpy_u2k_limit (s : CopyState) (regs : CatchRegs) (h : UserBytes mem src l stop) (hstop : ADDR_MAX ≤ stop) :
    (s.strcpy_u2k mem regs src).1 = -1 ∧ (s.strcpy_u2k mem regs src).2.stored = l.length ∧
      (s.strcpy_u2k mem regs src).2.catchRegs = some regs := by
  obtain ⟨hstored, hregs, -⟩ := foldl_put l ({ s with stored := 0 }.catching regs)
  rw [CopyState.strcpy_u2k, copyLoop_bytes h, copyLoop, dif_pos hstop]
  exact ⟨rfl, hstored.trans (Nat.zero_add _), hregs⟩

/-- At a page fault. -/
theorem strcpy_u2k_fault (s : CopyState) (regs : CatchRegs) (h : UserBytes mem src l stop) (hstop : ¬ ADDR_MAX ≤ stop)
    (hmem : mem stop = none) :
    (s.strcpy_u2k mem regs src).1 = -1 ∧ (s.strcpy_u2k mem regs src).2.stored = l.length ∧
      (s.strcpy_u2k mem regs src).2.catchRegs = none := by
  obtain ⟨hstored, -⟩ := foldl_put l ({ s with stored := 0 }.catching regs)
  rw [CopyState.strcpy_u2k, copyLoop_bytes h, copyLoop, dif_neg hstop, if_neg (by decide), hmem]
  exact ⟨rfl, hstored.trans (Nat.zero_add _), rfl⟩

/-- A string is copied whole, whatever its length, and the thread goes on catching. -/
theorem strcpy_u2k_string (s : CopyState) (regs : CatchRegs) (h : UserString mem src l) :
    (s.strcpy_u2k mem regs src).1 = 0 ∧ (s.strcpy_u2k mem regs src).2.stored = l.length + 1 ∧
      (s.strcpy_u2k mem regs src).2.catchRegs = some regs ∧
      ∀ i ≤ l.length, (s.strcpy_u2k mem regs src).2.dst i = l.getD i 0 := by
  obtain ⟨stop, hl, hstop, hmem⟩ := h
  obtain ⟨hstored, hregs, -, hbytes⟩ := foldl_put l ({ s with stored := 0 }.catching regs)
  have hlen : (l.foldl CopyState.put ({ s with stored := 0 }.catching regs)).stored = l.length :=
    hstored.trans (Nat.zero_add _)
  rw [CopyState.strcpy_u2k, copyLoop_bytes hl, copyLoop, dif_neg hstop, if_neg (by decide), hmem]
  refine ⟨rfl, congrArg (· + 1) hlen, hregs, fun i hi => ?_⟩
  simp only [if_true, CopyState.put, hlen]
  rcases Nat.lt_or_eq_of_le hi with hlt | rfl
  · rw [Function.update_of_ne (Nat.ne_of_lt hlt), ← hbytes i hlt]
    exact congrArg _ (Nat.zero_add i).symm
  · rw [Function.update_self, List.getD_eq_getElem?_getD, List.getElem?_eq_none (Nat.le_refl _), Option.getD_none]

/-- There is no string where the copy stops for another reason. -/
theorem not_userString (h : UserBytes mem src l stop) (hstop : ADDR_MAX ≤ stop ∨ mem stop = none) :
    ¬ UserString mem src l' := by
  rintro ⟨stop', hl', hmax, hzero⟩
  obtain ⟨-, rfl⟩ := h.unique hl' (hstop.imp_right Or.inl) (Or.inr (Or.inr hzero))
  rcases hstop with hle | hnone
  · exact hmax hle
  · exact absurd (hnone.symm.trans hzero) (by simp)

theorem UserString.unique (h : UserString mem src l) (h' : UserString mem src l') : l = l' := by
  obtain ⟨stop, hl, -, hzero⟩ := h
  obtain ⟨stop', hl', -, hzero'⟩ := h'
  exact (hl.unique hl' (Or.inr (Or.inr hzero)) (Or.inr (Or.inr hzero'))).1

/-- A failed copy that stays in the buffer and leaves `catchRegs` alone is right. -/
theorem CopiesString.of_failed {r : ℤ × CopyState} (hr : r.1 = -1)
    (hstring : ∀ l, ¬ UserString mem src l) (hstored : r.2.stored ≤ USER_STRING_MAX)
    (hregs : r.2.catchRegs = s.catchRegs) : CopiesString mem src s r where
  bounded := hstored
  zero_iff := by
    rw [hr]
    constructor
    · intro h
      exact absurd h (by decide)
    · rintro ⟨l, hl, -⟩
      exact absurd hl (hstring l)
  string l hl := absurd hl (hstring l)
  failed _ := hr
  catchRegs := hregs

/-- `strcpy_u2k` does what it is to do if and only if the copy stops in time and the thread began with
the `catchRegs` that it ends with. -/
theorem strcpy_u2k_right_iff (mem : Mapped) (src : UInt64) (s : CopyState) (regs : CatchRegs) :
    CopiesString mem src s (s.strcpy_u2k mem regs src) ↔ StopsInTime mem src s regs := by
  constructor
  · intro h
    obtain ⟨l, stop, hl, hstop⟩ := exists_stop mem src
    refine ⟨l, stop, hl, ?_⟩
    by_cases hmax : ADDR_MAX ≤ stop
    · obtain ⟨-, hstored, hregs⟩ := strcpy_u2k_limit s regs hl hmax
      exact Or.inl ⟨hmax, hstored ▸ h.bounded, h.catchRegs.symm.trans hregs⟩
    · rcases hstop.resolve_left hmax with hnone | hzero
      · obtain ⟨-, hstored, hregs⟩ := strcpy_u2k_fault s regs hl hmax hnone
        exact Or.inr (Or.inl ⟨hmax, hnone, hstored ▸ h.bounded, h.catchRegs.symm.trans hregs⟩)
      · obtain ⟨-, hstored, hregs, -⟩ :=
          strcpy_u2k_string s regs ⟨stop, hl, hmax, hzero⟩
        exact Or.inr (Or.inr ⟨hmax, hzero, by have := h.bounded; omega, h.catchRegs.symm.trans hregs⟩)
  · rintro ⟨l, stop, hl, ⟨hmax, hlen, hcatch⟩ | ⟨hmax, hnone, hlen, hcatch⟩ |
      ⟨hmax, hzero, hlen, hcatch⟩⟩
    · obtain ⟨hr, hstored, hregs⟩ := strcpy_u2k_limit s regs hl hmax
      exact .of_failed hr (fun l' => not_userString hl (Or.inl hmax)) (hstored ▸ hlen)
        (hregs.trans hcatch.symm)
    · obtain ⟨hr, hstored, hregs⟩ := strcpy_u2k_fault s regs hl hmax hnone
      exact .of_failed hr (fun l' => not_userString hl (Or.inr hnone)) (hstored ▸ hlen)
        (hregs.trans hcatch.symm)
    · have hstring : UserString mem src l := ⟨stop, hl, hmax, hzero⟩
      obtain ⟨hr, hstored, hregs, hbytes⟩ := strcpy_u2k_string s regs hstring
      exact {
        bounded := hstored ▸ hlen
        zero_iff := ⟨fun _ => ⟨l, hstring, hlen⟩, fun _ => hr⟩
        string := fun l' hl' _ => hstring.unique hl' ▸ hbytes
        failed := fun hne => absurd hr hne
        catchRegs := hregs.trans hcatch.symm }

/-- The string that `sys_mv` would get from `strcpy_u2k` is the string of the caller. -/
theorem UserString.of_strcpy_u2k {fuel : ℕ} {cs : List Char}
    (h : strcpy_u2k mem fuel src = some cs) :
    ∃ l, UserString mem src l ∧ cs = l.map fun c => Char.ofNat c.toNat := by
  induction fuel generalizing src cs with
  | zero => cases h
  | succ fuel ih =>
    rw [Fs.strcpy_u2k] at h
    split_ifs at h with hmax
    cases hc : mem src with
    | none =>
      rw [hc] at h
      cases h
    | some c =>
      simp only [hc] at h
      split_ifs at h with hzero
      · cases h
        exact ⟨[], ⟨src, rfl, hmax, hzero ▸ hc⟩, rfl⟩
      · obtain ⟨rest, hrest, rfl⟩ := Option.map_eq_some_iff.1 h
        obtain ⟨l, ⟨stop, hl, hstop⟩, rfl⟩ := ih hrest
        exact ⟨c :: l, ⟨stop, ⟨hmax, hc, hzero, hl⟩, hstop⟩, rfl⟩

end Copy

/-- A thread that is not catching exceptions, with an empty buffer. -/
def notCatching : CopyState := ⟨fun _ => 0, 0, none⟩

/-- A thread that copies an empty string goes on catching. -/
theorem strcpy_u2k_goes_on_catching :
    ¬ ∀ mem src s regs, CopiesString mem src s (s.strcpy_u2k mem regs src) := by
  intro hall
  have h := (hall (fun _ => some 0) 0x200000 notCatching ⟨0, 0, 0, 0, 0, 0, 0, 1⟩).catchRegs
  have hstring : UserString (fun _ => some 0) 0x200000 [] := ⟨_, rfl, by decide, rfl⟩
  rw [(strcpy_u2k_string _ _ hstring).2.2.1] at h
  cases h

end Glidix.Fs
