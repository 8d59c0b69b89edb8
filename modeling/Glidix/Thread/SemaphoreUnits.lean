import Mathlib.Algebra.Order.Ring.Int
import Mathlib.Tactic.SplitIfs
import Glidix.Thread.Semaphore

/-!
# The units of a semaphore

A semaphore as its callers see it: a number of units and the mark of termination, without the queue.
Every call of `semWaitGen` that returns, at once or after a sleep, does what `waitGen` does with
the units at the time it returns; signals and termination act on the units alone, and `semPoll` does
not change them.  What is left to the queue is which of the waiting threads is next.
-/

namespace Glidix.Thread

/-- The count of a semaphore and its flag `SEM_TERMINATED`. -/
structure SemUnits where
  count : Int32
  terminated : Bool
  deriving DecidableEq

/-- Why a call of `semWaitGen` returns without units. -/
inductive GiveUp where
  | again
  | intr
  | timedOut
  deriving DecidableEq

def GiveUp.errno : GiveUp → Int32
  | .again => EAGAIN
  | .intr => EINTR
  | .timedOut => ETIMEDOUT

namespace SemUnits

variable (u : SemUnits)

/-- Take up to `count` units; a terminated semaphore is marked when none are left. -/
def take (count : Int32) : Int32 × SemUnits :=
  let (result, left) := semUnits u.count count
  (result, { u with count := if left = 0 ∧ u.terminated = true then -1 else left })

/-- Give up, or take units when there are some; `none` is a thread that sleeps on. -/
def acquire (count : Int32) (giveUp : Option GiveUp) : Option (Int32 × SemUnits) :=
  match giveUp with
  | some e => some (-e.errno, u)
  | none => if u.count = 0 then none else some (u.take count)

/-- What a call of `semWaitGen` returns, and what it leaves. -/
def waitGen (count : Int32) (giveUp : Option GiveUp) : Option (Int32 × SemUnits) :=
  if count = 0 then some (-EAGAIN, u)
  else if count = -1 then
    if u.count = 0 then some (-EAGAIN, u) else some (u.take u.count)
  else u.acquire count giveUp

def signal (count : Int32) : Option SemUnits :=
  if count < 0 then none
  else if count = 0 then some u
  else if u.terminated then some u
  else some { u with count := u.count + count }

def terminate : Option SemUnits :=
  if u.terminated then none
  else some ⟨if u.count = 0 then -1 else u.count, true⟩

/-- The number of units that can be taken. -/
def left : ℕ := u.count.toInt.toNat

end SemUnits

/-- The units of a semaphore with a queue. -/
def SemState.units (s : SemState) : SemUnits := ⟨s.sem.count, s.sem.terminated⟩

/-! ## The queue does not matter -/

section Refine

variable {s t : SemState} {tid : ℕ} {args : WaitArgs} {env : WaitEnv}

@[simp] theorem SemState.units_setThread (x : SemThread) : (s.setThread tid x).units = s.units := rfl

@[simp] theorem SemState.units_enqueue : (s.enqueue tid).units = s.units := rfl

@[simp] theorem SemState.units_dequeue : (s.dequeue tid).units = s.units := rfl

@[simp] theorem SemState.units_wakeFirst : s.wakeFirst.units = s.units := by
  unfold SemState.wakeFirst
  split <;> rfl

@[simp] theorem SemState.units_setCount (count : Int32) :
    (s.setCount count).units = { s.units with count } := rfl

/-- Waking does not change what a running thread returns. -/
theorem SemState.running_wakeFirst {result : Int32} (h : s.threads tid = .running result) :
    s.wakeFirst.threads tid = .running result := by
  unfold SemState.wakeFirst
  split
  · exact h
  · next u rest _ =>
    show Function.update s.threads u (s.threads u).giveTo tid = _
    by_cases hu : tid = u
    · subst hu
      rw [Function.update_self, h]
      rfl
    · rw [Function.update_of_ne hu, h]

theorem semTake_units (s : SemState) (tid : ℕ) (count : Int32) :
    (semTake s tid count).threads tid = .running (s.units.take count).1 ∧
      (semTake s tid count).units = (s.units.take count).2 := by
  have hrun : ((s.setThread tid (.running (semUnits s.sem.count count).1)).setCount
      (semUnits s.sem.count count).2).threads tid = .running (semUnits s.sem.count count).1 :=
    Function.update_self ..
  simp only [semTake, SemUnits.take, SemState.units]
  by_cases hleft : (semUnits s.sem.count count).2 = 0
  · simp only [hleft, ne_eq, not_true_eq_false, if_false, true_and]
    by_cases hterm : s.sem.terminated = true
    · simp only [SemState.setCount, SemState.setThread, hterm, if_true]
      exact ⟨Function.update_self .., trivial⟩
    · simp only [SemState.setCount, SemState.setThread, hterm]
      exact ⟨Function.update_self .., rfl⟩
  · simp only [hleft, ne_eq, not_false_eq_true, if_true, false_and, if_false]
    exact ⟨SemState.running_wakeFirst hrun, SemState.units_wakeFirst⟩

/-- A thread in `semWaitGen` goes on sleeping, or gives up. -/
theorem semSleep_units (count : Int32) :
    let t := semSleep s tid args env
    t.threads tid = .waiting args false ∧ t.units = s.units ∨
      ∃ g r, t.threads tid = .running r ∧ s.units.acquire count g = some (r, t.units) := by
  simp only [semSleep]
  split_ifs
  · exact Or.inr ⟨some .timedOut, _, Function.update_self .., rfl⟩
  · exact Or.inr ⟨some .intr, _, Function.update_self .., rfl⟩
  · exact Or.inl ⟨Function.update_self .., rfl⟩

theorem semAcquire_units :
    let t := semAcquire s tid args env
    t.threads tid = .waiting args false ∧ t.units = s.units ∨
      ∃ g r, t.threads tid = .running r ∧ s.units.acquire args.count g = some (r, t.units) := by
  simp only [semAcquire]
  split_ifs with hzero hnonblock
  · exact Or.inr ⟨some .again, _, Function.update_self .., rfl⟩
  · exact semSleep_units (s := s.enqueue tid) args.count
  · obtain ⟨hrun, hunits⟩ := semTake_units s tid args.count
    refine Or.inr ⟨none, _, hrun, ?_⟩
    rw [SemUnits.acquire, if_neg (show ¬ s.units.count = 0 from hzero), hunits]

/-- A call of `semWaitGen` sleeps, or returns what `waitGen` does. -/
theorem semWaitGen_units :
    let t := semWaitGen s tid args env
    t.threads tid = .waiting args false ∧ t.units = s.units ∨
      ∃ g r, t.threads tid = .running r ∧ s.units.waitGen args.count g = some (r, t.units) := by
  have hcount : s.units.count = s.sem.count := rfl
  simp only [semWaitGen, SemUnits.waitGen, hcount]
  by_cases h₀ : args.count = 0
  · simp only [if_pos h₀]
    exact Or.inr ⟨none, _, Function.update_self .., rfl⟩
  by_cases h₁ : args.count = -1
  · simp only [if_neg h₀, if_pos h₁]
    by_cases hzero : s.sem.count = 0
    · simp only [if_pos hzero]
      exact Or.inr ⟨none, _, Function.update_self .., rfl⟩
    · obtain ⟨hrun, hunits⟩ := semTake_units s tid s.sem.count
      simp only [if_neg hzero, semAcquire]
      exact Or.inr ⟨none, _, hrun, by rw [hunits]⟩
  · simp only [if_neg h₀, if_neg h₁]
    exact semAcquire_units

/-- A thread that slept in `semWaitGen` sleeps on, or returns what `acquire` does. -/
theorem semResume_units {give : Bool} {others : ℕ} (hthread : s.threads tid = .waiting args give)
    (h : semResume s tid others env = some t) :
    t.threads tid = .waiting args false ∧ t.units = s.units ∨
      ∃ g r, t.threads tid = .running r ∧ s.units.acquire args.count g = some (r, t.units) := by
  rw [semResume, hthread] at h
  cases give with
  | true =>
    cases h
    exact semAcquire_units
  | false =>
    cases h
    exact semSleep_units args.count

theorem semSignal2_units (count : Int32) :
    (semSignal2 s count).map SemState.units = s.units.signal count := by
  by_cases h₁ : count < 0
  · simp only [semSignal2, SemUnits.signal, if_pos h₁, Option.map_none]
  by_cases h₂ : count = 0
  · simp only [semSignal2, SemUnits.signal, if_neg h₁, if_pos h₂, Option.map_some]
  cases hterm : s.sem.terminated with
  | true => simp [semSignal2, SemUnits.signal, h₁, h₂, SemState.units, hterm]
  | false =>
    simp only [semSignal2, SemUnits.signal, if_neg h₁, if_neg h₂, hterm, SemState.units,
      Bool.false_eq_true, if_false, Option.map_some, Option.some.injEq]
    exact (SemState.units_wakeFirst (s := s.setCount (s.sem.count + count))).trans (by
      rw [SemState.units_setCount, SemState.units, hterm])

theorem semTerminate_units : (semTerminate s).map SemState.units = s.units.terminate := by
  cases hterm : s.sem.terminated with
  | true => simp [semTerminate, SemUnits.terminate, SemState.units, hterm]
  | false =>
    by_cases hzero : s.sem.count = 0
    · simp only [semTerminate, SemUnits.terminate, hterm, hzero, SemState.units,
        Bool.false_eq_true, if_false, if_true, Option.map_some, Option.some.injEq]
      exact SemState.units_wakeFirst
    · simp [semTerminate, SemUnits.terminate, hterm, hzero, SemState.units]

theorem semPollTurn_units (timed give : Bool) (free : ℕ) :
    (semPollTurn s tid timed give free env).units = s.units := by
  simp only [semPollTurn, semPollLeave]
  split_ifs <;> simp

theorem semPoll_units (nonblock timed : Bool) (others : ℕ) :
    (semPoll s tid nonblock timed others env).units = s.units := by
  simp only [semPoll]
  by_cases h : (if s.sem.count ≠ 0 then 1 else 0) + others ≠ 0 ∨ nonblock = true
  · simp only [if_pos h, SemState.units_setThread]
  · simp only [if_neg h, semPollTurn_units, SemState.units_enqueue]

end Refine

/-! ## Counting units -/

namespace SemUnits

variable {u u' : SemUnits} {n r : Int32}

/-- The count is not below -1; -1 marks a terminated semaphore without units. -/
def Valid (u : SemUnits) : Prop := -1 ≤ u.count.toInt

theorem valid_of_nonneg (h : 0 ≤ u.count.toInt) : u.Valid := by
  unfold Valid
  omega

theorem toInt_neg_one : (-1 : Int32).toInt = -1 := rfl

/-- What is left when a number of units is taken from a positive count. -/
theorem semUnits_spec {avail count : Int32} (hne : avail ≠ 0) (hge : -1 ≤ avail.toInt)
    (hcount : 0 < count.toInt ∨ count = avail) :
    0 ≤ (semUnits avail count).1.toInt ∧ -1 ≤ (semUnits avail count).2.toInt ∧
      (semUnits avail count).2.toInt.toNat + (semUnits avail count).1.toInt.toNat =
        avail.toInt.toNat ∧
      (0 < count.toInt → (semUnits avail count).1.toInt ≤ count.toInt) := by
  have hzero : avail.toInt ≠ 0 := fun he => hne (Int32.toInt_inj.1 he)
  by_cases h₁ : avail = -1
  · simp only [semUnits, h₁, if_true, toInt_neg_one]
    exact ⟨le_rfl, le_rfl, rfl, fun hc => le_of_lt hc⟩
  · have hpos : 0 < avail.toInt := by
      have : avail.toInt ≠ -1 := fun he => h₁ (Int32.toInt_inj.1 he)
      omega
    have hc : 0 < count.toInt := by
      rcases hcount with hc | rfl
      · exact hc
      · exact hpos
    by_cases h₂ : count ≤ avail
    · have hle := Int32.le_iff_toInt_le.1 h₂
      have hlt := avail.toInt_lt
      have hsub : (avail - count).toInt = avail.toInt - count.toInt := by
        rw [Int32.toInt_sub, Int.bmod_eq_of_le (by omega) (by omega)]
      simp only [semUnits, if_neg h₁, if_pos h₂, hsub]
      omega
    · have hle : ¬ count.toInt ≤ avail.toInt := fun he => h₂ (Int32.le_iff_toInt_le.2 he)
      simp only [semUnits, if_neg h₁, if_neg h₂]
      refine ⟨hpos.le, by decide, ?_, fun _ => by omega⟩
      show 0 + avail.toInt.toNat = avail.toInt.toNat
      omega

theorem take_spec (h : u.Valid) (hne : u.count ≠ 0) (hn : 0 < n.toInt ∨ n = u.count) :
    0 ≤ (u.take n).1.toInt ∧ (u.take n).2.Valid ∧ (u.take n).2.left + (u.take n).1.toInt.toNat = u.left ∧
      (0 < n.toInt → (u.take n).1.toInt ≤ n.toInt) ∧ (u.take n).2.terminated = u.terminated := by
  obtain ⟨hr, hge, hsum, hle⟩ := semUnits_spec hne h hn
  refine ⟨hr, ?_, ?_, hle, rfl⟩
  · simp only [Valid, take]
    split_ifs
    · exact le_rfl
    · exact hge
  · simp only [left, take]
    by_cases hmark : (semUnits u.count n).2 = 0 ∧ u.terminated = true
    · rw [hmark.1] at hsum
      rw [if_pos hmark]
      exact hsum
    · rw [if_neg hmark]
      exact hsum

/-- A call that asks for no less than -1 units returns an error and takes nothing, or takes what it
returns. -/
theorem waitGen_spec {g : Option GiveUp} (h : u.Valid) (hn : -1 ≤ n.toInt)
    (hr : u.waitGen n g = some (r, u')) :
    r.toInt < 0 ∧ u' = u ∨
      n ≠ 0 ∧ 0 ≤ r.toInt ∧ u'.Valid ∧ u'.left + r.toInt.toNat = u.left ∧
        (0 < n.toInt → r.toInt ≤ n.toInt) ∧ u'.terminated = u.terminated := by
  have hagain : (-EAGAIN : Int32).toInt < 0 := by decide
  have htaken : ∀ m : Int32, u.count ≠ 0 → (0 < m.toInt ∨ m = u.count) →
      (0 < n.toInt → m = n) → u.take m = (r, u') → 0 ≤ r.toInt ∧ u'.Valid ∧
        u'.left + r.toInt.toNat = u.left ∧ (0 < n.toInt → r.toInt ≤ n.toInt) ∧
          u'.terminated = u.terminated := by
    intro m hne hm hmn he
    obtain ⟨h₁, h₂, h₃, h₄, h₅⟩ := take_spec h hne hm
    rw [he] at h₁ h₂ h₃ h₄ h₅
    exact ⟨h₁, h₂, h₃, fun hpos => hmn hpos ▸ h₄ ((hmn hpos).symm ▸ hpos), h₅⟩
  unfold waitGen at hr
  by_cases h₀ : n = 0
  · rw [if_pos h₀, Option.some.injEq, Prod.mk.injEq] at hr
    exact Or.inl ⟨hr.1 ▸ hagain, hr.2.symm⟩
  rw [if_neg h₀] at hr
  by_cases h₁ : n = -1
  · rw [if_pos h₁] at hr
    by_cases hzero : u.count = 0
    · rw [if_pos hzero, Option.some.injEq, Prod.mk.injEq] at hr
      exact Or.inl ⟨hr.1 ▸ hagain, hr.2.symm⟩
    · rw [if_neg hzero, Option.some.injEq] at hr
      refine Or.inr ⟨h₀, htaken u.count hzero (Or.inr rfl) (fun hpos => ?_) hr⟩
      rw [h₁, toInt_neg_one] at hpos
      omega
  · rw [if_neg h₁] at hr
    have hpos : 0 < n.toInt := by
      have hz : n.toInt ≠ 0 := fun he => h₀ (Int32.toInt_inj.1 he)
      have hm : n.toInt ≠ -1 := fun he => h₁ (Int32.toInt_inj.1 he)
      omega
    cases g with
    | some e =>
      rw [acquire, Option.some.injEq, Prod.mk.injEq] at hr
      refine Or.inl ⟨hr.1 ▸ ?_, hr.2.symm⟩
      cases e <;> decide
    | none =>
      rw [acquire] at hr
      by_cases hzero : u.count = 0
      · rw [if_pos hzero] at hr
        cases hr
      · rw [if_neg hzero, Option.some.injEq] at hr
        exact Or.inr ⟨h₀, htaken n hzero (Or.inl hpos) (fun _ => rfl) hr⟩

/-- A thread that waits for units takes what it returns. -/
theorem waitGen_none (h : u.Valid) (hn : 0 < n.toInt) (hr : u.waitGen n none = some (r, u')) :
    u'.Valid ∧ 0 ≤ r.toInt ∧ u'.left + r.toInt.toNat = u.left := by
  have h₀ : n ≠ 0 := by
    rintro rfl
    exact absurd hn (by decide)
  have h₁ : n ≠ -1 := by
    rintro rfl
    exact absurd hn (by decide)
  rw [waitGen, if_neg h₀, if_neg h₁, acquire] at hr
  by_cases hzero : u.count = 0
  · rw [if_pos hzero] at hr
    cases hr
  · rw [if_neg hzero, Option.some.injEq] at hr
    obtain ⟨hpos, hvalid, hsum, -, -⟩ := take_spec h hzero (Or.inl hn)
    rw [hr] at hpos hvalid hsum
    exact ⟨hvalid, hpos, hsum⟩

/-- A call that finds no units returns none and takes none. -/
theorem waitGen_empty {g : Option GiveUp} (h : u.Valid) (hleft : u.left = 0)
    (hr : u.waitGen n g = some (r, u')) : r.toInt ≤ 0 ∧ u' = u := by
  have hagain : (-EAGAIN : Int32).toInt ≤ 0 := by decide
  have htake : ∀ m, u.count ≠ 0 → u.take m = (r, u') → r.toInt ≤ 0 ∧ u' = u := by
    intro m hne he
    have hmark : u.count = -1 := by
      have hz : u.count.toInt ≠ 0 := fun he => hne (Int32.toInt_inj.1 he)
      unfold Valid at h
      unfold left at hleft
      exact Int32.toInt_inj.1 (by rw [toInt_neg_one]; omega)
    have hunits : semUnits u.count m = (0, -1) := if_pos hmark
    simp only [take, hunits, Prod.mk.injEq] at he
    obtain ⟨rfl, rfl⟩ := he
    refine ⟨le_rfl, ?_⟩
    rw [if_neg fun he => absurd he.1 (by decide), ← hmark]
  unfold waitGen at hr
  by_cases h₀ : n = 0
  · rw [if_pos h₀, Option.some.injEq, Prod.mk.injEq] at hr
    exact ⟨hr.1 ▸ hagain, hr.2.symm⟩
  rw [if_neg h₀] at hr
  by_cases h₁ : n = -1
  · rw [if_pos h₁] at hr
    by_cases hzero : u.count = 0
    · rw [if_pos hzero, Option.some.injEq, Prod.mk.injEq] at hr
      exact ⟨hr.1 ▸ hagain, hr.2.symm⟩
    · rw [if_neg hzero, Option.some.injEq] at hr
      exact htake u.count hzero hr
  · rw [if_neg h₁] at hr
    cases g with
    | some e =>
      rw [acquire, Option.some.injEq, Prod.mk.injEq] at hr
      refine ⟨hr.1 ▸ ?_, hr.2.symm⟩
      cases e <;> decide
    | none =>
      rw [acquire] at hr
      by_cases hzero : u.count = 0
      · rw [if_pos hzero] at hr
        cases hr
      · rw [if_neg hzero, Option.some.injEq] at hr
        exact htake n hzero hr

theorem signal_spec (h : u.Valid) (hn : 0 ≤ n.toInt) (hlt : u.left + n.toInt.toNat < 2 ^ 31)
    (hs : u.signal n = some u') : u'.Valid ∧ u'.left ≤ u.left + n.toInt.toNat ∧
      u'.terminated = u.terminated := by
  unfold signal at hs
  have hneg : ¬ n < 0 := fun hl => by
    have := Int32.lt_iff_toInt_lt.1 hl
    rw [Int32.toInt_zero] at this
    omega
  rw [if_neg hneg] at hs
  by_cases hz : n = 0
  · rw [if_pos hz, Option.some.injEq] at hs
    exact hs ▸ ⟨h, Nat.le_add_right _ _, rfl⟩
  rw [if_neg hz] at hs
  by_cases hterm : u.terminated = true
  · rw [if_pos hterm, Option.some.injEq] at hs
    exact hs ▸ ⟨h, Nat.le_add_right _ _, rfl⟩
  · rw [if_neg hterm, Option.some.injEq] at hs
    unfold Valid at h
    unfold left at hlt
    have hadd : (u.count + n).toInt = u.count.toInt + n.toInt := by
      rw [Int32.toInt_add, Int.bmod_eq_of_le (by omega) (by omega)]
    subst hs
    refine ⟨?_, ?_, rfl⟩
    · show -1 ≤ (u.count + n).toInt
      omega
    · show (u.count + n).toInt.toNat ≤ u.count.toInt.toNat + n.toInt.toNat
      omega

theorem terminate_spec (h : u.Valid) (ht : u.terminate = some u') :
    u'.Valid ∧ u'.left = u.left ∧ u.terminated = false ∧ u'.terminated = true := by
  unfold terminate at ht
  by_cases hterm : u.terminated = true
  · rw [if_pos hterm] at ht
    cases ht
  · rw [if_neg hterm, Option.some.injEq] at ht
    subst ht
    refine ⟨?_, ?_, Bool.not_eq_true _ ▸ hterm, rfl⟩
    · unfold Valid
      simp only
      split_ifs
      · exact le_rfl
      · exact h
    · unfold left
      simp only
      split_ifs with hzero
      · rw [hzero]
        rfl
      · rfl

/-! ### Numbers of units -/

theorem toInt_ofNat_le (n : ℕ) : (Int32.ofNat n).toInt ≤ n := by
  have hsize : Int32.size = 2 ^ 32 := rfl
  rw [Int32.toInt_ofNat', Int.bmod_def, hsize]
  split_ifs <;> omega

theorem le_of_toInt_ofNat_neg {n : ℕ} (h : (Int32.ofNat n).toInt < 0) : 2 ^ 31 ≤ n := by
  by_contra hlt
  rw [Int32.toInt_ofNat_of_lt (by omega)] at h
  omega

/-! ### Sound semaphores -/

/-- The count is -1 only if the semaphore is terminated, and never below. -/
structure Sound (u : SemUnits) : Prop where
  valid : u.Valid
  marked : u.count = -1 → u.terminated = true

theorem toInt_neg_errno (e : GiveUp) : (-e.errno).toInt < 0 := by cases e <;> decide

/-- A call of `semWaitGen` that returns gives up and takes nothing, or takes units. -/
theorem waitGen_cases {g : Option GiveUp} (hr : u.waitGen n g = some (r, u')) :
    (∃ e : GiveUp, r = -e.errno) ∧ u' = u ∨ u.count ≠ 0 ∧ ∃ m, u.take m = (r, u') ∧
      (m = n ∧ n ≠ 0 ∧ n ≠ -1 ∨ n = -1 ∧ m = u.count) := by
  unfold waitGen at hr
  split_ifs at hr with h₀ h₁ hzero
  · cases hr
    exact .inl ⟨⟨.again, rfl⟩, rfl⟩
  · cases hr
    exact .inl ⟨⟨.again, rfl⟩, rfl⟩
  · exact .inr ⟨hzero, _, Option.some.inj hr, .inr ⟨h₁, rfl⟩⟩
  · cases g with
    | some e =>
      cases hr
      exact .inl ⟨⟨e, rfl⟩, rfl⟩
    | none =>
      rw [acquire] at hr
      split_ifs at hr with hzero
      exact .inr ⟨hzero, _, Option.some.inj hr, .inl ⟨rfl, h₀, h₁⟩⟩

/-- A call that gives up takes nothing, unless it asks for all units. -/
theorem waitGen_giveUp {e : GiveUp} (hn : n ≠ -1) (hr : u.waitGen n (some e) = some (r, u')) :
    r.toInt < 0 ∧ u' = u := by
  unfold waitGen at hr
  rw [if_neg hn] at hr
  split_ifs at hr
  · cases hr
    exact ⟨by decide, rfl⟩
  · cases hr
    exact ⟨toInt_neg_errno e, rfl⟩

theorem waitGen_terminated {g : Option GiveUp} (hr : u.waitGen n g = some (r, u')) :
    u'.terminated = u.terminated := by
  obtain ⟨-, rfl⟩ | ⟨-, m, htake, -⟩ := waitGen_cases hr
  · rfl
  · cases htake
    rfl

theorem signal_terminated (hs : u.signal n = some u') : u'.terminated = u.terminated := by
  unfold signal at hs
  split_ifs at hs <;> cases hs <;> rfl

theorem terminate_eq_none (hs : u.terminate = none) : u.terminated = true := by
  by_contra hlive
  rw [terminate, if_neg hlive] at hs
  cases hs

theorem terminate_terminated (hs : u.terminate = some u') : u'.terminated = true := by
  obtain ⟨-, hs⟩ := Option.ite_none_left_eq_some.1 hs
  cases hs
  rfl

theorem take_of_mark (hu : u.count = -1) (m : Int32) : u.take m = (0, u) := by
  have hunits : semUnits u.count m = (0, -1) := if_pos hu
  simp only [take, hunits, Prod.mk.injEq, true_and]
  rw [if_neg fun he => absurd he.1 (by decide), ← hu]

theorem Sound.pos (h : u.Sound) (hne : u.count ≠ 0) (hu : u.count ≠ -1) : 0 < u.count.toInt := by
  have hvalid := h.valid
  have h₀ : u.count.toInt ≠ 0 := fun he => hne (Int32.toInt_inj.1 he)
  have h₁ : u.count.toInt ≠ -1 := fun he => hu (Int32.toInt_inj.1 he)
  unfold Valid at hvalid
  omega

/-- Taking from a positive count. -/
theorem Sound.take (h : u.Sound) (hpos : 0 < u.count.toInt) (hn : 0 < n.toInt) :
    0 < (u.take n).1.toInt ∧ (u.take n).2.Sound := by
  have hmark : u.count ≠ -1 := fun he => by
    rw [he, toInt_neg_one] at hpos
    omega
  have hne : u.count ≠ 0 := fun he => by
    rw [he, Int32.toInt_zero] at hpos
    omega
  obtain ⟨-, hvalid, -⟩ := take_spec h.valid hne (.inl hn)
  refine ⟨?_, hvalid, fun hleft => ?_⟩
  · simp only [SemUnits.take, semUnits, if_neg hmark]
    split_ifs
    · exact hn
    · exact hpos
  · simp only [SemUnits.take] at hleft ⊢
    split_ifs at hleft with hterm
    · exact hterm.2
    · simp only [semUnits, if_neg hmark] at hleft
      split_ifs at hleft with hle
      · have hle' := Int32.le_iff_toInt_le.1 hle
        have hlt := u.count.toInt_lt
        have hsub : (u.count - n).toInt = u.count.toInt - n.toInt := by
          rw [Int32.toInt_sub, Int.bmod_eq_of_le (by omega) (by omega)]
        change u.count - n = -1 at hleft
        rw [hleft, toInt_neg_one] at hsub
        omega
      · cases hleft

/-- What a call of `semWaitGen` does to a sound semaphore, if it asks for no less than -1 units or there
are none. -/
theorem Sound.waitGen {g : Option GiveUp} (h : u.Sound) (hn : u.left ≠ 0 → -1 ≤ n.toInt)
    (hr : u.waitGen n g = some (r, u')) : u'.Sound ∧ u'.left + r.toInt.toNat = u.left ∧
      u'.terminated = u.terminated ∧ (0 < n.toInt → r.toInt ≤ n.toInt) ∧
      (r.toInt = 0 → u.left = 0 ∧ u.terminated = true) ∧
      (r.toInt < 0 → ∃ e : GiveUp, r = -e.errno) := by
  obtain ⟨⟨e, rfl⟩, rfl⟩ | ⟨hne, m, htake, hm⟩ := waitGen_cases hr
  · have hneg := toInt_neg_errno e
    exact ⟨h, by omega, rfl, fun hpos => by omega, fun hzero => by omega, fun _ => ⟨e, rfl⟩⟩
  by_cases hmark : u.count = -1
  · rw [take_of_mark hmark] at htake
    cases htake
    have hleft : u.left = 0 := by rw [left, hmark, toInt_neg_one]; rfl
    exact ⟨h, rfl, rfl, fun hpos => hpos.le, fun _ => ⟨hleft, h.marked hmark⟩, fun hneg => nomatch hneg⟩
  have hpos := h.pos hne hmark
  have hleft : u.left ≠ 0 := by unfold left; omega
  have hmpos : 0 < m.toInt := by
    obtain ⟨rfl, h₀, h₁⟩ | ⟨-, rfl⟩ := hm
    · have hz : m.toInt ≠ 0 := fun he => h₀ (Int32.toInt_inj.1 he)
      have ho : m.toInt ≠ -1 := fun he => h₁ (Int32.toInt_inj.1 he)
      have := hn hleft
      omega
    · exact hpos
  obtain ⟨-, -, hsum, hle, hterm⟩ := take_spec h.valid hne (.inl hmpos)
  obtain ⟨hr, hsound⟩ := h.take hpos hmpos
  rw [htake] at hsum hle hterm hr hsound
  refine ⟨hsound, hsum, hterm, fun hnpos => ?_, fun hzero => absurd hzero hr.ne',
    fun hneg => absurd hneg hr.not_gt⟩
  obtain ⟨rfl, -, -⟩ | ⟨rfl, -⟩ := hm
  · exact hle hmpos
  · rw [toInt_neg_one] at hnpos
    omega

/-- The same where only a call that does not give up must not ask for fewer. -/
theorem Sound.waitGen_right {g : Option GiveUp} (h : u.Sound)
    (hn : g = none → u.left ≠ 0 → -1 ≤ n.toInt) (hr : u.waitGen n g = some (r, u')) :
    u'.Sound ∧ u'.left + r.toInt.toNat = u.left := by
  by_cases hright : u.left ≠ 0 → -1 ≤ n.toInt
  · obtain ⟨hsound, hsum, -⟩ := h.waitGen hright hr
    exact ⟨hsound, hsum⟩
  · cases g with
    | none => exact absurd (hn rfl) hright
    | some e =>
      have hne : n ≠ -1 := by
        rintro rfl
        exact hright fun _ => le_rfl
      obtain ⟨hneg, rfl⟩ := waitGen_giveUp hne hr
      exact ⟨h, by omega⟩

/-- Taking a negative number of units adds units. -/
theorem left_take_of_neg (hpos : 0 < u.count.toInt) (hn : n.toInt < 0) :
    (u.take n).1 = n ∧ (u.take n).2.left ≠ u.left := by
  have hmark : u.count ≠ -1 := fun he => by
    rw [he, toInt_neg_one] at hpos
    omega
  have hle : n ≤ u.count := Int32.le_iff_toInt_le.2 (by omega)
  have hlt := u.count.toInt_lt
  have hge := n.le_toInt
  have hsub : (u.count - n).toInt ≠ u.count.toInt ∧ (u.count - n).toInt ≠ 0 := by
    rw [Int32.toInt_sub, Int.bmod_def]
    split_ifs <;> omega
  have hleft : u.count - n ≠ 0 := fun he => hsub.2 (he ▸ Int32.toInt_zero)
  simp only [SemUnits.take, semUnits, if_neg hmark, if_pos hle, left, hleft, false_and, if_false,
    true_and]
  omega

/-- A signal adds its units, unless the semaphore is terminated. -/
theorem Sound.signal (h : u.Sound) (hn : 0 ≤ n.toInt) (hlt : u.left + n.toInt.toNat < 2 ^ 31)
    (hs : u.signal n = some u') : u'.Sound ∧ u'.terminated = u.terminated ∧
      u'.left = if u.terminated = true then u.left else u.left + n.toInt.toNat := by
  obtain ⟨hvalid, -, hsame⟩ := signal_spec h.valid hn hlt hs
  unfold SemUnits.signal at hs
  split_ifs at hs with hneg hzero hterm
  · cases hs
    have : n.toInt = 0 := by rw [hzero, Int32.toInt_zero]
    refine ⟨h, rfl, ?_⟩
    split_ifs <;> omega
  · cases hs
    exact ⟨h, rfl, (if_pos hterm).symm⟩
  · cases hs
    have hcount : 0 ≤ u.count.toInt := by
      have hv := h.valid
      have hm : u.count.toInt ≠ -1 := fun he => hterm (h.marked (Int32.toInt_inj.1 he))
      unfold Valid at hv
      omega
    unfold left at hlt
    have hadd : (u.count + n).toInt = u.count.toInt + n.toInt := by
      rw [Int32.toInt_add, Int.bmod_eq_of_le (by omega) (by omega)]
    refine ⟨⟨hvalid, fun he => ?_⟩, rfl, ?_⟩
    · change u.count + n = -1 at he
      rw [he, toInt_neg_one] at hadd
      omega
    · rw [if_neg hterm]
      unfold left
      simp only
      omega

theorem Sound.terminate (h : u.Sound) (ht : u.terminate = some u') :
    u'.Sound ∧ u'.left = u.left ∧ u'.terminated = true := by
  obtain ⟨hvalid, hleft, -, hterm⟩ := terminate_spec h.valid ht
  exact ⟨⟨hvalid, fun _ => hterm⟩, hleft, hterm⟩

end SemUnits

end Glidix.Thread
