import Glidix.Thread.RangeLockTable

/-!
# Asking for a lock in the way

`rlGet` is to find a range that would be in the way of a lock.  It clears the type that is asked for
before it looks, and its test for an overlap holds of a range that goes round the end of the units
only, which `rlSet` never lets in.  So it finds nothing (`rlGet_spec`), which is the right answer when
there is nothing in the way (`rlGet_right_iff`).
-/

namespace Glidix.Thread

/-- The `for` loop of `rlGet`, from the element `range` on.  What the pointers of the caller point to is
written like a range. -/
def rlGetLoop (rl : RangeLock) (asked : Held) : ℕ → ℕ → Option Held
  | 0, _ => none
  | fuel + 1, range =>
    if range = 0 then some asked
    else do
      let r ← rl.get range
      if asked.start ≤ r.start ∧ r.stop < asked.start then
        if r.type = .write ∨ asked.type = .write then return r.held
      rlGetLoop rl asked fuel r.next

def rlGet (rl : RangeLock) (asked : Held) : Option Held :=
  rlGetLoop rl { asked with type := .unlock } rl.heap.brk rl.ranges

/-! ## The answer -/

/-- The two have a unit in common, or one is empty and lies within the other. -/
def Held.Overlaps (r r' : Held) : Prop :=
  r'.start.toNat < r.start.toNat + r.size.toNat ∧ r.start.toNat < r'.start.toNat + r'.size.toNat

/-- A range of another key overlaps what is asked for, and one of the two is a write lock. -/
def Conflicts (asked r : Held) : Prop :=
  r.key ≠ asked.key ∧ r.Overlaps asked ∧ (r.type = .write ∨ asked.type = .write)

instance (asked r : Held) : Decidable (Conflicts asked r) := by
  unfold Conflicts Held.Overlaps
  infer_instance

/-- A range in conflict is told if there is one, and `RL_UNLOCK` if there is none. -/
def RightAnswer (l : List Held) (asked answer : Held) : Prop :=
  if ∃ r ∈ l, Conflicts asked r then answer ∈ l ∧ Conflicts asked answer
  else answer.type = .unlock

section Answer

variable {rl : RangeLock} {l suf : List ℕ} {asked : Held}

/-- The overlap is the one that `rlSet` tests. -/
theorem overlaps_iff {r asked : Held} (hr : r.Fits) (ha : asked.Fits) :
    r.Overlaps asked ↔ asked.start < r.stop ∧ r.start < asked.stop := by
  rw [UInt64.lt_iff_toNat_lt, UInt64.lt_iff_toNat_lt, hr.toNat_stop, ha.toNat_stop]
  rfl

/-- No range that fits ends before it starts. -/
theorem rlGetLoop_spec {fuel range : ℕ} (pre : List ℕ) (h : Chain rl (pre ++ suf)) (hfuel : suf.length < fuel)
    (hrange : range = suf.headD 0) : rlGetLoop rl asked fuel range = some asked := by
  induction suf generalizing pre fuel range with
  | nil =>
    obtain ⟨fuel, rfl⟩ := Nat.exists_eq_succ_of_ne_zero (Nat.ne_of_gt hfuel)
    rw [rlGetLoop]
    exact if_pos hrange
  | cons a rest ih =>
    obtain ⟨fuel, rfl⟩ := Nat.exists_eq_succ_of_ne_zero (Nat.ne_of_gt (Nat.zero_lt_of_lt hfuel))
    obtain rfl : range = a := hrange
    obtain ⟨r, hr, hfits⟩ := h.alloc range (by simp)
    have htest : ¬ (asked.start ≤ r.start ∧ r.stop < asked.start) := by
      rintro ⟨hle, hlt⟩
      have hstop : r.stop.toNat = r.start.toNat + r.size.toNat := hfits.toNat_stop
      rw [UInt64.le_iff_toNat_le] at hle
      rw [UInt64.lt_iff_toNat_lt] at hlt
      omega
    simp only [rlGetLoop, if_neg (h.ne_zero (List.mem_append_right pre List.mem_cons_self)), hr,
      Option.bind_eq_bind, Option.bind_some, if_neg htest]
    apply ih (pre ++ [range])
    · simpa using h
    · simpa using hfuel
    · exact h.next_of_get hr

/-- `rlGet` never finds a range. -/
theorem rlGet_spec (h : Chain rl l) (asked : Held) :
    rlGet rl asked = some { asked with type := .unlock } :=
  rlGetLoop_spec [] h h.length_lt h.linked.head_eq

/-- `rlGet` answers rightly if and only if nothing is in the way. -/
theorem rlGet_right_iff (h : Chain rl l) (asked : Held) :
    (∃ answer, rlGet rl asked = some answer ∧ RightAnswer (rl.contents l) asked answer) ↔
      ∀ r ∈ rl.contents l, ¬ Conflicts asked r := by
  rw [rlGet_spec h]
  constructor
  · rintro ⟨answer, hans, hright⟩ r hr hconf
    cases hans
    rw [RightAnswer, if_pos ⟨r, hr, hconf⟩] at hright
    -- the key that is asked for is left in place
    exact hright.2.1 rfl
  · intro hfree
    refine ⟨_, rfl, ?_⟩
    rw [RightAnswer, if_neg]
    rintro ⟨r, hr, hconf⟩
    exact hfree r hr hconf

end Answer

theorem chain_firstTen : Chain firstTen.rl [1] := by
  refine ⟨⟨rfl, by decide, rfl⟩, List.nodup_singleton 1, fun a ha => ?_⟩
  obtain rfl := List.mem_singleton.1 ha
  refine ⟨⟨0, 0, .read, 1, 0, 10⟩, rfl, ?_⟩
  unfold Held.Fits
  decide

/-- Key 2 may have a read lock as well. -/
theorem rlGet_right_firstTen :
    ∃ answer, rlGet firstTen.rl ⟨.read, 2, 3, 4⟩ = some answer ∧
      RightAnswer (firstTen.rl.contents [1]) ⟨.read, 2, 3, 4⟩ answer :=
  (rlGet_right_iff chain_firstTen ⟨.read, 2, 3, 4⟩).2 (by decide)

/-- A write lock is not possible there, but is not told to be in the way of anything. -/
theorem rlGet_misses_lock :
    ¬ ∀ s l asked, rangeLockSystem.Reachable s → Linked s.rl.next s.rl.ranges l →
      ∃ answer, rlGet s.rl asked = some answer ∧ RightAnswer (s.rl.contents l) asked answer := by
  intro hall
  obtain ⟨answer, hans, hright⟩ := hall firstTen [1] ⟨.write, 2, 3, 4⟩ firstTen_reaches.reachable
    chain_firstTen.linked
  rw [rlGet_spec chain_firstTen] at hans
  cases hans
  rw [RightAnswer, if_pos ⟨⟨.read, 1, 0, 10⟩, List.mem_singleton_self _, by decide⟩] at hright
  exact hright.2.1 rfl

end Glidix.Thread
