import Mathlib.Data.Set.Disjoint
import Glidix.Thread.RangeLockTable

/-!
# Exclusion of write locks

No unit is locked by two keys when one of the locks is a write lock (`Exclusive`).  Granting a lock
keeps this, since the search stops at every range in the way.  Unlocking stretches the ranges of the
key that do not touch the interval, and keeps it exactly when no gap that is closed this way has an
incompatible lock (`exclusive_flatMap_iff`).  A blocked request waits for a range that is as it was:
unlocking releases all requests.
-/

namespace Glidix.Thread

/-! ## Conflicts -/

/-- One of the two is a write lock. -/
def Incompatible (t t' : LockType) : Prop := t = .write ∨ t' = .write

instance (t t' : LockType) : Decidable (Incompatible t t') := by unfold Incompatible; infer_instance

/-- Ranges of different keys that overlap are both read locks. -/
def Exclusive (l : List Held) : Prop :=
  ∀ r ∈ l, ∀ r' ∈ l, r.key ≠ r'.key → Incompatible r.type r'.type → Disjoint r.units r'.units

/-- Unlocking an interval of a key closes no gap in which another key has an incompatible lock. -/
def GapsCompatible (key start size : UInt64) (l : List Held) : Prop :=
  ∀ r ∈ l, ∀ r' ∈ l, r'.key ≠ key → Incompatible r.type r'.type →
    Disjoint (gap key start size r) r'.units

section Conflicts

variable {key start size : UInt64} {l l' : List Held} {r r' : Held}

theorem Incompatible.symm {t t' : LockType} (h : Incompatible t t') : Incompatible t' t := Or.symm h

theorem Exclusive.mono (h : Exclusive l) (hsub : ∀ r ∈ l', r ∈ l) : Exclusive l' :=
  fun r hr r' hr' => h r (hsub r hr) r' (hsub r' hr')

/-- A new range that is compatible with the others. -/
theorem Exclusive.insert (h : Exclusive l)
    (hr : ∀ r' ∈ l, r'.key ≠ r.key → Incompatible r'.type r.type → Disjoint r'.units r.units) :
    Exclusive (r :: l) := by
  intro x hx y hy hne hinc
  rcases List.mem_cons.1 hx with hxr | hxl
  · rcases List.mem_cons.1 hy with hyr | hyl
    · exact absurd (by rw [hxr, hyr]) hne
    · subst hxr
      exact (hr y hyl hne.symm hinc.symm).symm
  · rcases List.mem_cons.1 hy with hyr | hyl
    · subst hyr
      exact hr x hxl hne hinc
    · exact h x hxl y hyl hne hinc

theorem mem_unlockHeld_of_key_ne (h : r.key ≠ key) : r ∈ unlockHeld key start size r := by
  rw [unlockHeld, if_pos h]
  exact List.mem_singleton_self r

/-- Unlocking keeps the exclusion exactly when the gaps it closes are compatible. -/
theorem exclusive_flatMap_iff (hU : start.toNat + size.toNat < 2 ^ 64) (hl : ∀ r ∈ l, r.Fits)
    (h : Exclusive l) :
    Exclusive (l.flatMap (unlockHeld key start size)) ↔ GapsCompatible key start size l := by
  constructor
  · intro hx r hr r' hr' hne hinc
    refine Set.disjoint_left.2 fun b hb hb' => ?_
    obtain ⟨x, hxr, hbx⟩ := (mem_unlockHeld hU (hl r hr) b).2 (Or.inr hb)
    obtain ⟨hkey, htype, -⟩ := of_mem_unlockHeld hU (hl r hr) hxr
    have hdisj := hx x (List.mem_flatMap.2 ⟨r, hr, hxr⟩) r'
      (List.mem_flatMap.2 ⟨r', hr', mem_unlockHeld_of_key_ne hne⟩)
      (by rw [hkey, hb.1]; exact hne.symm) (by rwa [htype])
    exact Set.disjoint_left.1 hdisj hbx hb'
  · intro hg x hx y hy hne hinc
    obtain ⟨r, hr, hxr⟩ := List.mem_flatMap.1 hx
    obtain ⟨r', hr', hyr⟩ := List.mem_flatMap.1 hy
    obtain ⟨hkey, htype, -⟩ := of_mem_unlockHeld hU (hl r hr) hxr
    obtain ⟨hkey', htype', -⟩ := of_mem_unlockHeld hU (hl r' hr') hyr
    rw [hkey, hkey'] at hne
    rw [htype, htype'] at hinc
    refine Set.disjoint_left.2 fun b hb hb' => ?_
    rcases (mem_unlockHeld hU (hl r hr) b).1 ⟨x, hxr, hb⟩ with ⟨hin, -⟩ | hgap
    · rcases (mem_unlockHeld hU (hl r' hr') b).1 ⟨y, hyr, hb'⟩ with ⟨hin', -⟩ | hgap'
      · exact Set.disjoint_left.1 (h r hr r' hr' hne hinc) hin hin'
      · exact Set.disjoint_left.1 (hg r' hr' r hr (hgap'.1 ▸ hne) hinc.symm) hgap' hin
    · rcases (mem_unlockHeld hU (hl r' hr') b).1 ⟨y, hyr, hb'⟩ with ⟨hin', -⟩ | hgap'
      · exact Set.disjoint_left.1 (hg r hr r' hr' (hgap.1 ▸ hne.symm) hinc) hgap hin'
      · exact hne (hgap.1.trans hgap'.1.symm)

end Conflicts

/-! ## The search -/

/-- The range is in the way of a request: it overlaps the interval, and belongs to another key. -/
def Blocks (r : Held) (rq : PendingRangeRequest) : Prop :=
  rq.start < r.stop ∧ r.start < rq.start + rq.size ∧ r.key ≠ rq.key ∧ Incompatible r.type rq.type

instance (r : Held) (rq : PendingRangeRequest) : Decidable (Blocks r rq) := by
  unfold Blocks; infer_instance

/-- The range at which the search stops. -/
def rlBlocker (rq : PendingRangeRequest) (rl : RangeLock) : ℕ → ℕ → Option (ℕ × Held)
  | 0, _ => none
  | fuel + 1, range =>
    if range = 0 then none
    else do
      let r ← rl.get range
      if Blocks r.held rq then return (range, r.held)
      rlBlocker rq rl fuel r.next

section Search

variable {rl : RangeLock} {rq : PendingRangeRequest} {l pre suf : List ℕ}

/-- What the search has found out when it ends. -/
theorem rlSearch_result {fuel range placeAfter : ℕ} {result : SearchResult}
    (h : Chain rl (pre ++ suf)) (hfuel : suf.length < fuel) (hrange : range = suf.headD 0)
    (hresult : rlSearch rq.type rq.key rq.start rq.size rl fuel range placeAfter = some result) :
    (result = .found → ∃ a ∈ suf, ∃ r, rl.get a = some r ∧ Blocks r.held rq ∧
      rlBlocker rq rl fuel range = some (a, r.held)) ∧
    ∀ p, result = .place p → ∀ a ∈ suf, ∀ r, rl.get a = some r →
      rq.start < r.held.stop → r.held.start < rq.start + rq.size →
        r.held.key ≠ rq.key ∧ ¬ Incompatible r.held.type rq.type := by
  induction suf generalizing pre fuel range placeAfter with
  | nil =>
    obtain ⟨fuel, rfl⟩ := Nat.exists_eq_succ_of_ne_zero (Nat.ne_of_gt hfuel)
    rw [rlSearch, hrange] at hresult
    cases hresult
    exact ⟨fun he => (by cases he), fun _ _ a ha => absurd ha List.not_mem_nil⟩
  | cons a rest ih =>
    obtain ⟨fuel, rfl⟩ := Nat.exists_eq_succ_of_ne_zero (Nat.ne_of_gt (Nat.zero_lt_of_lt hfuel))
    obtain rfl : range = a := hrange
    obtain ⟨r, hr, -⟩ := h.alloc range (by simp)
    have hne := h.ne_zero (List.mem_append_right pre List.mem_cons_self)
    have hassoc : pre ++ range :: rest = (pre ++ [range]) ++ rest := by simp
    simp only [rlSearch, if_neg hne, hr, Option.bind_eq_bind, Option.bind_some] at hresult
    have hblocker : rlBlocker rq rl (fuel + 1) range =
        if Blocks r.held rq then some (range, r.held) else rlBlocker rq rl fuel r.next := by
      simp only [rlBlocker, if_neg hne, hr, Option.bind_eq_bind, Option.bind_some]
      split_ifs <;> rfl
    by_cases h₁ : rq.start < r.stop ∧ r.start < rq.start + rq.size
    · by_cases h₂ : r.key = rq.key
      · rw [if_pos h₁, if_pos h₂] at hresult
        cases hresult
        exact ⟨fun he => (by cases he), fun _ he => by cases he⟩
      · by_cases h₃ : r.type = .write ∨ rq.type = .write
        · rw [if_pos h₁, if_neg h₂, if_pos h₃] at hresult
          cases hresult
          have hblocks : Blocks r.held rq := ⟨h₁.1, h₁.2, h₂, h₃⟩
          exact ⟨fun _ => ⟨range, List.mem_cons_self, r, hr, hblocks, by
            rw [hblocker, if_pos hblocks]⟩, fun _ he => by cases he⟩
        · rw [if_pos h₁, if_neg h₂, if_neg h₃] at hresult
          have hnot : ¬ Blocks r.held rq := fun hb => h₃ hb.2.2.2
          obtain ⟨hfound, hplace⟩ := ih (hassoc ▸ h) (by simpa using hfuel) (h.next_of_get hr)
            hresult
          refine ⟨fun he => ?_, fun p he a ha x hx _ _ => ?_⟩
          · obtain ⟨a, ha, hrest⟩ := hfound he
            rw [hblocker, if_neg hnot]
            exact ⟨a, List.mem_cons_of_mem _ ha, hrest⟩
          · rcases List.mem_cons.1 ha with rfl | ha
            · obtain rfl : r = x := Option.some.inj (hr.symm.trans hx)
              exact ⟨h₂, h₃⟩
            · exact hplace p he a ha x hx ‹_› ‹_›
    · rw [if_neg h₁] at hresult
      have hnot : ¬ Blocks r.held rq := fun hb => h₁ ⟨hb.1, hb.2.1⟩
      obtain ⟨hfound, hplace⟩ := ih (hassoc ▸ h) (by simpa using hfuel) (h.next_of_get hr) hresult
      refine ⟨fun he => ?_, fun p he a ha x hx hs ht => ?_⟩
      · obtain ⟨a, ha, hrest⟩ := hfound he
        rw [hblocker, if_neg hnot]
        exact ⟨a, List.mem_cons_of_mem _ ha, hrest⟩
      · rcases List.mem_cons.1 ha with rfl | ha
        · obtain rfl : r = x := Option.some.inj (hr.symm.trans hx)
          exact absurd ⟨hs, ht⟩ h₁
        · exact hplace p he a ha x hx hs ht

theorem mem_contents {r : Held} :
    r ∈ rl.contents l ↔ ∃ a ∈ l, (rl.get a).map LockedRange.held = some r := List.mem_filterMap

/-- Ranges of which the search says that they do not overlap share no unit. -/
theorem disjoint_units {r r' : Held} (hr : r.Fits) (hr' : r'.Fits)
    (h : ¬ (r.start < r'.stop ∧ r'.start < r.start + r.size)) : Disjoint r'.units r.units := by
  refine Set.disjoint_left.2 fun b hb' hb => h ?_
  rw [UInt64.lt_iff_toNat_lt, UInt64.lt_iff_toNat_lt, hr'.toNat_stop, toNat_add_of_lt hr]
  exact ⟨Nat.lt_of_le_of_lt hb.1 hb'.2, Nat.lt_of_le_of_lt hb'.1 hb.2⟩

/-- What a turn of `rlSet` leaves: the ranges there were, and perhaps a new one or a new request. -/
structure Turn (rl : RangeLock) (l : List ℕ) (tid : ℕ) (rq : PendingRangeRequest)
    (result : SetResult) (rl' : RangeLock) (l' : List ℕ) : Prop where
  chain : Chain rl' l'
  exclusive : Exclusive (rl'.contents l')
  keeps : ∀ b ∈ l, b ∈ l' ∧ (rl'.get b).map LockedRange.held = (rl.get b).map LockedRange.held
  requests : rl'.requests = if result = .blocked then rl.requests ++ [tid] else rl.requests
  blocker : result = .blocked → ∃ a ∈ l, ∃ r, rl.get a = some r ∧ Blocks r.held rq ∧
    rlBlocker rq rl rl.heap.brk rl.ranges = some (a, r.held)

theorem rlSetTurn_spec (tid : ℕ) (block : Bool) (h : Chain rl l) (hx : Exclusive (rl.contents l))
    (hfits : rq.start.toNat + rq.size.toNat < 2 ^ 64) :
    ∃ result rl' l', rlSetTurn rl tid rq.type rq.key rq.start rq.size block = some (result, rl') ∧
      Turn rl l tid rq result rl' l' := by
  obtain ⟨search, e, hmem⟩ := @rlSearch_spec rl rq.type rq.key rq.start rq.size [] l rl.heap.brk
    rl.ranges 0 h h.length_lt h.linked.head_eq (Or.inl rfl)
  obtain ⟨hfound, hplace⟩ := @rlSearch_result rl rq [] l rl.heap.brk rl.ranges 0 search h
    h.length_lt h.linked.head_eq e
  simp only [rlSetTurn, e, Option.bind_eq_bind, Option.bind_some]
  cases search with
  | deadlock =>
    exact ⟨_, rl, l, rfl, h, hx, fun b hb => ⟨hb, rfl⟩, rfl, fun he => by cases he⟩
  | found =>
    cases block with
    | true =>
      exact ⟨_, _, l, rfl, ⟨h.linked, h.nodup, h.alloc⟩, hx, fun b hb => ⟨hb, rfl⟩, rfl,
        fun _ => hfound rfl⟩
    | false =>
      exact ⟨_, rl, l, rfl, h, hx, fun b hb => ⟨hb, rfl⟩, rfl, fun he => by cases he⟩
  | place p =>
    obtain ⟨pre, suf, rfl, hp⟩ : ∃ pre suf, l = pre ++ suf ∧ p = pre.getLastD 0 := by
      rcases hmem p rfl with rfl | hm
      · exact ⟨[], l, rfl, rfl⟩
      · obtain ⟨s, t, rfl⟩ := List.append_of_mem hm
        exact ⟨s ++ [p], t, by simp, by simp⟩
    obtain ⟨rl', e', chain', requests', hnew, hold⟩ :=
      rlInsert_spec h (show Held.Fits ⟨rq.type, rq.key, rq.start, rq.size⟩ from hfits)
    refine ⟨.done, rl', _, by simp only [hp, e', Option.bind_some]; rfl, chain', ?_,
      fun b hb => ⟨?_, hold b hb⟩, requests', fun he => by cases he⟩
    · have hins : Exclusive (⟨rq.type, rq.key, rq.start, rq.size⟩ :: rl.contents (pre ++ suf)) := by
        refine hx.insert fun r hr hne hinc => ?_
        obtain ⟨a, ha, hra⟩ := mem_contents.1 hr
        obtain ⟨x, hxa, rfl⟩ := Option.map_eq_some_iff.1 hra
        refine disjoint_units hfits (h.fits_contents _ hr) fun hover => ?_
        exact (hplace p rfl a ha x hxa hover.1 hover.2).2 hinc
      refine hins.mono fun r hr => ?_
      obtain ⟨a, ha, hra⟩ := mem_contents.1 hr
      rw [List.mem_append, List.mem_cons, or_left_comm, ← List.mem_append] at ha
      rcases ha with rfl | ha
      · rw [hnew] at hra
        exact List.mem_cons.2 (Or.inl (Option.some.inj hra).symm)
      · rw [hold a ha] at hra
        exact List.mem_cons_of_mem _ (mem_contents.2 ⟨a, ha, hra⟩)
    · simp only [List.mem_append, List.mem_cons] at hb ⊢
      tauto

end Search

/-! ## Runs -/

/-- A range lock, with the range that each blocked call of `rlSet` found in its way. -/
structure WatchedLock where
  s : RangeLockState
  blocker : ℕ → Option (ℕ × Held)

/-- The thread that takes a turn of `rlSet`, and what it asks for. -/
def RangeLockOp.turn (s : RangeLockState) : RangeLockOp → Option (ℕ × PendingRangeRequest)
  | .set tid type key start size _ => some (tid, ⟨type, key, start, size⟩)
  | .retry tid => (s.blocked tid).map fun rq => (tid, rq)
  | _ => none

namespace WatchedLock

/-- What the search of a turn finds in the way is recorded. -/
def record (w : WatchedLock) (op : RangeLockOp) : ℕ → Option (ℕ × Held) :=
  match op.turn w.s with
  | none => w.blocker
  | some (tid, rq) =>
    Function.update w.blocker tid (rlBlocker rq w.s.rl w.s.rl.heap.brk w.s.rl.ranges)

/-- The ranges that are held are compatible. -/
def Exclusive (w : WatchedLock) : Prop :=
  ∀ l, Linked w.s.rl.next w.s.rl.ranges l → Thread.Exclusive (w.s.rl.contents l)

/-- Every queued request is that of a blocked call, and the range that was in its way is there, as it
was. -/
def BlockersUntouched (w : WatchedLock) : Prop :=
  ∀ tid ∈ w.s.rl.requests, ∃ rq a r, w.s.blocked tid = some rq ∧ w.blocker tid = some (a, r) ∧
    Blocks r rq ∧ ∃ l, Linked w.s.rl.next w.s.rl.ranges l ∧ a ∈ l ∧
      (w.s.rl.get a).map LockedRange.held = some r

/-- The `prev` links that an unlocking call uses are right, and no gap that it closes has an
incompatible lock of another key. -/
def StepOk (w : WatchedLock) (op : RangeLockOp) : Prop :=
  UnlockOk w.s op ∧ ∀ key start size, op.unlocks = some (key, start, size) →
    ∀ l, Linked w.s.rl.next w.s.rl.ranges l → GapsCompatible key start size (w.s.rl.contents l)

end WatchedLock

/-- The runs of a range lock, watched. -/
def watchedSystem : System WatchedLock RangeLockOp where
  init w := w = ⟨⟨rlInit, fun _ => none⟩, fun _ => none⟩
  step w op w' := w.s.apply op = some w'.s ∧ w'.blocker = w.record op

/-! ### The invariant -/

/-- The list is in memory and the ranges on it are compatible; the calls that are blocked have passed
the range check, and have one request each at most, for which `BlockersUntouched` holds. -/
structure WatchedInv (w : WatchedLock) : Prop where
  chain : ∃ l, Chain w.s.rl l ∧ Exclusive (w.s.rl.contents l)
  blocked : ∀ tid rq, w.s.blocked tid = some rq → rq.start.toNat + rq.size.toNat < 2 ^ 64
  nodup : w.s.rl.requests.Nodup
  untouched : w.BlockersUntouched

section Steps

variable {w w' : WatchedLock} {tid : ℕ} {rq : PendingRangeRequest}

theorem WatchedInv.exclusive (h : WatchedInv w) : w.Exclusive := by
  obtain ⟨l, hl, hx⟩ := h.chain
  intro l' hl'
  rwa [hl'.unique hl.linked]

/-- A thread that is not blocked has no request. -/
theorem WatchedInv.notMem_requests (h : WatchedInv w) (htid : w.s.blocked tid = none) :
    tid ∉ w.s.rl.requests := by
  intro hm
  obtain ⟨rq, _, _, hrq, -⟩ := h.untouched tid hm
  rw [htid] at hrq
  cases hrq

theorem settle_blocked_self {s : RangeLockState} {result : SetResult × RangeLock} :
    (s.settle tid rq result).blocked tid = if result.1 = .blocked then some rq else none :=
  Function.update_self ..

theorem settle_blocked_of_ne {s : RangeLockState} {result : SetResult × RangeLock} {t : ℕ}
    (h : t ≠ tid) : (s.settle tid rq result).blocked t = s.blocked t :=
  Function.update_of_ne h ..

/-- A turn of `rlSet` keeps the invariant. -/
theorem WatchedInv.turn {l l' : List ℕ} {result : SetResult} {rl' : RangeLock} (h : WatchedInv w)
    (hl : Linked w.s.rl.next w.s.rl.ranges l) (htid : tid ∉ w.s.rl.requests)
    (hfits : result = .blocked → rq.start.toNat + rq.size.toNat < 2 ^ 64)
    (ht : Turn w.s.rl l tid rq result rl' l') :
    WatchedInv ⟨w.s.settle tid rq (result, rl'),
      Function.update w.blocker tid (rlBlocker rq w.s.rl w.s.rl.heap.brk w.s.rl.ranges)⟩ := by
  refine ⟨⟨l', ht.chain, ht.exclusive⟩, fun t rq' hrq' => ?_, ?_, fun t hm => ?_⟩
  · change (w.s.settle tid rq (result, rl')).blocked t = some rq' at hrq'
    by_cases htt : t = tid
    · rw [htt, settle_blocked_self] at hrq'
      split_ifs at hrq' with hb
      cases hrq'
      exact hfits hb
    · rw [settle_blocked_of_ne htt] at hrq'
      exact h.blocked t rq' hrq'
  · show rl'.requests.Nodup
    rw [ht.requests]
    split_ifs
    · exact List.nodup_append.2 ⟨h.nodup, List.nodup_singleton tid, fun a ha b hb => by
        rw [List.mem_singleton.1 hb]
        exact fun e => htid (e ▸ ha)⟩
    · exact h.nodup
  · have hcases : t ∈ w.s.rl.requests ∨ t = tid ∧ result = .blocked := by
      have hm' : t ∈ rl'.requests := hm
      rw [ht.requests] at hm'
      split_ifs at hm' with hb
      · exact (List.mem_append.1 hm').imp_right fun he => ⟨List.mem_singleton.1 he, hb⟩
      · exact Or.inl hm'
    rcases hcases with hold | ⟨rfl, hb⟩
    · have htt : t ≠ tid := fun e => htid (e ▸ hold)
      obtain ⟨rq', a, r, hrq', ha, hblocks, l₁, hl₁, hal₁, hget⟩ := h.untouched t hold
      obtain ⟨hal', hkeep⟩ := ht.keeps a (hl₁.unique hl ▸ hal₁)
      exact ⟨rq', a, r, (settle_blocked_of_ne htt).trans hrq',
        (Function.update_of_ne htt _ _).trans ha, hblocks, l', ht.chain.linked, hal',
        hkeep.trans hget⟩
    · obtain ⟨a, hal, r, hget, hblocks, hblocker⟩ := ht.blocker hb
      obtain ⟨hal', hkeep⟩ := ht.keeps a hal
      refine ⟨rq, a, r.held, ?_, ?_, hblocks, l', ht.chain.linked, hal', ?_⟩
      · exact settle_blocked_self.trans (if_pos hb)
      · exact (Function.update_self ..).trans hblocker
      · exact hkeep.trans (by rw [hget]; rfl)

/-- Unlocking keeps the invariant, whatever the other threads do. -/
theorem WatchedInv.unlock {key start size : UInt64} {rl' : RangeLock}
    {blocked : ℕ → Option PendingRangeRequest} (blocker : ℕ → Option (ℕ × Held))
    (h : WatchedInv w) (hU : start.toNat + size.toNat < 2 ^ 64)
    (hlinks : PrevLinksOk w.s.rl key start size)
    (hgaps : ∀ l, Linked w.s.rl.next w.s.rl.ranges l →
      GapsCompatible key start size (w.s.rl.contents l))
    (hblocked : ∀ t rq, blocked t = some rq → w.s.blocked t = some rq)
    (he : rlUnlock w.s.rl key start size = some rl') : WatchedInv ⟨⟨rl', blocked⟩, blocker⟩ := by
  obtain ⟨l, hl, hx⟩ := h.chain
  obtain ⟨rl'', l', e, chain', requests', contents'⟩ := rlUnlock_spec hU hl hlinks
  obtain rfl : rl'' = rl' := Option.some.inj (e.symm.trans he)
  refine ⟨⟨l', chain', ?_⟩, fun t rq ht => h.blocked t rq (hblocked t rq ht), ?_, fun t hm => ?_⟩
  · show Exclusive (rl''.contents l')
    rw [contents']
    exact (exclusive_flatMap_iff hU hl.fits_contents hx).2 (hgaps l hl.linked)
  · show rl''.requests.Nodup
    rw [requests']
    exact List.nodup_nil
  · have hm' : t ∈ rl''.requests := hm
    rw [requests'] at hm'
    cases hm'

/-- The wait of a thread ends, and its request, if it has one, is taken off the queue. -/
theorem WatchedInv.interrupt (h : WatchedInv w) (tid : ℕ) :
    WatchedInv ⟨⟨{ w.s.rl with requests := w.s.rl.requests.erase tid },
      Function.update w.s.blocked tid none⟩, w.blocker⟩ := by
  obtain ⟨l, hl, hx⟩ := h.chain
  refine ⟨⟨l, ⟨hl.linked, hl.nodup, hl.alloc⟩, hx⟩, fun t rq ht => ?_, h.nodup.erase tid,
    fun t hm => ?_⟩
  · by_cases htt : t = tid
    · simp [htt] at ht
    · exact h.blocked t rq ((Function.update_of_ne htt _ _).symm.trans ht)
  · obtain ⟨hne, hm'⟩ := h.nodup.mem_erase_iff.1 hm
    obtain ⟨rq, a, r, hrq, ha, hblocks, l', hl', hal, hget⟩ := h.untouched t hm'
    exact ⟨rq, a, r, (Function.update_of_ne hne _ _).trans hrq, ha, hblocks, l', hl', hal, hget⟩

theorem WatchedInv.step {op : RangeLockOp} (h : WatchedInv w) (hok : w.StepOk op)
    (ht : w.s.apply op = some w'.s) (hrecord : w'.blocker = w.record op) : WatchedInv w' := by
  obtain ⟨s', blocker'⟩ := w'
  obtain ⟨l, hl, hx⟩ := h.chain
  obtain rfl : blocker' = w.record op := hrecord
  cases op with
  | set tid type key start size block =>
    simp only [RangeLockState.apply] at ht
    split_ifs at ht with hidle
    obtain ⟨⟨result, rl'⟩, hp, rfl⟩ := Option.map_eq_some_iff.1 ht
    have hreq := h.notMem_requests hidle
    rw [rlSet] at hp
    split_ifs at hp with hgt htype
    · cases hp
      exact h.turn hl.linked hreq (fun he => by cases he)
        ⟨hl, hx, fun b hb => ⟨hb, rfl⟩, rfl, fun he => by cases he⟩
    · have hop : RangeLockOp.unlocks (.set tid type key start size block) =
          some (key, start, size) := by
        rw [htype, RangeLockOp.unlocks, if_neg hgt]
      obtain ⟨rl'', he, hpair⟩ := Option.map_eq_some_iff.1 hp
      cases hpair
      refine h.unlock _ (not_gt_complement.1 hgt) (hok.1 key start size hop)
        (hok.2 key start size hop) (fun t rq hrq => ?_) he
      by_cases htt : t = tid
      · rw [htt, Function.update_self] at hrq
        cases hrq
      · rwa [Function.update_of_ne htt] at hrq
    · obtain ⟨result', rl'', l', e, hturn⟩ := @rlSetTurn_spec w.s.rl
        ⟨type, key, start, size⟩ l tid block hl hx (not_gt_complement.1 hgt)
      cases hp.symm.trans e
      exact h.turn hl.linked hreq (fun _ => not_gt_complement.1 hgt) hturn
  | retry tid =>
    simp only [RangeLockState.apply] at ht
    split at ht
    · cases ht
    · next rq hrq =>
      split_ifs at ht with hreq
      obtain ⟨⟨result, rl'⟩, hp, rfl⟩ := Option.map_eq_some_iff.1 ht
      obtain ⟨result', rl'', l', e, hturn⟩ := rlSetTurn_spec tid true hl hx (h.blocked tid rq hrq)
      cases hp.symm.trans e
      have hrecord : w.record (.retry tid) = Function.update w.blocker tid
          (rlBlocker rq w.s.rl w.s.rl.heap.brk w.s.rl.ranges) := by
        simp only [WatchedLock.record, RangeLockOp.turn, hrq, Option.map_some]
      rw [hrecord]
      exact h.turn hl.linked hreq (fun _ => h.blocked tid rq hrq) hturn
  | interrupt tid =>
    simp only [RangeLockState.apply] at ht
    split at ht <;> cases ht
    exact h.interrupt tid
  | releaseKey key =>
    obtain ⟨rl', he, rfl⟩ := Option.map_eq_some_iff.1 ht
    exact h.unlock _ (by decide) (hok.1 key 0 _ rfl) (hok.2 key 0 _ rfl) (fun _ _ hrq => hrq) he

end Steps

theorem WatchedInv.of_reaches {w : WatchedLock} (h : watchedSystem.ReachesBy WatchedLock.StepOk w) :
    WatchedInv w :=
  h.invariant
    (fun _ hw => hw ▸ ⟨⟨[], ⟨rfl, List.nodup_nil, fun _ ha => absurd ha List.not_mem_nil⟩,
      fun _ hr => absurd hr List.not_mem_nil⟩, fun _ _ hrq => (nomatch hrq), List.nodup_nil,
      fun _ hm => absurd hm List.not_mem_nil⟩)
    fun _ _ _ hw hok ht => hw.step hok ht.1 ht.2

theorem unlocks_requests {s t : RangeLockState} {op : RangeLockOp} (hop : op.unlocks ≠ none)
    (ht : s.apply op = some t) : t.rl.requests = [] := by
  have hempty : ∀ {rl rl' : RangeLock} {key start size : UInt64},
      rlUnlock rl key start size = some rl' → rl'.requests = [] := by
    intro rl rl' key start size h
    obtain ⟨rl₁, -, h⟩ := Option.bind_eq_some_iff.1 h
    cases h
    rfl
  cases op with
  | set tid type key start size block =>
    cases type <;> simp only [RangeLockOp.unlocks, ne_eq, not_true_eq_false] at hop
    split_ifs at hop with hgt
    · exact absurd rfl hop
    · rw [RangeLockState.apply] at ht
      split_ifs at ht
      rw [rlSet, if_neg hgt, if_pos rfl] at ht
      obtain ⟨p, hp, rfl⟩ := Option.map_eq_some_iff.1 ht
      obtain ⟨rl', he, rfl⟩ := Option.map_eq_some_iff.1 hp
      exact hempty he
  | releaseKey key =>
    obtain ⟨rl', he, rfl⟩ := Option.map_eq_some_iff.1 ht
    exact hempty he
  | retry tid => exact absurd rfl hop
  | interrupt tid => exact absurd rfl hop

/-- In every state of a run whose unlocking calls use right `prev` links and close no gap with an
incompatible lock, the ranges that are held are compatible and the range in the way of each queued
request is as it was; every unlocking call releases all requests. -/
theorem rangeLock_exclusion (w : WatchedLock) (h : watchedSystem.ReachesBy WatchedLock.StepOk w) :
    w.Exclusive ∧ w.BlockersUntouched ∧
      ∀ op w', op.unlocks ≠ none → watchedSystem.step w op w' → w'.s.rl.requests = [] := by
  have hinv := WatchedInv.of_reaches h
  exact ⟨hinv.exclusive, hinv.untouched, fun op w' hop ht => unlocks_requests hop ht.1⟩

/-! ### A write lock stretched over another -/

/-- The state after an operation, with what its search found. -/
def WatchedLock.apply (w : WatchedLock) (op : RangeLockOp) : Option WatchedLock :=
  (w.s.apply op).map fun s => ⟨s, w.record op⟩

theorem WatchedLock.step_of_apply {w w' : WatchedLock} {op : RangeLockOp}
    (h : w.apply op = some w') : watchedSystem.step w op w' := by
  obtain ⟨s, hs, rfl⟩ := Option.map_eq_some_iff.1 h
  exact ⟨hs, rfl⟩

def unusedWatched : WatchedLock := ⟨unusedLock, fun _ => none⟩

/-- Key 1 has a write lock on the first ten units, and key 2 waits for one on the units 5 to 9. -/
def contended : WatchedLock :=
  ([.set 0 .write 1 0 10 false, .set 1 .write 2 5 5 true].foldlM WatchedLock.apply
    unusedWatched).getD unusedWatched

theorem rangeLock_exclusion_contended :
    contended.Exclusive ∧ contended.BlockersUntouched ∧
      ∀ op w', op.unlocks ≠ none → watchedSystem.step contended op w' → w'.s.rl.requests = [] := by
  have hset : ∀ w tid key start size block,
      WatchedLock.StepOk w (.set tid .write key start size block) :=
    fun w tid key start size block =>
      ⟨fun _ _ _ h => (nomatch h), fun _ _ _ h => (nomatch h)⟩
  refine rangeLock_exclusion contended ?_
  exact .step (.step (.init rfl) (hset unusedWatched 0 1 0 10 false)
    (WatchedLock.step_of_apply rfl)) (hset _ 1 2 5 5 true) (WatchedLock.step_of_apply rfl)

/-- Key 1 has a write lock on the first ten units and key 2 on the units 12 and 13; then key 1
unlocks the units 20 to 29. -/
def stretched : WatchedLock :=
  ([.set 0 .write 1 0 10 false, .set 1 .write 2 12 2 false,
    .set 0 .unlock 1 20 10 false].foldlM WatchedLock.apply unusedWatched).getD unusedWatched

/-- Both keys then have a write lock on unit 12. -/
theorem rangeLock_not_exclusion :
    ¬ ∀ w, watchedSystem.Reachable w → w.Exclusive ∧ w.BlockersUntouched := by
  intro hall
  have hrun : [.set 0 .write 1 0 10 false, .set 1 .write 2 12 2 false,
      .set 0 .unlock 1 20 10 false].foldlM WatchedLock.apply unusedWatched = some stretched := rfl
  have hreach : watchedSystem.Reachable stretched :=
    System.ReachesBy.foldlM (fun w op w' h => ⟨trivial, WatchedLock.step_of_apply h⟩)
      (.init rfl) hrun
  have hcontents : stretched.s.rl.contents [1, 2] =
      [⟨.write, 1, 0, 20⟩, ⟨.write, 2, 12, 2⟩] := rfl
  have hx := (hall stretched hreach).1 [1, 2] ⟨rfl, by decide, rfl, by decide, rfl⟩
  rw [hcontents] at hx
  have hdisj : Disjoint (Held.units ⟨.write, 1, 0, 20⟩) (Held.units ⟨.write, 2, 12, 2⟩) :=
    hx _ (by simp) _ (by simp) (by decide) (Or.inl rfl)
  exact Set.disjoint_left.1 hdisj (show 12 ∈ Held.units ⟨.write, 1, 0, 20⟩ from
    ⟨by decide, by decide⟩) ⟨by decide, by decide⟩

end Glidix.Thread
