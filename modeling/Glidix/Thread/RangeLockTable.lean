import Mathlib.Data.Set.Lattice
import Mathlib.Order.CompletePartialOrder
import Glidix.Thread.RangeUnlock

/-!
# Unlocking refines the table of locked units

The list of ranges stays in memory and in order over every run in which the `prev` links used by the
unlocking calls are right (`exists_chain`).  In the states of such runs an unlocking call takes
exactly its interval away from its key if and only if every unit between the interval and a range of
the key is locked already (`rlUnlock_refines_iff`).
-/

namespace Glidix.Thread

section Insert

variable {rl : RangeLock} {type : LockType} {key start size : UInt64} {l pre suf : List ℕ}

/-- The search returns, and places the new range at the front or after an element of the list. -/
theorem rlSearch_spec {fuel range placeAfter : ℕ} (h : Chain rl (pre ++ suf))
    (hfuel : suf.length < fuel) (hrange : range = suf.headD 0)
    (hplace : placeAfter = 0 ∨ placeAfter ∈ pre) :
    ∃ result, rlSearch type key start size rl fuel range placeAfter = some result ∧
      ∀ p, result = .place p → p = 0 ∨ p ∈ pre ++ suf := by
  induction suf generalizing pre fuel range placeAfter with
  | nil =>
    obtain ⟨fuel, rfl⟩ := Nat.exists_eq_succ_of_ne_zero (Nat.ne_of_gt hfuel)
    refine ⟨.place placeAfter, by rw [rlSearch, hrange]; rfl, ?_⟩
    rintro p ⟨⟩
    exact hplace.imp_right (List.mem_append_left _)
  | cons a rest ih =>
    obtain ⟨fuel, rfl⟩ := Nat.exists_eq_succ_of_ne_zero (Nat.ne_of_gt (Nat.zero_lt_of_lt hfuel))
    obtain rfl : range = a := hrange
    obtain ⟨r, hr, -⟩ := h.alloc range (by simp)
    have hassoc : pre ++ range :: rest = (pre ++ [range]) ++ rest := by simp
    simp only [rlSearch, if_neg (h.ne_zero (List.mem_append_right pre List.mem_cons_self)), hr,
      Option.bind_eq_bind, Option.bind_some]
    have hnext := @ih (pre ++ [range]) fuel r.next (if r.start < start then range else placeAfter)
      (hassoc ▸ h) (by simpa using hfuel) (h.next_of_get hr) (by
        split_ifs
        · exact Or.inr (by simp)
        · exact hplace.imp_right (List.mem_append_left _))
    rw [← hassoc] at hnext
    by_cases h₁ : start < r.stop ∧ r.start < start + size
    · by_cases h₂ : r.key = key
      · refine ⟨.deadlock, by rw [if_pos h₁, if_pos h₂]; rfl, ?_⟩
        rintro p ⟨⟩
      · by_cases h₃ : r.type = .write ∨ type = .write
        · refine ⟨.found, by rw [if_pos h₁, if_neg h₂, if_pos h₃]; rfl, ?_⟩
          rintro p ⟨⟩
        · rwa [if_pos h₁, if_neg h₂, if_neg h₃]
    · rwa [if_neg h₁]

/-- The new range goes in after the elements `pre`, and the others say what they said. -/
theorem rlInsert_spec (h : Chain rl (pre ++ suf)) (hfits : Held.Fits ⟨type, key, start, size⟩) :
    ∃ rl', rlInsert rl type key start size (pre.getLastD 0) = some rl' ∧
      Chain rl' (pre ++ rl.heap.brk :: suf) ∧ rl'.requests = rl.requests ∧
      (rl'.get rl.heap.brk).map LockedRange.held = some ⟨type, key, start, size⟩ ∧
      ∀ b ∈ pre ++ suf, (rl'.get b).map LockedRange.held = (rl.get b).map LockedRange.held := by
  have hfresh := h.brk_notMem
  have hbrk := Nat.ne_of_gt rl.heap.brk_pos
  obtain ⟨y, hy⟩ : ∃ y : LockedRange,
      y = ⟨pre.getLastD 0, suf.headD 0, type, key, start, size⟩ := ⟨_, rfl⟩
  have hnew : ∀ b ∈ pre ++ suf, (rl.new y).2.get b = rl.get b := fun b hb =>
    Heap.get_new_ne fun e => hfresh (e ▸ hb)
  have hsuf : suf.headD 0 = 0 ∨ suf.headD 0 ∈ pre ++ suf :=
    headD_mem_or.imp_right (List.mem_append_right _)
  by_cases hpre : pre = []
  · -- at the front
    subst hpre
    obtain ⟨rl', e, ranges', requests', get'⟩ := RangeLock.modifyNonNull_spec
      (a := suf.headD 0) (f := fun r => { r with prev := rl.heap.brk })
      (hsuf.imp_right fun hm => (h.alloc _ hm).imp fun x hx => by rw [hnew _ hm, hx.1])
    have hranges : rl.ranges = suf.headD 0 := h.linked.head_eq
    have hne : rl.heap.brk ≠ suf.headD 0 := fun e =>
      hsuf.elim (fun hz => hbrk (e.trans hz)) fun hm => hfresh (e ▸ hm)
    have hget : ∀ b, ({ rl' with ranges := rl.heap.brk } : RangeLock).get b = rl'.get b :=
      fun _ => rfl
    have hself : rl'.get rl.heap.brk = some y := by
      rw [get', if_neg hne]
      exact Heap.get_new_self
    refine ⟨{ rl' with ranges := rl.heap.brk }, ?_, ?_, requests', ?_, fun b hb => ?_⟩
    · rw [hy, ← hranges] at e
      simp only [rlInsert, List.getLastD_nil, if_true]
      exact congrArg (Option.bind · _) e
    · refine h.insert hbrk hfresh (y := y) ?_ (by rw [hy]) (by rw [hy]; exact hfits)
        (if_pos rfl).symm fun b hb x hx => ?_
      · exact hself
      · obtain ⟨x', hx', hxfits⟩ := h.alloc b hb
        obtain rfl : x' = x := Option.some_inj.1 (hx'.symm.trans hx)
        show ∃ z, rl'.get b = some z ∧ _
        rw [get', hnew b hb, hx, List.getLast?_nil, if_neg (Option.some_ne_none b).symm]
        split_ifs <;> exact ⟨_, rfl, hxfits, rfl⟩
    · rw [hget, hself, hy]
      rfl
    · obtain ⟨x, hx, -⟩ := h.alloc b hb
      rw [hget, get', hnew b hb, hx]
      split_ifs <;> rfl
  · -- after the last element of `pre`
    obtain ⟨front, p, rfl⟩ := List.eq_nil_or_concat pre |>.resolve_left hpre
    rw [List.concat_eq_append] at *
    have hlast : (front ++ [p]).getLastD 0 = p := by simp
    have hpmem : p ∈ front ++ [p] ++ suf := by simp
    have hp0 : p ≠ 0 := h.ne_zero hpmem
    obtain ⟨x, hx, hxfits⟩ := h.alloc p hpmem
    have hxnext : x.next = suf.headD 0 := by
      have hfront : Chain rl (front ++ p :: suf) := by simpa using h
      exact hfront.next_of_get hx
    rw [hlast] at hy ⊢
    obtain ⟨rl₁, e₁, ranges₁, requests₁, get₁⟩ := RangeLock.modify_spec
      (f := fun p => { p with next := rl.heap.brk }) ((hnew p hpmem).trans hx)
    obtain ⟨rl₂, e₂, ranges₂, requests₂, get₂⟩ := RangeLock.modifyNonNull_spec
      (a := suf.headD 0) (f := fun r => { r with prev := rl.heap.brk })
      (hsuf.imp_right fun hm => by
        obtain ⟨z, hz, -⟩ := h.alloc _ hm
        rw [get₁, hnew _ hm, hz]
        split_ifs <;> exact ⟨_, rfl⟩)
    have hne : ∀ b ∈ front ++ [p] ++ suf, rl.heap.brk ≠ b := fun b hb e => hfresh (e ▸ hb)
    have hself : rl₂.get rl.heap.brk = some y := by
      rw [get₂, if_neg (fun e => hsuf.elim (fun h0 => hbrk (e.trans h0))
        fun hm => hne _ hm e), get₁, if_neg (hne p hpmem)]
      exact Heap.get_new_self
    refine ⟨rl₂, ?_, ?_, requests₂.trans requests₁, by rw [hself, hy]; rfl, fun b hb => ?_⟩
    · rw [hy] at e₁
      simp only [rlInsert, if_neg hp0, hx, hxnext, Option.bind_eq_bind, Option.bind_some]
      exact (congrArg (Option.bind · _) e₁).trans e₂
    · refine h.insert hbrk hfresh (y := y) ?_ (by rw [hy]) (by rw [hy]; exact hfits)
        ((ranges₂.trans ranges₁).trans (if_neg hpre).symm) fun b hb z hz => ?_
      · exact hself
      · obtain ⟨z', hz', hzfits⟩ := h.alloc b hb
        obtain rfl : z' = z := Option.some_inj.1 (hz'.symm.trans hz)
        simp only [get₂, get₁, hnew b hb, hz, List.getLast?_concat, Option.some_inj]
        by_cases hbp : p = b
        · obtain rfl : x = z' := Option.some_inj.1 (hx.symm.trans (hbp ▸ hz))
          simp only [if_pos hbp.symm, if_pos hbp]
          split_ifs <;> exact ⟨_, rfl, hzfits, rfl⟩
        · simp only [if_neg (Ne.symm hbp), if_neg hbp]
          split_ifs <;> exact ⟨_, rfl, hzfits, rfl⟩
    · obtain ⟨z, hz, -⟩ := h.alloc b hb
      rw [get₂, get₁, hnew b hb, hz]
      by_cases hbp : p = b
      · obtain rfl : x = z := Option.some_inj.1 (hx.symm.trans (hbp ▸ hz))
        simp only [if_pos hbp.symm]
        split_ifs <;> rfl
      · simp only [if_neg (Ne.symm hbp)]
        split_ifs <;> rfl

end Insert

/-! ## Runs -/

/-- The interval that an operation takes away from a key, if it is an unlocking one that passes the
range check. -/
def RangeLockOp.unlocks : RangeLockOp → Option (UInt64 × UInt64 × UInt64)
  | .set _ .unlock key start size _ => if size > ~~~start then none else some (key, start, size)
  | .releaseKey key => some (key, 0, 0xFFFFFFFFFFFFFFFF)
  | _ => none

/-- The condition on a step: the `prev` links that an unlocking call uses are right. -/
def UnlockOk (s : RangeLockState) (op : RangeLockOp) : Prop :=
  ∀ key start size, op.unlocks = some (key, start, size) → PrevLinksOk s.rl key start size

theorem not_gt_complement {start size : UInt64} :
    ¬ size > ~~~start ↔ start.toNat + size.toNat < 2 ^ 64 := by
  have h := start.toNat_lt
  rw [gt_iff_lt, UInt64.lt_iff_toNat_lt, UInt64.toNat_not]
  simp only [UInt64.size]
  omega

theorem RangeLockOp.unlocks_fits {op : RangeLockOp} {key start size : UInt64}
    (h : op.unlocks = some (key, start, size)) : start.toNat + size.toNat < 2 ^ 64 := by
  unfold RangeLockOp.unlocks at h
  split at h
  · split_ifs at h with hgt
    cases h
    exact not_gt_complement.1 hgt
  · cases h
    decide
  · cases h

theorem rlSetTurn_chain {rl : RangeLock} {l : List ℕ} (tid : ℕ) (type : LockType) (key : UInt64)
    {start size : UInt64} (block : Bool) (h : Chain rl l)
    (hfits : start.toNat + size.toNat < 2 ^ 64) :
    ∃ result rl' l', rlSetTurn rl tid type key start size block = some (result, rl') ∧
      Chain rl' l' := by
  obtain ⟨search, e, hplace⟩ := @rlSearch_spec rl type key start size [] l rl.heap.brk
    rl.ranges 0 h h.length_lt h.linked.head_eq (Or.inl rfl)
  simp only [rlSetTurn, e, Option.bind_eq_bind, Option.bind_some]
  cases search with
  | deadlock => exact ⟨_, rl, l, rfl, h⟩
  | found =>
    cases block with
    | true => exact ⟨_, _, l, rfl, ⟨h.linked, h.nodup, h.alloc⟩⟩
    | false => exact ⟨_, rl, l, rfl, h⟩
  | place p =>
    obtain ⟨pre, suf, rfl, hp⟩ : ∃ pre suf, l = pre ++ suf ∧ p = pre.getLastD 0 := by
      rcases hplace p rfl with rfl | hm
      · exact ⟨[], l, rfl, rfl⟩
      · obtain ⟨s, t, rfl⟩ := List.append_of_mem hm
        exact ⟨s ++ [p], t, by simp, by simp⟩
    obtain ⟨rl', e', chain', -⟩ :=
      rlInsert_spec h (show Held.Fits ⟨type, key, start, size⟩ from hfits)
    refine ⟨.done, rl', _, ?_, chain'⟩
    simp only [hp, e', Option.bind_some]
    rfl

/-- An unlocking call of a thread that is not blocked ends as `rlUnlock` does. -/
theorem RangeLockOp.unlocks_apply {s : RangeLockState} {rl' : RangeLock} {op : RangeLockOp}
    {key start size : UInt64} (h : op.unlocks = some (key, start, size))
    (hidle : ∀ tid type k st sz block, op = .set tid type k st sz block → s.blocked tid = none)
    (hrl : rlUnlock s.rl key start size = some rl') : ∃ t, s.apply op = some t ∧ t.rl = rl' := by
  cases op with
  | set tid type k st sz block =>
    cases type <;> simp only [RangeLockOp.unlocks, reduceCtorEq] at h
    split_ifs at h with hgt
    cases h
    refine ⟨s.settle tid ⟨.unlock, key, start, size⟩ (.done, rl'), ?_, rfl⟩
    rw [RangeLockState.apply, if_pos (hidle tid _ _ _ _ _ rfl), rlSet, if_neg hgt, if_pos rfl, hrl]
    rfl
  | releaseKey k =>
    cases h
    exact ⟨{ s with rl := rl' }, by rw [RangeLockState.apply, rlReleaseKey, hrl]; rfl, rfl⟩
  | retry tid => cases h
  | interrupt tid => cases h

/-- The list of ranges is in memory, and the calls that are blocked have passed the range check. -/
structure RangeLockInv (s : RangeLockState) : Prop where
  chain : ∃ l, Chain s.rl l
  blocked : ∀ tid rq, s.blocked tid = some rq → rq.start.toNat + rq.size.toNat < 2 ^ 64

theorem RangeLockInv.settle {s : RangeLockState} {tid : ℕ} {rq : PendingRangeRequest}
    {result : SetResult × RangeLock} {l : List ℕ} (h : RangeLockInv s) (hl : Chain result.2 l)
    (hrq : rq.start.toNat + rq.size.toNat < 2 ^ 64 ∨ result.1 ≠ .blocked) :
    RangeLockInv (s.settle tid rq result) := by
  refine ⟨⟨l, hl⟩, fun t rq' ht => ?_⟩
  simp only [RangeLockState.settle] at ht
  by_cases htid : t = tid
  · rw [htid, Function.update_self] at ht
    split_ifs at ht with hb
    cases ht
    exact hrq.resolve_right (not_not.2 hb)
  · rw [Function.update_of_ne htid] at ht
    exact h.blocked t rq' ht

theorem RangeLockInv.step {s t : RangeLockState} {op : RangeLockOp} (h : RangeLockInv s)
    (hc : UnlockOk s op) (ht : s.apply op = some t) : RangeLockInv t := by
  obtain ⟨l, hl⟩ := h.chain
  cases op with
  | set tid type key start size block =>
    simp only [RangeLockState.apply] at ht
    split_ifs at ht
    obtain ⟨⟨result, rl'⟩, hp, rfl⟩ := Option.map_eq_some_iff.1 ht
    rw [rlSet] at hp
    split_ifs at hp with hgt htype
    · cases hp
      exact h.settle hl (Or.inr (by simp))
    · have hop : RangeLockOp.unlocks (.set tid type key start size block) =
          some (key, start, size) := by
        rw [htype, RangeLockOp.unlocks, if_neg hgt]
      obtain ⟨rl'', l', e, chain', -⟩ :=
        rlUnlock_spec (not_gt_complement.1 hgt) hl (hc key start size hop)
      rw [e, Option.map_some] at hp
      cases hp
      exact h.settle chain' (Or.inr (by simp))
    · obtain ⟨result', rl'', l', e, chain'⟩ := rlSetTurn_chain tid type key block hl
        (not_gt_complement.1 hgt)
      cases hp.symm.trans e
      exact h.settle chain' (Or.inl (not_gt_complement.1 hgt))
  | retry tid =>
    simp only [RangeLockState.apply] at ht
    split at ht
    · cases ht
    · next rq hrq =>
      split_ifs at ht
      obtain ⟨result, hp, rfl⟩ := Option.map_eq_some_iff.1 ht
      obtain ⟨result', rl', l', e, chain'⟩ := rlSetTurn_chain tid rq.type rq.key true hl
        (h.blocked tid rq hrq)
      cases hp.symm.trans e
      exact h.settle chain' (Or.inl (h.blocked tid rq hrq))
  | interrupt tid =>
    simp only [RangeLockState.apply] at ht
    split at ht <;> cases ht
    refine ⟨⟨l, hl.linked, hl.nodup, hl.alloc⟩, fun u rq hu => ?_⟩
    by_cases hut : u = tid
    · simp [hut] at hu
    · simp only [Function.update_of_ne hut] at hu
      exact h.blocked u rq hu
  | releaseKey key =>
    obtain ⟨rl', l', e, chain', -⟩ := rlUnlock_spec (by decide) hl (hc key 0 _ rfl)
    rw [RangeLockState.apply, rlReleaseKey, e] at ht
    cases ht
    exact ⟨⟨l', chain'⟩, h.blocked⟩

/-- Every unit between the interval and a range of the key is locked by the key, in the way the range
is. -/
def RangeLock.GapsLocked (rl : RangeLock) (key start size : UInt64) : Prop :=
  ∀ l, Linked rl.next rl.ranges l → Thread.GapsLocked key start size (rl.contents l)

theorem RangeLockInv.of_reaches {s : RangeLockState} (h : rangeLockSystem.ReachesBy UnlockOk s) :
    RangeLockInv s :=
  h.invariant
    (fun s hs => hs ▸ ⟨⟨[], rfl, List.nodup_nil, fun a ha => absurd ha List.not_mem_nil⟩,
      fun tid rq hrq => by cases hrq⟩)
    fun s op t hs hc ht => hs.step hc ht

/-- In every state reached by a run whose unlocking calls use right `prev` links, such a call of a
thread that is not blocked returns, and it takes exactly its interval away from its key if and only
if the units between the interval and the ranges of the key are locked already. -/
theorem rlUnlock_refines_iff (s : RangeLockState) (h : rangeLockSystem.ReachesBy UnlockOk s)
    (op : RangeLockOp) (key start size : UInt64) (hop : op.unlocks = some (key, start, size))
    (hidle : ∀ tid type k st sz block, op = .set tid type k st sz block → s.blocked tid = none)
    (hlinks : PrevLinksOk s.rl key start size) :
    ∃ t, s.apply op = some t ∧
      (t.rl.table = s.rl.table.unlock key start size ↔ s.rl.GapsLocked key start size) := by
  obtain ⟨l, hl⟩ := (RangeLockInv.of_reaches h).chain
  have hfits := RangeLockOp.unlocks_fits hop
  obtain ⟨rl', l', e, chain', -, hcontents⟩ := rlUnlock_spec hfits hl hlinks
  obtain ⟨t, ht, rfl⟩ := RangeLockOp.unlocks_apply hop hidle e
  refine ⟨t, ht, ?_⟩
  rw [chain'.table_eq, hl.table_eq, hcontents, tableOf_flatMap_eq_iff hfits hl.fits_contents]
  exact ⟨fun hg l₁ hl₁ => hl.linked.unique hl₁ ▸ hg, fun hg => hg l hl.linked⟩

/-! ## A range pulled towards the interval -/

/-- A range lock before its first use. -/
def unusedLock : RangeLockState := ⟨rlInit, fun _ => none⟩

/-- Key 1 has a read lock on the first ten units. -/
def firstTen : RangeLockState :=
  (unusedLock.apply (.set 0 .read 1 0 10 false)).getD unusedLock

theorem firstTen_reaches : rangeLockSystem.ReachesBy UnlockOk firstTen :=
  .step (a := .set 0 .read 1 0 10 false) (.init rfl) (fun key start size h => by cases h) rfl

theorem linked_firstTen {l : List ℕ} (h : Linked firstTen.rl.next firstTen.rl.ranges l) :
    l = [1] := by
  have h₁ : Linked firstTen.rl.next firstTen.rl.ranges [1] := ⟨rfl, by decide, rfl⟩
  exact h.unique h₁

theorem prevLinksOk_firstTen {key start size : UInt64} :
    PrevLinksOk firstTen.rl key start size := by
  intro l hl
  rw [linked_firstTen hl]
  refine ⟨fun a r ha hr _ => ?_, fun p a rp ra hin => ?_⟩
  · cases ha
    cases hr
    rfl
  · simpa using hin.length_le

/-- Unlocking the units 2 to 4 of the range leaves no gap. -/
theorem rlUnlock_refines_iff_firstTen :
    ∃ t, firstTen.apply (.set 0 .unlock 1 2 3 false) = some t ∧
      (t.rl.table = firstTen.rl.table.unlock 1 2 3 ↔ firstTen.rl.GapsLocked 1 2 3) :=
  rlUnlock_refines_iff firstTen firstTen_reaches (.set 0 .unlock 1 2 3 false) 1 2 3 rfl
    (fun tid type k st sz block h => by cases h; rfl) prevLinksOk_firstTen

/-- Unlocking the units 20 to 29 makes key 1 hold unit 15. -/
theorem rlUnlock_not_refines :
    ¬ ∀ s op key start size t, rangeLockSystem.Reachable s → op.unlocks = some (key, start, size) →
      s.apply op = some t → t.rl.table = s.rl.table.unlock key start size := by
  intro hall
  let op : RangeLockOp := .set 0 .unlock 1 20 10 false
  let t : RangeLockState := (firstTen.apply op).getD unusedLock
  have heq := hall firstTen op 1 20 10 t firstTen_reaches.reachable rfl rfl
  have hafter : 15 ∈ t.rl.table 1 .read :=
    ⟨[1], ⟨rfl, by decide, rfl⟩, ⟨.read, 1, 0, 20⟩, List.mem_singleton_self _, rfl, rfl,
      by decide, by decide⟩
  rw [heq] at hafter
  obtain ⟨⟨l, hl, r, hr, -, -, hunit⟩, -⟩ := hafter
  rw [linked_firstTen hl] at hr
  obtain rfl : r = ⟨.read, 1, 0, 10⟩ := List.mem_singleton.1 hr
  exact absurd hunit.2 (by decide)

end Glidix.Thread
