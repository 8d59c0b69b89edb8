import Mathlib.Data.List.Basic
import Mathlib.Data.List.Perm.Subperm
import Mathlib.Data.Set.Basic
import Glidix.Thread.RangeLock

/-!
# Range locks as tables of locked units

A range lock stands for a table that says which units are locked, by which key and how
(`RangeLock.table`).  `rlUnlock` works on each range of the key by itself (`unlockHeld`): what is left
of a range is the range without the unlocked interval, and, when the two do not touch, also the gap
between them (`mem_unlockHeld`).
-/

namespace Glidix.Thread

/-! ## Tables -/

/-- Which units a key has locked with a type. -/
abbrev LockTable := UInt64 → LockType → Set ℕ

/-- The units of an interval. -/
def interval (start size : UInt64) : Set ℕ :=
  {b | start.toNat ≤ b ∧ b < start.toNat + size.toNat}

/-- Take an interval away from a key. -/
def LockTable.unlock (T : LockTable) (key start size : UInt64) : LockTable := fun k t =>
  {b | b ∈ T k t ∧ ¬ (k = key ∧ b ∈ interval start size)}

/-- What an element of the list says, without its links. -/
structure Held where
  type : LockType
  key : UInt64
  start : UInt64
  size : UInt64

namespace Held

variable (r : Held)

def stop : UInt64 := r.start + r.size

/-- The units of the range. -/
def units : Set ℕ := interval r.start r.size

/-- The range ends before the last 64-bit number. -/
def Fits : Prop := r.start.toNat + r.size.toNat < 2 ^ 64

end Held

def LockedRange.held (r : LockedRange) : Held := ⟨r.type, r.key, r.start, r.size⟩

/-- The table described by a list of ranges. -/
def tableOf (l : List Held) : LockTable := fun k t =>
  {b | ∃ r ∈ l, r.key = k ∧ r.type = t ∧ b ∈ r.units}

namespace RangeLock

/-- The link that follows an address. -/
def next (rl : RangeLock) (a : ℕ) : ℕ := ((rl.get a).map LockedRange.next).getD 0

/-- The contents of the elements of a list. -/
def contents (rl : RangeLock) (l : List ℕ) : List Held :=
  l.filterMap fun a => (rl.get a).map LockedRange.held

/-- The table of a range lock. -/
def table (rl : RangeLock) : LockTable := fun k t =>
  {b | ∃ l, Linked rl.next rl.ranges l ∧ b ∈ tableOf (rl.contents l) k t}

end RangeLock

/-! ## One range -/

section OneRange

variable (key start size : UInt64)

/-- The range lies in the interval. -/
def Engulfed (r : Held) : Prop := r.key = key ∧ start ≤ r.start ∧ r.stop ≤ start + size

/-- The range sticks out of the interval at both ends. -/
def Splits (r : Held) : Prop := r.key = key ∧ r.start < start ∧ start + size < r.stop

instance (r : Held) : Decidable (Engulfed key start size r) := by unfold Engulfed; infer_instance

instance (r : Held) : Decidable (Splits key start size r) := by unfold Splits; infer_instance

/-- What `rlUnlock` puts in the place of a range. -/
def unlockHeld (r : Held) : List Held :=
  if r.key ≠ key then [r]
  else if start ≤ r.start ∧ r.stop ≤ start + size then []
  else if start ≤ r.start ∧ start + size ≤ r.stop then
    let delta := start + size - r.start
    [{ r with start := r.start + delta, size := r.size - delta }]
  else if r.start ≤ start ∧ r.stop ≤ start + size then
    let delta := r.start + r.size - start
    [{ r with size := r.size - delta }]
  else if r.start < start ∧ start + size < r.stop then
    [{ r with size := start - r.start },
      { r with start := start + size, size := r.stop - (start + size) }]
  else [r]

/-- The units between a range of the key and the interval. -/
def gap (r : Held) : Set ℕ :=
  {b | r.key = key ∧ (start.toNat + size.toNat ≤ b ∧ b < r.start.toNat ∨
    r.start.toNat + r.size.toNat ≤ b ∧ b < start.toNat)}

variable {key start size} {r : Held}

theorem toNat_add_of_lt {a b : UInt64} (h : a.toNat + b.toNat < 2 ^ 64) :
    (a + b).toNat = a.toNat + b.toNat := by
  rw [UInt64.toNat_add, Nat.mod_eq_of_lt h]

theorem Held.Fits.toNat_stop (h : r.Fits) : r.stop.toNat = r.start.toNat + r.size.toNat :=
  toNat_add_of_lt h

/-- The parts of a range keep its key and type and fit below the end of the table. -/
theorem of_mem_unlockHeld (hU : start.toNat + size.toNat < 2 ^ 64) (hr : r.Fits) {r' : Held}
    (h : r' ∈ unlockHeld key start size r) : r'.key = r.key ∧ r'.type = r.type ∧ r'.Fits := by
  have hstop := hr.toNat_stop
  have hend := toNat_add_of_lt hU
  simp only [Held.stop] at hstop
  simp only [unlockHeld, Held.stop, UInt64.le_iff_toNat_le, UInt64.lt_iff_toNat_lt, hstop,
    hend] at h
  split_ifs at h with h₁ h₂ h₃ h₄ h₅ <;>
    simp only [List.mem_cons, List.not_mem_nil, or_false] at h
  · subst h
    exact ⟨rfl, rfl, hr⟩
  · subst h
    refine ⟨rfl, rfl, ?_⟩
    simp only [Held.Fits, UInt64.toNat_add, UInt64.toNat_sub] at hr ⊢
    omega
  · subst h
    refine ⟨rfl, rfl, ?_⟩
    simp only [Held.Fits, UInt64.toNat_add, UInt64.toNat_sub] at hr ⊢
    omega
  · rcases h with rfl | rfl <;> refine ⟨rfl, rfl, ?_⟩ <;>
      simp only [Held.Fits, UInt64.toNat_add, UInt64.toNat_sub] at hr ⊢ <;> omega
  · subst h
    exact ⟨rfl, rfl, hr⟩

/-- The units of the parts of a range: what lies outside the interval, and the gap. -/
theorem mem_unlockHeld (hU : start.toNat + size.toNat < 2 ^ 64) (hr : r.Fits) (b : ℕ) :
    (∃ r' ∈ unlockHeld key start size r, b ∈ r'.units) ↔
      b ∈ r.units ∧ ¬ (r.key = key ∧ b ∈ interval start size) ∨ b ∈ gap key start size r := by
  have hstop := hr.toNat_stop
  have hend := toNat_add_of_lt hU
  simp only [Held.stop] at hstop
  simp only [unlockHeld, Held.stop, UInt64.le_iff_toNat_le, UInt64.lt_iff_toNat_lt, hstop,
    hend, gap, Held.units, interval, Set.mem_ofPred_eq]
  simp only [Held.Fits] at hr
  split_ifs with h₁ h₂ h₃ h₄ h₅ <;>
    simp only [List.mem_cons, List.not_mem_nil, or_false, exists_eq_or_imp, exists_eq_left,
      false_and, exists_false, not_not] at h₁ ⊢
  · simp [h₁]
  · simp only [h₁, true_and, false_iff]
    omega
  · simp only [h₁, true_and, UInt64.toNat_add, UInt64.toNat_sub]
    omega
  · simp only [h₁, true_and, UInt64.toNat_add, UInt64.toNat_sub]
    omega
  · simp only [h₁, true_and, UInt64.toNat_add, UInt64.toNat_sub]
    omega
  · omega

end OneRange

/-! ## All ranges -/

section AllRanges

variable {key start size : UInt64} {l : List Held}

/-- Every unit in the gap between the interval and a range of the key is locked by the key in the way
the range is. -/
def GapsLocked (key start size : UInt64) (l : List Held) : Prop :=
  ∀ r ∈ l, ∀ b ∈ gap key start size r, b ∈ tableOf l key r.type

theorem mem_tableOf_flatMap (hU : start.toNat + size.toNat < 2 ^ 64) (hl : ∀ r ∈ l, r.Fits)
    {k : UInt64} {t : LockType} {b : ℕ} :
    b ∈ tableOf (l.flatMap (unlockHeld key start size)) k t ↔
      b ∈ (tableOf l).unlock key start size k t ∨
        k = key ∧ ∃ r ∈ l, r.type = t ∧ b ∈ gap key start size r := by
  constructor
  · rintro ⟨r', hr', hk, ht, hb⟩
    obtain ⟨r, hr, hr'⟩ := List.mem_flatMap.1 hr'
    obtain ⟨hkey, htype, -⟩ := of_mem_unlockHeld hU (hl r hr) hr'
    rw [hkey] at hk
    rw [htype] at ht
    rcases (mem_unlockHeld hU (hl r hr) b).1 ⟨r', hr', hb⟩ with ⟨hin, hout⟩ | hgap
    · exact Or.inl ⟨⟨r, hr, hk, ht, hin⟩, hk ▸ hout⟩
    · exact Or.inr ⟨hk.symm.trans hgap.1, r, hr, ht, hgap⟩
  · intro h
    obtain ⟨r, hr, hk, ht, hb⟩ : ∃ r ∈ l, r.key = k ∧ r.type = t ∧
        ∃ r' ∈ unlockHeld key start size r, b ∈ r'.units := by
      rcases h with ⟨⟨r, hr, hk, ht, hin⟩, hout⟩ | ⟨rfl, r, hr, ht, hgap⟩
      · exact ⟨r, hr, hk, ht, (mem_unlockHeld hU (hl r hr) b).2 (Or.inl ⟨hin, hk ▸ hout⟩)⟩
      · exact ⟨r, hr, hgap.1, ht, (mem_unlockHeld hU (hl r hr) b).2 (Or.inr hgap)⟩
    obtain ⟨r', hr', hb⟩ := hb
    obtain ⟨hkey, htype, -⟩ := of_mem_unlockHeld hU (hl r hr) hr'
    exact ⟨r', List.mem_flatMap.2 ⟨r, hr, hr'⟩, hkey.trans hk, htype.trans ht, hb⟩

/-- Working on each range by itself takes exactly the interval away from the key if and only if all
gaps are locked already. -/
theorem tableOf_flatMap_eq_iff (hU : start.toNat + size.toNat < 2 ^ 64) (hl : ∀ r ∈ l, r.Fits) :
    tableOf (l.flatMap (unlockHeld key start size)) = (tableOf l).unlock key start size ↔
      GapsLocked key start size l := by
  constructor
  · intro heq r hr b hb
    have hmem : b ∈ tableOf (l.flatMap (unlockHeld key start size)) key r.type :=
      (mem_tableOf_flatMap hU hl).2 (Or.inr ⟨rfl, r, hr, rfl, hb⟩)
    rw [heq] at hmem
    exact hmem.1
  · intro hgaps
    funext k t
    ext b
    rw [mem_tableOf_flatMap hU hl]
    refine ⟨fun h => h.elim id ?_, Or.inl⟩
    rintro ⟨rfl, r, hr, rfl, hb⟩
    refine ⟨hgaps r hr b hb, fun hin => ?_⟩
    obtain ⟨-, h₁ | h₁⟩ := hb <;> simp only [interval, Set.mem_ofPred_eq] at hin <;> omega

end AllRanges

/-! ## The list in memory -/

section Memory

variable {rl : RangeLock} {key start size : UInt64} {a b : ℕ} {r x : LockedRange}
  {f : LockedRange → LockedRange} {l pre suf rest : List ℕ}

/-- The list `l` of elements is in memory, each with a range that fits. -/
structure Chain (rl : RangeLock) (l : List ℕ) : Prop where
  linked : Linked rl.next rl.ranges l
  nodup : l.Nodup
  alloc : ∀ a ∈ l, ∃ r, rl.get a = some r ∧ r.held.Fits

/-- The first element of `l`, if it is to be removed, has the `prev` link `last`. -/
def HeadLinkOk (rl : RangeLock) (key start size : UInt64) (last : ℕ) (l : List ℕ) : Prop :=
  ∀ a r, l.head? = some a → rl.get a = some r → Engulfed key start size r.held → r.prev = last

/-- The `prev` link of an element to be removed names the element in front of it, which is not cut
in two, unless that one is removed too. -/
def InnerLinksOk (rl : RangeLock) (key start size : UInt64) (l : List ℕ) : Prop :=
  ∀ p a rp ra, [p, a] <:+: l → rl.get p = some rp → rl.get a = some ra →
    Engulfed key start size ra.held →
      Engulfed key start size rp.held ∨ ra.prev = p ∧ ¬ Splits key start size rp.held

/-- Whenever the walk of `rlUnlock` removes an element, `prev` of the element names the one that then
precedes it. -/
def PrevLinksOk (rl : RangeLock) (key start size : UInt64) : Prop :=
  ∀ l, Linked rl.next rl.ranges l → HeadLinkOk rl key start size 0 l ∧
    InnerLinksOk rl key start size l

/-! ### Single writes -/

theorem RangeLock.get_zero : rl.get 0 = none := rl.heap.get_zero

theorem RangeLock.modify_spec (hx : rl.get a = some x) : ∃ rl', rl.modify a f = some rl' ∧
    rl'.ranges = rl.ranges ∧ rl'.requests = rl.requests ∧
    ∀ b, rl'.get b = if b = a then some (f x) else rl.get b := by
  refine ⟨{ rl with heap := rl.heap.put a (f x) }, ?_, rfl, rfl, fun b => ?_⟩
  · rw [RangeLock.modify, Heap.modify_eq hx, Option.map_some]
  · split_ifs with hb
    · rw [hb]
      exact Heap.get_put_self hx
    · exact Heap.get_put_ne hb

theorem RangeLock.modifyNonNull_spec (ha : a = 0 ∨ ∃ x, rl.get a = some x) :
    ∃ rl', rl.modifyNonNull a f = some rl' ∧
      rl'.ranges = rl.ranges ∧ rl'.requests = rl.requests ∧
      ∀ b, rl'.get b = if b = a then (rl.get b).map f else rl.get b := by
  by_cases hz : a = 0
  · refine ⟨rl, if_pos hz, rfl, rfl, fun b => ?_⟩
    split_ifs with hb
    · rw [hb, hz, RangeLock.get_zero, Option.map_none]
    · rfl
  · obtain ⟨x, hx⟩ := ha.resolve_left hz
    obtain ⟨rl', h₁, h₂, h₃, h₄⟩ := RangeLock.modify_spec (f := f) hx
    refine ⟨rl', (if_neg hz).trans h₁, h₂, h₃, fun b => ?_⟩
    rw [h₄]
    split_ifs with hb
    · rw [hb, hx, Option.map_some]
    · rfl

theorem RangeLock.kfree_spec (hx : rl.get a = some x) : ∃ rl', rl.kfree a = some rl' ∧
    rl'.ranges = rl.ranges ∧ rl'.requests = rl.requests ∧ ∀ b, b ≠ a → rl'.get b = rl.get b := by
  obtain ⟨h', h₁, h₂, -⟩ := Heap.exists_release hx
  refine ⟨{ rl with heap := h' }, ?_, rfl, rfl, fun b hb => ?_⟩
  · rw [RangeLock.kfree, h₁, Option.map_some]
  · show h'.get b = rl.heap.get b
    rw [h₂, Function.update_of_ne hb]

/-! ### Frames -/

theorem RangeLock.next_of_get (hx : rl.get a = some x) : rl.next a = x.next := by
  rw [RangeLock.next, hx, Option.map_some, Option.getD_some]

theorem RangeLock.contents_congr {rl' : RangeLock}
    (h : ∀ a ∈ l, (rl'.get a).map LockedRange.held = (rl.get a).map LockedRange.held) :
    rl'.contents l = rl.contents l := List.filterMap_congr h

theorem RangeLock.contents_append : rl.contents (pre ++ suf) = rl.contents pre ++ rl.contents suf :=
  List.filterMap_append

theorem RangeLock.contents_cons (hx : rl.get a = some x) :
    rl.contents (a :: l) = x.held :: rl.contents l :=
  List.filterMap_cons_some (by rw [hx, Option.map_some])

theorem getLast?_eq_some_iff (hb : b ≠ 0) : pre.getLast? = some b ↔ b = pre.getLastD 0 := by
  rw [List.getLastD_eq_getLast?]
  cases pre.getLast? with
  | none => simpa using hb
  | some c => simp [eq_comm]

theorem head?_eq_some_iff (hb : b ≠ 0) : rest.head? = some b ↔ b = rest.headD 0 := by
  cases rest with
  | nil => simpa using hb
  | cons c rest => simp [eq_comm]

namespace Chain

theorem ne_zero (h : Chain rl l) (ha : a ∈ l) : a ≠ 0 := h.linked.ne_zero ha

theorem next_of_get (h : Chain rl (pre ++ a :: rest)) (hr : rl.get a = some r) :
    r.next = rest.headD 0 := by
  rw [← RangeLock.next_of_get hr]
  exact h.linked.next_eq

theorem fits_contents (h : Chain rl l) : ∀ r ∈ rl.contents l, r.Fits := by
  intro r hr
  obtain ⟨a, ha, hmap⟩ := List.mem_filterMap.1 hr
  obtain ⟨x, hx, hfits⟩ := h.alloc a ha
  rw [hx, Option.map_some, Option.some_inj] at hmap
  exact hmap ▸ hfits

theorem ranges_eq_iff (h : Chain rl (pre ++ a :: rest)) : rl.ranges = a ↔ pre = [] := by
  have hhead := h.linked.head_eq
  cases pre with
  | nil => simpa using hhead
  | cons b pre =>
    have hne : b ≠ a := by
      rintro rfl
      exact (List.nodup_cons.1 h.nodup).1 (by simp)
    simp only [List.cons_append, List.headD_cons] at hhead
    simp [hhead, hne]

end Chain

/-- A new element `c` after the elements `pre`. -/
theorem Chain.insert {rl' : RangeLock} {c : ℕ} {y : LockedRange} (h : Chain rl (pre ++ suf))
    (hc : c ≠ 0) (hfresh : c ∉ pre ++ suf) (hy : rl'.get c = some y)
    (hnext : y.next = suf.headD 0) (hfits : y.held.Fits)
    (hranges : rl'.ranges = if pre = [] then c else rl.ranges)
    (hget : ∀ b ∈ pre ++ suf, ∀ x, rl.get b = some x → ∃ z, rl'.get b = some z ∧ z.held.Fits ∧
      z.next = if pre.getLast? = some b then c else x.next) : Chain rl' (pre ++ c :: suf) := by
  refine ⟨?_, ?_, ?_⟩
  · rw [hranges]
    refine h.linked.insert h.nodup hc (by rw [RangeLock.next_of_get hy, hnext]) fun b hb => ?_
    obtain ⟨x, hx, -⟩ := h.alloc b hb
    obtain ⟨z, hz, -, hznext⟩ := hget b hb x hx
    rw [RangeLock.next_of_get hz, RangeLock.next_of_get hx, hznext]
  · rw [List.perm_middle.nodup_iff, List.nodup_cons]
    exact ⟨hfresh, h.nodup⟩
  · intro b hb
    rw [List.mem_append, List.mem_cons, or_left_comm, ← List.mem_append] at hb
    rcases hb with rfl | hb
    · exact ⟨y, hy, hfits⟩
    · obtain ⟨x, hx, -⟩ := h.alloc b hb
      obtain ⟨z, hz, hzfits, -⟩ := hget b hb x hx
      exact ⟨z, hz, hzfits⟩

theorem Chain.brk_notMem (h : Chain rl l) : rl.heap.brk ∉ l := fun hm => by
  obtain ⟨x, hx, -⟩ := h.alloc _ hm
  exact Nat.lt_irrefl _ (Heap.lt_brk hx)

/-! ### Removing, resizing, splitting -/

theorem lastD_mem_or : pre.getLastD 0 = 0 ∨ pre.getLastD 0 ∈ pre := by
  rw [List.getLastD_eq_getLast?]
  cases h : pre.getLast? with
  | none => exact Or.inl rfl
  | some c => exact Or.inr (List.mem_of_getLast? h)

theorem headD_mem_or : rest.headD 0 = 0 ∨ rest.headD 0 ∈ rest := by
  cases rest with
  | nil => exact Or.inl rfl
  | cons c rest => exact Or.inr List.mem_cons_self

/-- Removing the element `a` whose `prev` is right. -/
theorem rlRemove_spec (h : Chain rl (pre ++ a :: rest)) (hr : rl.get a = some r)
    (hprev : r.prev = pre.getLastD 0) :
    ∃ rl', rlRemove rl a r = some rl' ∧ Chain rl' (pre ++ rest) ∧ rl'.requests = rl.requests ∧
      ∀ b ∈ pre ++ rest, ∀ x, rl.get b = some x → ∃ y, rl'.get b = some y ∧ y.held = x.held ∧
        y.prev = if rest.head? = some b then r.prev else x.prev := by
  have hnext := h.next_of_get hr
  have hnodup := h.nodup
  have hsplit := List.nodup_append.1 hnodup
  have hmem : ∀ {b}, b ∈ pre ++ rest → b ∈ pre ++ a :: rest := fun hb => by
    simp only [List.mem_append, List.mem_cons] at hb ⊢
    tauto
  have hne : ∀ b ∈ pre ++ rest, b ≠ a := by
    rintro b hb rfl
    rcases List.mem_append.1 hb with hb | hb
    · exact hsplit.2.2 b hb b List.mem_cons_self rfl
    · exact (List.nodup_cons.1 hsplit.2.1).1 hb
  have hp : r.prev = 0 ∨ ∃ x, rl.get r.prev = some x := by
    rw [hprev]
    exact lastD_mem_or.imp_right fun hm =>
      (h.alloc _ (List.mem_append_left _ hm)).imp fun x hx => hx.1
  obtain ⟨rl₁, e₁, ranges₁, requests₁, get₁⟩ :=
    RangeLock.modifyNonNull_spec (f := fun p => { p with next := r.next }) hp
  have hn : r.next = 0 ∨ ∃ x, rl₁.get r.next = some x := by
    rw [hnext]
    refine headD_mem_or.imp_right fun hm => ?_
    obtain ⟨x, hx, -⟩ := h.alloc _ (List.mem_append_right pre (List.mem_cons_of_mem a hm))
    rw [get₁, hx, Option.map_some]
    split_ifs
    · exact ⟨_, rfl⟩
    · exact ⟨_, rfl⟩
  obtain ⟨rl₂, e₂, ranges₂, requests₂, get₂⟩ :=
    RangeLock.modifyNonNull_spec (f := fun n => { n with prev := r.prev }) hn
  have ha : ∃ x, rl₂.get a = some x := by
    rw [get₂, get₁, hr]
    split_ifs <;> exact ⟨_, rfl⟩
  obtain ⟨x, hx⟩ := ha
  obtain ⟨rl₃, e₃, ranges₃, requests₃, get₃⟩ := @RangeLock.kfree_spec
    (if rl₂.ranges = a then { rl₂ with ranges := r.next } else rl₂) a x
    (by split_ifs <;> exact hx)
  have hget : ∀ b ∈ pre ++ rest, ∀ x, rl.get b = some x → rl₃.get b =
      some { x with
        next := if pre.getLast? = some b then r.next else x.next
        prev := if rest.head? = some b then r.prev else x.prev } := by
    intro b hb x hx
    have hb0 : b ≠ 0 := h.ne_zero (hmem hb)
    have hsame : rl₃.get b = rl₂.get b := by
      rw [get₃ b (hne b hb)]
      split_ifs <;> rfl
    simp only [hsame, get₂, get₁, hx, getLast?_eq_some_iff hb0, head?_eq_some_iff hb0, ← hprev,
      ← hnext]
    split_ifs <;> rfl
  refine ⟨rl₃, ?_, ⟨?_, ?_, ?_⟩, ?_, ?_⟩
  · simp only [rlRemove, e₁, e₂, e₃, Option.bind_eq_bind, Option.bind_some]
  · have hlinked : Linked rl₃.next (if pre = [] then rl.next a else rl.ranges) (pre ++ rest) :=
        h.linked.remove (hnodup.sublist (by simp)) fun b hb => by
      obtain ⟨x, hx, -⟩ := h.alloc b (hmem hb)
      rw [RangeLock.next_of_get (hget b hb x hx), RangeLock.next_of_get hx,
        RangeLock.next_of_get hr]
    have hranges : rl₃.ranges = if pre = [] then rl.next a else rl.ranges := by
      rw [ranges₃, RangeLock.next_of_get hr, ranges₂, ranges₁]
      by_cases hpre : pre = []
      · simp [hpre, h.ranges_eq_iff.2 hpre]
      · simp [hpre, mt h.ranges_eq_iff.1 hpre, ranges₁, ranges₂]
    rwa [hranges]
  · exact hnodup.sublist (by simp)
  · intro b hb
    obtain ⟨x, hx, hfits⟩ := h.alloc b (hmem hb)
    exact ⟨_, hget b hb x hx, hfits⟩
  · rw [requests₃]
    split_ifs <;> rw [requests₂, requests₁]
  · exact fun b hb x hx => ⟨_, hget b hb x hx, rfl, rfl⟩

/-- Changing an element without its links. -/
theorem resize_spec (h : Chain rl (pre ++ a :: rest)) (hr : rl.get a = some r)
    (hf : (f r).next = r.next) (hfits : (f r).held.Fits) :
    ∃ rl', rl.modify a f = some rl' ∧ Chain rl' (pre ++ a :: rest) ∧
      rl'.get a = some (f r) ∧ ∀ b, b ≠ a → rl'.get b = rl.get b := by
  obtain ⟨rl', e, ranges', -, get'⟩ := RangeLock.modify_spec (f := f) hr
  have hnext : rl'.next = rl.next := by
    funext b
    rw [RangeLock.next, RangeLock.next, get']
    split_ifs with hb
    · rw [hb, hr, Option.map_some, Option.map_some, hf]
    · rfl
  refine ⟨rl', e, ⟨?_, h.nodup, fun b hb => ?_⟩, by rw [get', if_pos rfl], fun b hb => ?_⟩
  · rw [hnext, ranges']
    exact h.linked
  · rw [get']
    split_ifs
    · exact ⟨_, rfl, hfits⟩
    · exact h.alloc b hb
  · rw [get', if_neg hb]

/-- Cutting the element `a` in two. -/
theorem rlSplit_spec (h : Chain rl (pre ++ a :: rest)) (hr : rl.get a = some r)
    (hleft : Held.Fits ⟨r.type, r.key, r.start, start - r.start⟩)
    (hright : Held.Fits ⟨r.type, key, start + size, r.stop - (start + size)⟩) :
    ∃ rl' c x y, rlSplit rl a r key start size = some rl' ∧ Chain rl' (pre ++ a :: c :: rest) ∧
      rl'.get a = some x ∧ x.held = ⟨r.type, r.key, r.start, start - r.start⟩ ∧
      rl'.get c = some y ∧ y.held = ⟨r.type, key, start + size, r.stop - (start + size)⟩ ∧
      ∀ b ∈ pre ++ a :: rest, b ≠ a → rl'.get b = rl.get b := by
  obtain ⟨y, hy⟩ : ∃ y : LockedRange, y = ⟨a, r.next, r.type, key, start + size,
    r.stop - (start + size)⟩ := ⟨_, rfl⟩
  have hfresh := h.brk_notMem
  have hr' : (rl.new y).2.get a = some r := Heap.get_new_of_get hr
  obtain ⟨rl', e, ranges', -, get'⟩ := RangeLock.modify_spec
    (f := fun r => { r with size := start - r.start, next := rl.heap.brk }) hr'
  have hac : rl.heap.brk ≠ a := fun e => hfresh (e ▸ by simp)
  have hgetc : rl'.get rl.heap.brk = some y := by
    rw [get', if_neg hac]
    exact Heap.get_new_self
  have hgeta : rl'.get a = some { r with size := start - r.start, next := rl.heap.brk } := by
    rw [get', if_pos rfl]
  have hget : ∀ b ∈ pre ++ a :: rest, b ≠ a → rl'.get b = rl.get b := fun b hb hba => by
    rw [get', if_neg hba]
    exact Heap.get_new_ne fun e => hfresh (e ▸ hb)
  have hassoc : pre ++ a :: rest = (pre ++ [a]) ++ rest := by simp
  have hchain : Chain rl' ((pre ++ [a]) ++ rl.heap.brk :: rest) := by
    refine (hassoc ▸ h).insert (Nat.ne_of_gt rl.heap.brk_pos) (hassoc ▸ hfresh) hgetc
      (by rw [hy, ← h.next_of_get hr]) (by rw [hy]; exact hright)
      ((show rl'.ranges = rl.ranges from ranges').trans (if_neg (by simp)).symm) ?_
    intro b hb x hx
    rw [← hassoc] at hb
    simp only [List.getLast?_concat, Option.some_inj]
    by_cases hba : a = b
    · subst hba
      exact ⟨_, hgeta, hleft, (if_pos rfl).symm⟩
    · obtain ⟨x', hx', hfits⟩ := h.alloc b hb
      obtain rfl : x' = x := Option.some_inj.1 (hx'.symm.trans hx)
      exact ⟨x', (hget b hb (Ne.symm hba)).trans hx, hfits, (if_neg hba).symm⟩
  refine ⟨rl', _, _, y, ?_, by simpa using hchain, hgeta, rfl, hgetc, by rw [hy]; rfl, hget⟩
  rw [hy] at e
  exact e

/-! ### One turn of the loop -/

/-- What the loop still has to find in order stays so when it keeps an element. -/
theorem links_of_keep {rl' : RangeLock} (last : ℕ)
    (h : InnerLinksOk rl key start size (a :: rest)) (hr : rl.get a = some r)
    (hkept : ¬ Engulfed key start size r.held) (hlast : Splits key start size r.held ∨ last = a)
    (hget : ∀ b ∈ rest, rl'.get b = rl.get b) :
    HeadLinkOk rl' key start size last rest ∧ InnerLinksOk rl' key start size rest := by
  constructor
  · intro b x hb hx he
    cases rest with
    | nil => cases hb
    | cons c rest =>
      obtain rfl : c = b := Option.some_inj.1 hb
      rw [hget c List.mem_cons_self] at hx
      obtain ⟨hprev, hsplit⟩ := (h a c r x ⟨[], rest, rfl⟩ hr hx he).resolve_left hkept
      rw [hprev, hlast.resolve_left hsplit]
  · intro p b rp x hin hp hx he
    have hsub := hin.subset
    rw [hget p (hsub (by simp))] at hp
    rw [hget b (hsub (by simp))] at hx
    exact h p b rp x (hin.trans (List.suffix_cons a rest).isInfix) hp hx he

/-- And when it removes one. -/
theorem links_of_remove {rl' : RangeLock} (last : ℕ) (hnodup : rest.Nodup)
    (h : InnerLinksOk rl key start size (a :: rest)) (halloc : ∀ b ∈ rest, ∃ x, rl.get b = some x)
    (hget : ∀ b ∈ rest, ∀ x, rl.get b = some x → ∃ y, rl'.get b = some y ∧ y.held = x.held ∧
      y.prev = if rest.head? = some b then last else x.prev) :
    HeadLinkOk rl' key start size last rest ∧ InnerLinksOk rl' key start size rest := by
  constructor
  · intro b y hb hy _
    have hmem := List.mem_of_mem_head? hb
    obtain ⟨x, hx⟩ := halloc b hmem
    obtain ⟨y', hy', -, hprev⟩ := hget b hmem x hx
    obtain rfl : y' = y := Option.some_inj.1 (hy'.symm.trans hy)
    rw [hprev, if_pos hb]
  · intro p b rp' rb' hin hp hb he
    have hsub := hin.subset
    have hmemp : p ∈ rest := hsub (by simp)
    have hmemb : b ∈ rest := hsub (by simp)
    obtain ⟨rp, hp₀⟩ := halloc p hmemp
    obtain ⟨rb, hb₀⟩ := halloc b hmemb
    obtain ⟨y, hy, heldp, -⟩ := hget p hmemp rp hp₀
    obtain rfl : y = rp' := Option.some_inj.1 (hy.symm.trans hp)
    obtain ⟨z, hz, heldb, hprev⟩ := hget b hmemb rb hb₀
    obtain rfl : z = rb' := Option.some_inj.1 (hz.symm.trans hb)
    have hhead : rest.head? ≠ some b := by
      obtain ⟨s, t, rfl⟩ := hin
      cases s with
      | nil =>
        simp only [List.nil_append, List.cons_append, List.head?_cons] at hnodup ⊢
        intro e
        simp [Option.some_inj.1 e] at hnodup
      | cons d s =>
        simp only [List.cons_append, List.head?_cons] at hnodup ⊢
        intro e
        simp [Option.some_inj.1 e] at hnodup
    rw [heldp, hprev, if_neg hhead]
    rw [heldb] at he
    exact h p b rp rb (hin.trans (List.suffix_cons a rest).isInfix) hp₀ hb₀ he

/-- What one turn of the loop has done: the element is replaced by the elements `mid`, which hold
what is left of its range, and the rest of the list is still in order. -/
structure Turned (rl rl' : RangeLock) (key start size : UInt64) (pre mid rest : List ℕ)
    (r : LockedRange) : Prop where
  chain : Chain rl' (pre ++ mid ++ rest)
  front : rl'.contents (pre ++ mid) = rl.contents pre ++ unlockHeld key start size r.held
  back : rl'.contents rest = rl.contents rest
  head : HeadLinkOk rl' key start size ((pre ++ mid).getLastD 0) rest
  inner : InnerLinksOk rl' key start size rest

/-- An element is kept, with its range replaced by what `unlockHeld` leaves of it. -/
theorem Turned.of_keep {rl' : RangeLock} {y : LockedRange} (hnodup : (pre ++ a :: rest).Nodup)
    (h : Chain rl' (pre ++ a :: rest))
    (hinner : InnerLinksOk rl key start size (a :: rest)) (hr : rl.get a = some r)
    (hkept : ¬ Engulfed key start size r.held) (hy : rl'.get a = some y)
    (hheld : unlockHeld key start size r.held = [y.held])
    (hget : ∀ b ∈ pre ++ a :: rest, b ≠ a → rl'.get b = rl.get b) :
    Turned rl rl' key start size pre [a] rest r := by
  have hsplit := List.nodup_append.1 hnodup
  have hpre : ∀ b ∈ pre, rl'.get b = rl.get b := fun b hb =>
    hget b (List.mem_append_left _ hb) (hsplit.2.2 b hb a List.mem_cons_self)
  have hrest : ∀ b ∈ rest, rl'.get b = rl.get b := fun b hb =>
    hget b (List.mem_append_right _ (List.mem_cons_of_mem _ hb)) fun e =>
      (List.nodup_cons.1 hsplit.2.1).1 (e ▸ hb)
  have hlinks := links_of_keep ((pre ++ [a]).getLastD 0) hinner hr hkept (Or.inr (by simp)) hrest
  refine ⟨by simpa using h, ?_, ?_, hlinks.1, hlinks.2⟩
  · have hfront : rl'.contents pre = rl.contents pre :=
      RangeLock.contents_congr fun b hb => by rw [hpre b hb]
    rw [RangeLock.contents_append, RangeLock.contents_cons hy, hheld, hfront]
    rfl
  · exact RangeLock.contents_congr fun b hb => by rw [hrest b hb]

theorem unlockHeld_held (r : LockedRange) : unlockHeld key start size r.held =
    if r.key ≠ key then [r.held]
    else if start ≤ r.start ∧ r.stop ≤ start + size then []
    else if start ≤ r.start ∧ start + size ≤ r.stop then
      [⟨r.type, r.key, r.start + (start + size - r.start), r.size - (start + size - r.start)⟩]
    else if r.start ≤ start ∧ r.stop ≤ start + size then
      [⟨r.type, r.key, r.start, r.size - (r.start + r.size - start)⟩]
    else if r.start < start ∧ start + size < r.stop then
      [⟨r.type, r.key, r.start, start - r.start⟩,
        ⟨r.type, r.key, start + size, r.stop - (start + size)⟩]
    else [r.held] := rfl

/-- One turn of the loop. -/
theorem rlUnlockLoop_step (hU : start.toNat + size.toNat < 2 ^ 64) (fuel : ℕ)
    (h : Chain rl (pre ++ a :: rest)) (hr : rl.get a = some r)
    (hhead : HeadLinkOk rl key start size (pre.getLastD 0) (a :: rest))
    (hinner : InnerLinksOk rl key start size (a :: rest)) :
    ∃ rl' mid, rlUnlockLoop key start size (fuel + 1) rl a =
        rlUnlockLoop key start size fuel rl' (rest.headD 0) ∧
      Turned rl rl' key start size pre mid rest r := by
  have ha : a ≠ 0 := h.ne_zero (by simp)
  have hnodup := h.nodup
  have hfits : r.held.Fits := by
    obtain ⟨x, hx, hfits⟩ := h.alloc a (by simp)
    exact Option.some_inj.1 (hr.symm.trans hx) ▸ hfits
  have hpart := fun r' (hr' : r' ∈ unlockHeld key start size r.held) =>
    of_mem_unlockHeld hU hfits hr'
  simp only [rlUnlockLoop, if_neg ha, hr, Option.bind_eq_bind, Option.bind_some, ← h.next_of_get hr]
  have hkeep : ¬ Engulfed key start size r.held → unlockHeld key start size r.held = [r.held] →
      Turned rl rl key start size pre [a] rest r := fun hkept hheld =>
    .of_keep hnodup h hinner hr hkept hr hheld fun _ _ _ => rfl
  by_cases h₁ : r.key ≠ key
  · refine ⟨rl, [a], if_pos h₁, hkeep (fun he => h₁ he.1) ?_⟩
    rw [unlockHeld_held, if_pos h₁]
  by_cases h₂ : start ≤ r.start ∧ r.stop ≤ start + size
  · -- engulfed
    have he : Engulfed key start size r.held := ⟨not_not.1 h₁, h₂⟩
    obtain ⟨rl', e, chain', -, get'⟩ := rlRemove_spec h hr (hhead a r rfl hr he)
    have hsame : ∀ b ∈ pre ++ rest, (rl'.get b).map LockedRange.held =
        (rl.get b).map LockedRange.held := fun b hb => by
      have hb' : b ∈ pre ++ a :: rest := by
        simp only [List.mem_append, List.mem_cons] at hb ⊢
        tauto
      obtain ⟨x, hx, -⟩ := h.alloc b hb'
      obtain ⟨y, hy, heldy, -⟩ := get' b hb x hx
      rw [hy, hx, Option.map_some, Option.map_some, heldy]
    have hlinks := links_of_remove r.prev
      (List.nodup_cons.1 (List.nodup_append.1 hnodup).2.1).2 hinner
      (fun b hb => (h.alloc b (by simp [hb])).imp fun x hx => hx.1)
      fun b hb => get' b (List.mem_append_right _ hb)
    refine ⟨rl', [], ?_, by simpa using chain', ?_, ?_, ?_, hlinks.2⟩
    · rw [if_neg h₁, if_pos h₂, e, Option.bind_some]
    · rw [List.append_nil, RangeLock.contents_congr fun b hb => hsame b (List.mem_append_left _ hb)]
      rw [unlockHeld_held, if_neg h₁, if_pos h₂, List.append_nil]
    · exact RangeLock.contents_congr fun b hb => hsame b (List.mem_append_right _ hb)
    · rw [List.append_nil, ← hhead a r rfl hr he]
      exact hlinks.1
  have hkept : ¬ Engulfed key start size r.held := fun he => h₂ he.2
  by_cases h₃ : start ≤ r.start ∧ start + size ≤ r.stop
  · -- pushed up
    have hheld : unlockHeld key start size r.held = [⟨r.type, r.key,
        r.start + (start + size - r.start), r.size - (start + size - r.start)⟩] := by
      rw [unlockHeld_held, if_neg h₁, if_neg h₂, if_pos h₃]
    obtain ⟨rl', e, chain', gety, get'⟩ := resize_spec
      (f := fun s => { s with
        start := s.start + (start + size - r.start), size := s.size - (start + size - r.start) })
      h hr rfl (hpart _ (hheld ▸ List.mem_singleton_self _)).2.2
    refine ⟨rl', [a], ?_, .of_keep hnodup chain' hinner hr hkept gety hheld fun b _ hb => get' b hb⟩
    rw [if_neg h₁, if_neg h₂, if_pos h₃, e, Option.bind_some]
  by_cases h₄ : r.start ≤ start ∧ r.stop ≤ start + size
  · -- cut off
    have hheld : unlockHeld key start size r.held =
        [⟨r.type, r.key, r.start, r.size - (r.start + r.size - start)⟩] := by
      rw [unlockHeld_held, if_neg h₁, if_neg h₂, if_neg h₃, if_pos h₄]
    obtain ⟨rl', e, chain', gety, get'⟩ := resize_spec
      (f := fun s => { s with size := s.size - (r.start + r.size - start) })
      h hr rfl (hpart _ (hheld ▸ List.mem_singleton_self _)).2.2
    refine ⟨rl', [a], ?_, .of_keep hnodup chain' hinner hr hkept gety hheld fun b _ hb => get' b hb⟩
    rw [if_neg h₁, if_neg h₂, if_neg h₃, if_pos h₄, e, Option.bind_some]
  by_cases h₅ : r.start < start ∧ start + size < r.stop
  · -- split
    have hheld : unlockHeld key start size r.held =
        [⟨r.type, r.key, r.start, start - r.start⟩,
          ⟨r.type, r.key, start + size, r.stop - (start + size)⟩] := by
      rw [unlockHeld_held, if_neg h₁, if_neg h₂, if_neg h₃, if_neg h₄, if_pos h₅]
    have hkey : r.key = key := not_not.1 h₁
    obtain ⟨rl', c, x, y, e, chain', getx, heldx, gety, heldy, get'⟩ :=
      rlSplit_spec h hr
        (hpart _ (hheld ▸ List.mem_cons_self)).2.2
        (hkey ▸ (hpart _ (hheld ▸ List.mem_cons_of_mem _ (List.mem_singleton_self _))).2.2)
    have hsplit := List.nodup_append.1 hnodup
    have hpre : ∀ b ∈ pre, rl'.get b = rl.get b := fun b hb =>
      get' b (List.mem_append_left _ hb) (hsplit.2.2 b hb a List.mem_cons_self)
    have hrest : ∀ b ∈ rest, rl'.get b = rl.get b := fun b hb =>
      get' b (List.mem_append_right _ (List.mem_cons_of_mem _ hb)) fun e =>
        (List.nodup_cons.1 hsplit.2.1).1 (e ▸ hb)
    have hlinks := links_of_keep ((pre ++ [a, c]).getLastD 0) hinner hr hkept
      (Or.inl ⟨hkey, h₅⟩) hrest
    refine ⟨rl', [a, c], ?_, by simpa using chain', ?_, ?_, hlinks.1, hlinks.2⟩
    · rw [if_neg h₁, if_neg h₂, if_neg h₃, if_neg h₄, if_pos h₅, e, Option.bind_some]
    · have hfront : rl'.contents pre = rl.contents pre :=
        RangeLock.contents_congr fun b hb => by rw [hpre b hb]
      rw [RangeLock.contents_append, RangeLock.contents_cons getx, RangeLock.contents_cons gety,
        heldx, heldy, hheld, hkey, hfront]
      rfl
    · exact RangeLock.contents_congr fun b hb => by rw [hrest b hb]
  · refine ⟨rl, [a], ?_, hkeep hkept ?_⟩
    · rw [if_neg h₁, if_neg h₂, if_neg h₃, if_neg h₄, if_neg h₅]
    · rw [unlockHeld_held, if_neg h₁, if_neg h₂, if_neg h₃, if_neg h₄, if_neg h₅]

/-- The whole loop. -/
theorem rlUnlockLoop_spec (hU : start.toNat + size.toNat < 2 ^ 64) {fuel : ℕ}
    (h : Chain rl (pre ++ suf)) (hfuel : suf.length < fuel)
    (hhead : HeadLinkOk rl key start size (pre.getLastD 0) suf)
    (hinner : InnerLinksOk rl key start size suf) :
    ∃ rl' l, rlUnlockLoop key start size fuel rl (suf.headD 0) = some rl' ∧ Chain rl' l ∧
      rl'.contents l =
        rl.contents pre ++ (rl.contents suf).flatMap (unlockHeld key start size) := by
  induction suf generalizing rl pre fuel with
  | nil =>
    obtain ⟨fuel, rfl⟩ := Nat.exists_eq_succ_of_ne_zero (Nat.ne_of_gt hfuel)
    refine ⟨rl, pre, by simp [rlUnlockLoop], by simpa using h, ?_⟩
    simp [RangeLock.contents]
  | cons a rest ih =>
    obtain ⟨fuel, rfl⟩ := Nat.exists_eq_succ_of_ne_zero (Nat.ne_of_gt (Nat.zero_lt_of_lt hfuel))
    obtain ⟨r, hr, -⟩ := h.alloc a (by simp)
    obtain ⟨rl', mid, e, turned⟩ := rlUnlockLoop_step hU fuel h hr hhead hinner
    obtain ⟨rl'', l, e', chain'', contents''⟩ := ih turned.chain
      (by simpa using hfuel) turned.head turned.inner
    refine ⟨rl'', l, e.trans e', chain'', ?_⟩
    rw [contents'', turned.front, turned.back, RangeLock.contents_cons hr, List.flatMap_cons,
      List.append_assoc]

/-- A list in memory is shorter than the address space in use. -/
theorem Chain.length_lt (h : Chain rl l) : l.length < rl.heap.brk := by
  have hsub : l ⊆ (List.range rl.heap.brk).erase 0 := fun a ha => by
    obtain ⟨x, hx, -⟩ := h.alloc a ha
    exact (List.mem_erase_of_ne (h.ne_zero ha)).2 (List.mem_range.2 (Heap.lt_brk hx))
  have hle := (List.subperm_of_subset h.nodup hsub).length_le
  rw [List.length_erase_of_mem (List.mem_range.2 rl.heap.brk_pos), List.length_range] at hle
  have := rl.heap.brk_pos
  omega

theorem Chain.table_eq (h : Chain rl l) : rl.table = tableOf (rl.contents l) := by
  funext k t
  ext b
  constructor
  · rintro ⟨l', hl', hb⟩
    rwa [h.linked.unique hl']
  · exact fun hb => ⟨l, h.linked, hb⟩

/-- `rlUnlock` returns when the `prev` links it uses are right, with every range replaced by what
`unlockHeld` leaves of it. -/
theorem rlUnlock_spec (hU : start.toNat + size.toNat < 2 ^ 64) (h : Chain rl l)
    (hlinks : PrevLinksOk rl key start size) :
    ∃ rl' l', rlUnlock rl key start size = some rl' ∧ Chain rl' l' ∧ rl'.requests = [] ∧
      rl'.contents l' = (rl.contents l).flatMap (unlockHeld key start size) := by
  obtain ⟨hhead, hinner⟩ := hlinks l h.linked
  obtain ⟨rl', l', e, chain', contents'⟩ :=
    rlUnlockLoop_spec hU (show Chain rl ([] ++ l) from h) h.length_lt hhead hinner
  refine ⟨{ rl' with requests := [] }, l', ?_, ⟨chain'.linked, chain'.nodup, chain'.alloc⟩, rfl,
    contents'⟩
  rw [rlUnlock, h.linked.head_eq, e]
  rfl

end Memory

end Glidix.Thread
