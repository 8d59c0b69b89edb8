import Glidix.Util.HeapSlab

/-!
# Runs of the slab heap of the kernel

The blocks that are held are the live slabs, with all their pages (`Sound`).  Every call exchanges at most one
live slab for another one, as long as the sizes fit (`Fits`).
-/

namespace Glidix.Util.HeapSlab

open SlabHeap

namespace HeapState

/-! ## What is to hold -/

structure Sound (s : HeapState) : Prop where
  /-- The slabs tile the heap, each free one once on the list of its bucket; the others are the blocks. -/
  slabs : ∃ slabs, InOrder s.heap slabs ∧ (∀ x ∈ slabs, x.use ≠ .out) ∧ Held s.live slabs ∧
    Backed s.heap.tables slabs
  inside : ∀ p k, s.live p = some k → HEAP_BASE_ADDR ≤ p ∧ p + k ≤ HEAP_BASE_ADDR + 2 ^ 30
  disjoint : ∀ p q j k, s.live p = some j → s.live q = some k → p ≠ q → p + j ≤ q ∨ q + k ≤ p
  mapped : ∀ p k, s.live p = some k → ∀ o, p ≤ o → o < p + k → s.heap.tables.mapped o

/-- The block that a call is about. -/
def block : HeapOp → ℕ
  | .krealloc block _ | .kfree block | .write block _ _ => block
  | _ => 0

/-- What a call that returns `ret` keeps. -/
structure Keeps (s t : HeapState) (op : HeapOp) (ret : ℕ) : Prop where
  others : ∀ p k, s.live p = some k → p ≠ block op →
    t.live p = some k ∧ KeepsFirst k s.heap.mem p t.heap.mem p
  /-- `krealloc` keeps what fits; without memory it keeps the block. -/
  krealloc : ∀ p size k, op = .krealloc p size → s.live p = some k → size ≠ 0 →
    if ret = 0 then t.live = s.live ∧ KeepsFirst k s.heap.mem p t.heap.mem p
    else t.live ret = some size ∧ KeepsFirst (min k size) s.heap.mem p t.heap.mem ret

/-- The size with the header does not pass `2 ^ 64`; without a block `krealloc` looks at the size first. -/
def Fits : HeapOp → Prop
  | .kxmallocDynamic size => size + 16 < 2 ^ 64
  | .krealloc block size => block = 0 ∨ size + 16 < 2 ^ 64
  | _ => True

instance : DecidablePred Fits
  | .kxmallocDynamic _ => Nat.decLt _ _
  | .krealloc _ _ => instDecidableOr
  | .kfree _ => isTrue trivial
  | .write .. => isTrue trivial

/-! ## One call -/

variable {s t : HeapState} {p ret size k : ℕ} {heap' : Heap} {slabs slabs' : List Slab}
  {old new : Option Slab} {op : HeapOp}

theorem sound_of_held (hs : InOrder s.heap slabs) (hsettled : ∀ x ∈ slabs, x.use ≠ .out) (hheld : Held s.live slabs)
    (hback : Backed s.heap.tables slabs) : s.Sound := by
  refine ⟨⟨slabs, hs, hsettled, hheld, hback⟩, fun _ _ hp => hheld.inside hs hp, fun _ _ _ _ hp hq hne =>
    hheld.disjoint hs hp hq hne, fun p k hp o h₁ h₂ => ?_⟩
  obtain ⟨x, hx, rfl, hlive⟩ := hheld.slab hp
  unfold Slab.data at h₁ h₂
  exact hback x hx k hlive o (by omega) (by omega)

/-- A call keeps the heap in order, and the other blocks. -/
theorem exchange_spec (hs : InOrder s.heap slabs) (hheld : Held s.live slabs) (hback : Backed s.heap.tables slabs)
    (hex : Exchanges slabs s.heap slabs' heap' size old new)
    (hret : ret = new.elim 0 Slab.data) (hp : p = old.elim 0 Slab.data) :
    (s.exchange heap' p ret size).Sound ∧
      ∀ q k, s.live q = some k → q ≠ p →
        (s.exchange heap' p ret size).live q = some k ∧ KeepsFirst k s.heap.mem q heap'.mem q := by
  subst hret hp
  exact ⟨sound_of_held hex.called.heap hex.called.settled (hheld.exchange hs hex.called) (hex.allBacked hback),
    fun q k hq hne => hheld.others hs hex.called hq hne⟩

/-- What a call keeps that is not `krealloc` of a block. -/
theorem keeps_of_others (hothers : ∀ q k, s.live q = some k → q ≠ block op →
      t.live q = some k ∧ KeepsFirst k s.heap.mem q t.heap.mem q)
    (hop : ∀ p size k, op = .krealloc p size → s.live p = some k → size = 0) : s.Keeps t op ret :=
  ⟨hothers, fun p size k hreal hp hne => absurd (hop p size k hreal hp) hne⟩

/-- A call that gives out a block, if there is memory. -/
theorem Sound.give {r : Heap × ℕ} (h : s.Sound)
    (hr : ∀ slabs, InOrder s.heap slabs → (∀ x ∈ slabs, x.use ≠ .out) → r = (s.heap, 0) ∨
      ∃ slabs' y, r.2 = y.data ∧ Exchanges slabs s.heap slabs' r.1 size none (some y)) :
    (s.exchange r.1 0 r.2 size).Sound ∧
      ∀ q k, s.live q = some k → q ≠ 0 →
        (s.exchange r.1 0 r.2 size).live q = some k ∧ KeepsFirst k s.heap.mem q r.1.mem q := by
  obtain ⟨slabs, hs, hsettled, hheld, hback⟩ := h.slabs
  rcases hr slabs hs hsettled with rfl | ⟨slabs', y, hret, hex⟩
  · exact exchange_spec hs hheld hback (Exchanges.refl hs hsettled size) rfl rfl
  · exact exchange_spec hs hheld hback hex hret rfl

theorem Sound.kfree (h : s.Sound) (hl : p = 0 ∨ (s.live p).isSome) (size : ℕ) :
    (s.exchange (s.heap.kfree p) p 0 size).Sound ∧
      ∀ q k, s.live q = some k → q ≠ p →
        (s.exchange (s.heap.kfree p) p 0 size).live q = some k ∧ KeepsFirst k s.heap.mem q (s.heap.kfree p).mem q := by
  obtain ⟨slabs, hs, hsettled, hheld, hback⟩ := h.slabs
  by_cases hp : p = 0
  · subst hp
    have hnone : s.heap.kfree 0 = s.heap := if_pos rfl
    rw [hnone]
    exact exchange_spec hs hheld hback (Exchanges.refl hs hsettled size) rfl rfl
  · obtain ⟨k, hk⟩ := Option.isSome_iff_exists.1 (hl.resolve_left hp)
    obtain ⟨x, hx, rfl, hlive⟩ := hheld.slab hk
    obtain ⟨slabs', hex⟩ := Heap.kfree_spec hs hsettled hx hlive size
    exact exchange_spec hs hheld hback hex rfl rfl

theorem exec_krealloc (s : HeapState) (p size : ℕ) : s.exec (.krealloc p size) =
    ((s.heap.krealloc p size).2, s.exchange (s.heap.krealloc p size).1
      (if (s.heap.krealloc p size).2 = 0 ∧ size ≠ 0 then 0 else p) (s.heap.krealloc p size).2 size) := rfl

theorem Sound.krealloc (h : s.Sound) (hp : s.live p = some k) (hne : size ≠ 0) (hlen : size + 16 < 2 ^ 64)
    (hx : s.exec (.krealloc p size) = (ret, t)) : t.Sound ∧ s.Keeps t (.krealloc p size) ret := by
  obtain ⟨slabs, hs, hsettled, hheld, hback⟩ := h.slabs
  obtain ⟨x, hx', rfl, hlive⟩ := hheld.slab hp
  rw [exec_krealloc, Prod.mk.injEq] at hx
  obtain ⟨hret, ht⟩ := hx
  subst hret ht
  rcases Heap.krealloc_spec hs hsettled hback hx' hlive hne hlen with hnull | ⟨slabs', y, hex, hret, hkeep⟩
  · rw [hnull, if_pos ⟨rfl, hne⟩]
    have hsound : (s.exchange s.heap 0 0 size).Sound :=
      (exchange_spec hs hheld hback (Exchanges.refl hs hsettled size) rfl rfl).1
    have hlive : (s.exchange s.heap 0 0 size).live = s.live := by
      have hzero := hheld.zero
      simp only [exchange, SlabHeap.exchange, if_true]
      rw [← hzero, Function.update_eq_self]
    refine ⟨hsound, fun q k hq _ => ?_, fun p size k hop hp hne => ?_⟩
    · rw [hlive]
      exact ⟨hq, fun _ _ => rfl⟩
    · rw [if_pos rfl, hlive]
      exact ⟨rfl, fun _ _ => rfl⟩
  · have hcond : (if (s.heap.krealloc x.data size).2 = 0 ∧ size ≠ 0 then 0 else x.data) = x.data := by
      rw [hret]
      exact if_neg fun hzero => Nat.succ_ne_zero _ hzero.1
    rw [hcond]
    obtain ⟨hsound, hothers⟩ := exchange_spec hs hheld hback hex hret rfl
    refine ⟨hsound, hothers, fun p size' k' hop hp' _ => ?_⟩
    obtain ⟨rfl, rfl⟩ := HeapOp.krealloc.inj hop
    obtain rfl : k = k' := Option.some.inj (hp.symm.trans hp')
    rw [hret, if_neg (show y.data ≠ 0 from Nat.succ_ne_zero _)]
    exact ⟨hheld.given hs hex.called, hkeep⟩

theorem exec_kxmallocDynamic (s : HeapState) (size : ℕ) : s.exec (.kxmallocDynamic size) =
    ((s.heap.kxmallocDynamic size).2,
      s.exchange (s.heap.kxmallocDynamic size).1 0 (s.heap.kxmallocDynamic size).2 size) := rfl

theorem exec_kfree (s : HeapState) (p : ℕ) : s.exec (.kfree p) = (0, s.exchange (s.heap.kfree p) p 0 0) := rfl

/-- One call whose sizes fit. -/
theorem Sound.exec (h : s.Sound) (hl : s.Legal op) (hf : Fits op) (hx : s.exec op = (ret, t)) :
    t.Sound ∧ s.Keeps t op ret := by
  obtain ⟨slabs, hs, hsettled, hheld, hback⟩ := h.slabs
  cases op with
  | kxmallocDynamic size =>
    rw [exec_kxmallocDynamic, Prod.mk.injEq] at hx
    obtain ⟨hret, ht⟩ := hx
    subst hret ht
    obtain ⟨hsound, hothers⟩ := h.give fun slabs hs hsettled => Heap.kxmallocDynamic_spec hs hsettled hf
    exact ⟨hsound, keeps_of_others hothers nofun⟩
  | krealloc p size =>
    by_cases hne : size = 0
    · subst hne
      have heq : s.heap.krealloc p 0 = (s.heap.kfree p, 0) := if_pos rfl
      have hcond : (if (0 : ℕ) = 0 ∧ (0 : ℕ) ≠ 0 then 0 else p) = p := if_neg fun h => h.2 rfl
      rw [exec_krealloc, heq, hcond, Prod.mk.injEq] at hx
      obtain ⟨hret, ht⟩ := hx
      subst hret ht
      obtain ⟨hsound, hothers⟩ := h.kfree hl.1 0
      exact ⟨hsound, keeps_of_others hothers fun _ _ _ hop _ => ((HeapOp.krealloc.inj hop).2).symm⟩
    · by_cases hp : p = 0
      · subst hp
        have heq : s.heap.krealloc 0 size = s.heap.kmalloc size := (if_neg hne).trans (if_pos rfl)
        rw [exec_krealloc, heq, ite_self, Prod.mk.injEq] at hx
        obtain ⟨hret, ht⟩ := hx
        subst hret ht
        obtain ⟨hsound, hothers⟩ := h.give fun slabs hs hsettled => @Heap.kmalloc_spec _ size _ hs hsettled
        refine ⟨hsound, keeps_of_others hothers fun p size k hop hk => ?_⟩
        obtain ⟨rfl, rfl⟩ := HeapOp.krealloc.inj hop
        rw [hheld.zero] at hk
        exact nomatch hk
      · obtain ⟨k, hk⟩ := Option.isSome_iff_exists.1 (hl.1.resolve_left hp)
        exact h.krealloc hk hne (hf.resolve_left hp) hx
  | kfree p =>
    rw [exec_kfree, Prod.mk.injEq] at hx
    obtain ⟨hret, ht⟩ := hx
    subst hret ht
    obtain ⟨hsound, hothers⟩ := h.kfree hl 0
    exact ⟨hsound, keeps_of_others hothers nofun⟩
  | write p off byte =>
    obtain ⟨k, hk, hoff⟩ := hl
    obtain ⟨-, ht⟩ := Prod.mk.inj hx
    subst ht
    obtain ⟨x, hmem, rfl, hlive⟩ := hheld.slab hk
    have hroom := (hs.live x hmem k hlive).2.2
    refine ⟨sound_of_held (hs.write hmem hlive ?_) hsettled hheld hback, keeps_of_others (fun q j hq hne => ?_) nofun⟩
    · exact Bytes.agreeOutside_update (by unfold Slab.data; omega) (by unfold Slab.data; omega)
    · have hdisj := h.disjoint _ _ _ _ hq hk hne
      refine ⟨hq, fun i hi => Function.update_of_ne ?_ _ _⟩
      simp only [block] at hne
      omega

end HeapState

/-! ## Every run -/

variable {s : HeapState}

open HeapState

/-- In every run in which the sizes fit the slabs tile the heap and hold the blocks, with their pages, and every
call keeps what it has to. -/
theorem slabs_sound (h : heapSystem.ReachesBy (fun _ => Fits) s) :
    s.Sound ∧ ∀ op, s.Legal op → Fits op → s.Keeps (s.exec op).2 op (s.exec op).1 := by
  have hsound : s.Sound := by
    refine h.invariant ?_ fun s op t hs hf hstep => ?_
    · rintro s ⟨mem, tables, rfl⟩
      have hnext : Bytes.load 8 (Bytes.store 8 mem HEAP_BASE_ADDR 0) HEAP_BASE_ADDR = 0 :=
        Bytes.load_store_quad (by decide)
      have hmapped := @PageTables.mapPages_mapped tables _ HEAP_BASE_ADDR 1 (.inl (by decide)) le_rfl (Nat.lt_succ_self _)
      have hsingle : InOrder (initMemoryPhase2 mem tables) [⟨HEAP_BASE_ADDR, 25, .free⟩] :=
        SlabHeap.single hmapped (by decide) (by decide) hnext
      refine sound_of_held hsingle (List.forall_mem_singleton.2 nofun) (fun p k => ?_) ?_
      · simp
      · exact List.forall_mem_singleton.2 nofun
    · obtain ⟨hl, rfl⟩ := hstep
      exact (hs.exec hl hf rfl).1
  exact ⟨hsound, fun op hl hf => (hsound.exec hl hf rfl).2⟩

section Examples

/-- One call, if it is legal. -/
def execStep (s : HeapState) (op : HeapOp) : Option HeapState := if s.Legal op then some (s.exec op).2 else none

theorem step_of_execStep {s t : HeapState} {op : HeapOp} (h : execStep s op = some t) : heapSystem.step s op t := by
  obtain ⟨hl, h⟩ := Option.ite_none_right_eq_some.1 h
  exact ⟨hl, Option.some.inj h⟩

/-- The heap in memory that is zero, with nothing mapped before. -/
def emptyHeap : HeapState :=
  ⟨initMemoryPhase2 (fun _ => 0) ⟨fun _ => false, fun _ => false, fun _ => false, fun _ => false⟩, fun _ => none⟩

/-- A block is written, moved and cut. -/
theorem slabs_sound_of_calls : ∃ s, heapSystem.ReachesBy (fun _ => Fits) s ∧
    s.live (HEAP_BASE_ADDR + 8208) = some 20 ∧ s.heap.mem (HEAP_BASE_ADDR + 8211) = 7 ∧ s.Sound := by
  have hrun : (System.execBy (fun _ => Fits) execStep emptyHeap
      [.kxmallocDynamic 100, .write (HEAP_BASE_ADDR + 16) 3 7, .krealloc (HEAP_BASE_ADDR + 16) 5000,
        .krealloc (HEAP_BASE_ADDR + 8208) 20, .kfree 0]).any
      (fun s => decide (s.live (HEAP_BASE_ADDR + 8208) = some 20 ∧ s.heap.mem (HEAP_BASE_ADDR + 8211) = 7)) = true := by
    decide
  obtain ⟨s, hs, hstate⟩ := (Option.any_eq_true ..).1 hrun
  obtain ⟨hlive, hbyte⟩ := of_decide_eq_true hstate
  have hreach : heapSystem.ReachesBy (fun _ => Fits) s :=
    System.ReachesBy.execBy (fun _ _ _ h => step_of_execStep h) (.init ⟨_, _, rfl⟩) hs
  exact ⟨s, hreach, hlive, hbyte, (slabs_sound hreach).1⟩

/-- The size with the header is 8: the block is cut in half and returned. -/
theorem krealloc_wraps : ∃ s, heapSystem.Reachable s ∧ s.live (HEAP_BASE_ADDR + 16) = some (2 ^ 64 - 8) ∧ ¬s.Sound := by
  have hrun : (System.execBy (fun _ _ => True) execStep emptyHeap
      [.kxmallocDynamic 32, .krealloc (HEAP_BASE_ADDR + 16) (2 ^ 64 - 8)]).any
      (fun s => decide (s.live (HEAP_BASE_ADDR + 16) = some (2 ^ 64 - 8))) = true := by decide
  obtain ⟨s, hs, hstate⟩ := (Option.any_eq_true ..).1 hrun
  have hlive := of_decide_eq_true hstate
  have hreach : heapSystem.Reachable s :=
    System.ReachesBy.execBy (fun _ _ _ h => step_of_execStep h) (.init ⟨_, _, rfl⟩) hs
  refine ⟨s, hreach, hlive, fun hsound => ?_⟩
  have hinside := (hsound.inside _ _ hlive).2
  omega

end Examples

end Glidix.Util.HeapSlab
