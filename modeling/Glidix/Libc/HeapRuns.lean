import Glidix.Libc.HeapAlloc

/-!
# Runs of the heap of the C library

The blocks that the program holds are the live slabs (`Sound`).  Every call exchanges at most one live slab
for another one, and keeps the data of the others, as long as the sizes fit (`Fits`).
-/

namespace Glidix.Libc.HeapAlloc

open SlabHeap

namespace HeapState

/-! ## What is to hold -/

structure Sound (heap : ℕ) (s : HeapState) : Prop where
  /-- The slabs tile the heap, each free one once on the list of its bucket; the others are the blocks. -/
  slabs : ∃ slabs, InOrder heap s.heap slabs ∧ (∀ x ∈ slabs, x.use ≠ .out) ∧
    Held s.live slabs
  inside : ∀ p k, s.live p = some k → heap ≤ p ∧ p + k ≤ heap + 2 ^ 37
  disjoint : ∀ p q j k, s.live p = some j → s.live q = some k → p ≠ q → p + j ≤ q ∨ q + k ≤ p

/-- The block that a call is about. -/
def block : HeapOp → ℕ
  | .realloc block _ | .free block | .write block _ _ => block
  | _ => 0

/-- What a call that returns `ret` keeps. -/
structure Keeps (s t : HeapState) (op : HeapOp) (ret : ℕ) : Prop where
  others : ∀ p k, s.live p = some k → p ≠ block op →
    t.live p = some k ∧ KeepsFirst k s.heap.mem p t.heap.mem p
  /-- `_heap_realloc` keeps what fits; without memory it keeps the block. -/
  realloc : ∀ p newsize k, op = .realloc p newsize → s.live p = some k → newsize ≠ 0 →
    if ret = 0 then t.live = s.live ∧ KeepsFirst k s.heap.mem p t.heap.mem p
    else t.live ret = some newsize ∧ KeepsFirst (min k newsize) s.heap.mem p t.heap.mem ret

/-- The size with the header does not pass `2 ^ 64`, and neither does the product of `calloc`. -/
def Fits : HeapOp → Prop
  | .malloc len => len + 16 < 2 ^ 64
  | .calloc nitems size => nitems * size + 16 < 2 ^ 64
  | .realloc _ newsize => newsize + 16 < 2 ^ 64
  | _ => True

instance : DecidablePred Fits
  | .malloc _ => Nat.decLt _ _
  | .calloc _ _ => Nat.decLt _ _
  | .realloc _ _ => Nat.decLt _ _
  | .free _ => isTrue trivial
  | .write .. => isTrue trivial

/-! ## One call -/

variable {s t : HeapState} {base p ret size k : ℕ} {heap' : Heap} {slabs slabs' : List Slab}
  {old new : Option Slab} {op : HeapOp}

theorem sound_of_held (hs : InOrder base s.heap slabs) (hsettled : ∀ x ∈ slabs, x.use ≠ .out)
    (hheld : Held s.live slabs) : s.Sound base :=
  ⟨⟨slabs, hs, hsettled, hheld⟩, fun _ _ hp => hheld.inside hs hp, fun _ _ _ _ hp hq hne =>
    hheld.disjoint hs hp hq hne⟩

/-- A call keeps the heap in order, and the other blocks. -/
theorem exchange_spec (hs : InOrder base s.heap slabs) (hheld : Held s.live slabs)
    (hcall : Exchanges base slabs s.heap slabs' heap' size old new)
    (hret : ret = new.elim 0 Slab.data) (hp : p = old.elim 0 Slab.data) :
    (s.exchange heap' p ret size).Sound base ∧
      ∀ q k, s.live q = some k → q ≠ p →
        (s.exchange heap' p ret size).live q = some k ∧ KeepsFirst k s.heap.mem q heap'.mem q := by
  subst hret hp
  exact ⟨sound_of_held hcall.heap hcall.settled (hheld.exchange hs hcall), fun q k hq hne =>
    hheld.others hs hcall hq hne⟩

/-- What a call keeps that is not `_heap_realloc` of a block. -/
theorem keeps_of_others (hothers : ∀ q k, s.live q = some k → q ≠ block op →
      t.live q = some k ∧ KeepsFirst k s.heap.mem q t.heap.mem q)
    (hop : ∀ p newsize k, op = .realloc p newsize → s.live p = some k → newsize = 0) : s.Keeps t op ret :=
  ⟨hothers, fun p newsize k hreal hp hne => absurd (hop p newsize k hreal hp) hne⟩

theorem Sound.malloc {len : ℕ} (h : s.Sound base) (hlen : len + 16 < 2 ^ 64) :
    (s.exchange (s.heap.heap_malloc len).1 0 (s.heap.heap_malloc len).2 len).Sound base ∧
      ∀ q k, s.live q = some k → q ≠ 0 →
        (s.exchange (s.heap.heap_malloc len).1 0 (s.heap.heap_malloc len).2 len).live q = some k ∧
          KeepsFirst k s.heap.mem q (s.heap.heap_malloc len).1.mem q := by
  obtain ⟨slabs, hs, hsettled, hheld⟩ := h.slabs
  rcases Heap.heap_malloc_spec hs hsettled hlen with hnull | ⟨slabs', y, hret, hcall⟩
  · rw [hnull]
    exact exchange_spec hs hheld (Called.refl hs hsettled len) rfl rfl
  · exact exchange_spec hs hheld hcall hret rfl

theorem Sound.free (h : s.Sound base) (hl : p = 0 ∨ (s.live p).isSome) (ret size : ℕ) (hret : ret = 0) :
    (s.exchange (s.heap.heap_free p) p ret size).Sound base ∧
      ∀ q k, s.live q = some k → q ≠ p →
        (s.exchange (s.heap.heap_free p) p ret size).live q = some k ∧
          KeepsFirst k s.heap.mem q (s.heap.heap_free p).mem q := by
  obtain ⟨slabs, hs, hsettled, hheld⟩ := h.slabs
  by_cases hp : p = 0
  · subst hp
    have hnone : s.heap.heap_free 0 = s.heap := if_pos rfl
    rw [hnone]
    exact exchange_spec hs hheld (Called.refl hs hsettled size) hret rfl
  · obtain ⟨k, hk⟩ := Option.isSome_iff_exists.1 (hl.resolve_left hp)
    obtain ⟨x, hx, rfl, hlive⟩ := hheld.slab hk
    obtain ⟨slabs', hcall⟩ := Heap.heap_free_spec hs hsettled hx hlive size
    exact exchange_spec hs hheld hcall hret rfl

theorem exec_realloc (s : HeapState) (p newsize : ℕ) : s.exec (.realloc p newsize) =
    some ((s.heap.heap_realloc p newsize).2, s.exchange (s.heap.heap_realloc p newsize).1
      (if (s.heap.heap_realloc p newsize).2 = 0 ∧ newsize ≠ 0 then 0 else p) (s.heap.heap_realloc p newsize).2
      newsize) := rfl

theorem Sound.realloc {newsize : ℕ} (h : s.Sound base) (hp : s.live p = some k) (hne : newsize ≠ 0)
    (hlen : newsize + 16 < 2 ^ 64) (hx : s.exec (.realloc p newsize) = some (ret, t)) :
    t.Sound base ∧ s.Keeps t (.realloc p newsize) ret := by
  obtain ⟨slabs, hs, hsettled, hheld⟩ := h.slabs
  obtain ⟨x, hx', rfl, hlive⟩ := hheld.slab hp
  rw [exec_realloc, Option.some.injEq, Prod.mk.injEq] at hx
  obtain ⟨hret, ht⟩ := hx
  subst hret ht
  rcases Heap.heap_realloc_spec hs hsettled hx' hlive hne hlen with hnull | ⟨slabs', y, hcall, hret, hkeep⟩
  · rw [hnull]
    have hrefl : Exchanges base slabs s.heap slabs s.heap.noMem.1 newsize none none :=
      Called.refl hs hsettled newsize
    have hsound : (s.exchange s.heap.noMem.1 0 s.heap.noMem.2 newsize).Sound base :=
      (exchange_spec hs hheld hrefl rfl rfl).1
    have hcond : (if s.heap.noMem.2 = 0 ∧ newsize ≠ 0 then 0 else x.data) = 0 := if_pos ⟨rfl, hne⟩
    rw [hcond]
    have hlive : (s.exchange s.heap.noMem.1 0 s.heap.noMem.2 newsize).live = s.live := by
      have hzero := hheld.zero
      simp only [exchange, SlabHeap.exchange, Heap.noMem, if_true]
      rw [← hzero, Function.update_eq_self]
    refine ⟨hsound, fun q k hq _ => ?_, fun p newsize k hop hp hne => ?_⟩
    · rw [hlive]
      exact ⟨hq, fun _ _ => rfl⟩
    · rw [if_pos (show s.heap.noMem.2 = 0 from rfl), hlive]
      exact ⟨rfl, fun _ _ => rfl⟩
  · have hcond : (if (s.heap.heap_realloc x.data newsize).2 = 0 ∧ newsize ≠ 0 then 0 else x.data) = x.data := by
      rw [hret]
      exact if_neg fun hzero => Nat.succ_ne_zero _ hzero.1
    rw [hcond]
    obtain ⟨hsound, hothers⟩ := exchange_spec hs hheld hcall hret rfl
    refine ⟨hsound, hothers, fun p newsize' k' hop hp' _ => ?_⟩
    obtain ⟨rfl, rfl⟩ := HeapOp.realloc.inj hop
    obtain rfl : k = k' := Option.some.inj (hp.symm.trans hp')
    rw [hret, if_neg (show y.data ≠ 0 from Nat.succ_ne_zero _)]
    exact ⟨hheld.given hs hcall, hkeep⟩

theorem exec_malloc (s : HeapState) (len : ℕ) : s.exec (.malloc len) =
    some ((s.heap.heap_malloc len).2, s.exchange (s.heap.heap_malloc len).1 0 (s.heap.heap_malloc len).2 len) := rfl

theorem exec_free (s : HeapState) (p : ℕ) : s.exec (.free p) =
    some (0, s.exchange (s.heap.heap_free p) p 0 0) := rfl

/-- One call whose sizes fit. -/
theorem Sound.exec (h : s.Sound base) (hl : s.Legal op) (hf : Fits op) (hx : s.exec op = some (ret, t)) :
    t.Sound base ∧ s.Keeps t op ret := by
  obtain ⟨slabs, hs, hsettled, hheld⟩ := h.slabs
  have hzero := hheld.zero
  cases op with
  | malloc len =>
    rw [exec_malloc, Option.some.injEq, Prod.mk.injEq] at hx
    obtain ⟨hret, ht⟩ := hx
    subst hret ht
    obtain ⟨hsound, hothers⟩ := h.malloc hf
    exact ⟨hsound, keeps_of_others hothers nofun⟩
  | calloc nitems size =>
    obtain ⟨⟨heap', p⟩, hcalloc, hx⟩ := Option.map_eq_some_iff.1 hx
    obtain ⟨hret, ht⟩ := Prod.mk.inj hx
    subst hret ht
    rcases Heap.calloc_spec hs hsettled hf hcalloc with hnull | ⟨slabs', y, hcall, hret, -⟩
    · obtain ⟨rfl, rfl⟩ := Prod.mk.inj hnull
      have hrefl : Exchanges base slabs s.heap slabs s.heap.noMem.1 (nitems * size)
          none none := Called.refl hs hsettled (nitems * size)
      obtain ⟨hsound, hothers⟩ := @exchange_spec s base 0 0 _ _ _ _ _ _ hs hheld hrefl rfl rfl
      exact ⟨hsound, keeps_of_others hothers nofun⟩
    · obtain ⟨hsound, hothers⟩ := exchange_spec hs hheld hcall hret rfl
      exact ⟨hsound, keeps_of_others hothers nofun⟩
  | realloc p newsize =>
    by_cases hne : newsize = 0
    · subst hne
      rw [exec_realloc, Option.some.injEq, Prod.mk.injEq] at hx
      obtain ⟨hret, ht⟩ := hx
      subst hret ht
      have hcond : (if (s.heap.heap_realloc p 0).2 = 0 ∧ (0 : ℕ) ≠ 0 then 0 else p) = p := if_neg fun h => h.2 rfl
      rw [hcond]
      obtain ⟨hsound, hothers⟩ := h.free hl.1 0 0 rfl
      refine ⟨?_, keeps_of_others hothers fun _ _ _ hop _ => ((HeapOp.realloc.inj hop).2).symm⟩
      obtain ⟨hslabs, hinside, hdisj⟩ := hsound
      exact ⟨hslabs, hinside, hdisj⟩
    · by_cases hp : p = 0
      · subst hp
        have heq : s.heap.heap_realloc 0 newsize = s.heap.heap_malloc newsize := (if_neg hne).trans (if_pos rfl)
        rw [exec_realloc, heq, ite_self, Option.some.injEq, Prod.mk.injEq] at hx
        obtain ⟨hret, ht⟩ := hx
        subst hret ht
        obtain ⟨hsound, hothers⟩ := h.malloc hf
        refine ⟨hsound, keeps_of_others hothers fun p newsize k hop hk => ?_⟩
        obtain ⟨rfl, rfl⟩ := HeapOp.realloc.inj hop
        rw [hzero] at hk
        exact nomatch hk
      · obtain ⟨k, hk⟩ := Option.isSome_iff_exists.1 (hl.1.resolve_left hp)
        exact h.realloc hk hne hf hx
  | free p =>
    rw [exec_free, Option.some.injEq, Prod.mk.injEq] at hx
    obtain ⟨hret, ht⟩ := hx
    subst hret ht
    obtain ⟨hsound, hothers⟩ := h.free hl 0 0 rfl
    exact ⟨hsound, keeps_of_others hothers nofun⟩
  | write p off byte =>
    obtain ⟨k, hk, hoff⟩ := hl
    obtain ⟨-, ht⟩ := Prod.mk.inj (Option.some.inj hx)
    subst ht
    obtain ⟨x, hmem, rfl, hlive⟩ := hheld.slab hk
    have hroom := (hs.live x hmem k hlive).2.2
    refine ⟨sound_of_held (hs.write hmem hlive ?_) hsettled hheld, keeps_of_others (fun q j hq hne => ?_) nofun⟩
    · exact Bytes.agreeOutside_update (by unfold Slab.data; omega) (by unfold Slab.data; omega)
    · have hdisj := h.disjoint _ _ _ _ hq hk hne
      refine ⟨hq, fun i hi => Function.update_of_ne ?_ _ _⟩
      simp only [block] at hne
      omega

end HeapState

/-! ## Every run -/

variable {s : HeapState} {base : ℕ}

open HeapState

/-- In every run in which the sizes fit the slabs tile the heap and hold the blocks, and every call keeps what
it has to. -/
theorem libcHeap_sound (h : (heapSystem base).ReachesBy (fun _ => Fits) s) :
    s.Sound base ∧ ∀ op ret t, s.Legal op → Fits op → s.exec op = some (ret, t) → s.Keeps t op ret := by
  have hsound : s.Sound base := by
    refine h.invariant ?_ fun s op t hs hf hstep => ?_
    · rintro s ⟨mem, hpos, hend, hzero, rfl⟩
      have hnext : Bytes.load 8 mem base = 0 := by
        have hbytes : Bytes.load 8 mem base = Bytes.load 8 (fun _ => 0) base :=
          Bytes.load_congr fun o h₁ h₂ => hzero o h₁ (by omega)
        rw [hbytes]
        exact Bytes.getQuad_zero 0
      have hsingle : InOrder base (heap_init mem base) [⟨base, 32, .free⟩] := SlabHeap.single trivial hpos hend hnext
      refine sound_of_held hsingle (List.forall_mem_singleton.2 nofun) fun p k => ?_
      simp
    · obtain ⟨hl, ret, hx⟩ := hstep
      exact (hs.exec hl hf hx).1
  exact ⟨hsound, fun op ret t hl hf hx => (hsound.exec hl hf hx).2⟩

section Examples

/-- One call, if it is legal. -/
def execStep (s : HeapState) (op : HeapOp) : Option HeapState :=
  if s.Legal op then (s.exec op).map Prod.snd else none

theorem step_of_execStep {s t : HeapState} {op : HeapOp} (h : execStep s op = some t) :
    (heapSystem base).step s op t := by
  obtain ⟨hl, h⟩ := Option.ite_none_right_eq_some.1 h
  obtain ⟨⟨ret, t⟩, hx, rfl⟩ := Option.map_eq_some_iff.1 h
  exact ⟨hl, ret, hx⟩

/-- The heap at an address in memory that is zero. -/
def zeroHeap : HeapState := ⟨heap_init (fun _ => 0) 4096, fun _ => none⟩

theorem init_zeroHeap : (heapSystem 4096).init zeroHeap :=
  ⟨fun _ => 0, by decide, by decide, fun _ _ _ => rfl, rfl⟩

/-- A block is written, moved and cut. -/
theorem libcHeap_sound_of_calls : ∃ s, (heapSystem 4096).ReachesBy (fun _ => Fits) s ∧ s.live 5136 = some 20 ∧
    s.heap.mem 5139 = 7 ∧ s.Sound 4096 := by
  have hrun : (System.execBy (fun _ => Fits) execStep zeroHeap
      [.malloc 100, .calloc 3 5, .write 4112 3 7, .realloc 4112 1000, .realloc 5136 20, .free 4240]).any
      (fun s => decide (s.live 5136 = some 20 ∧ s.heap.mem 5139 = 7)) = true := by decide
  obtain ⟨s, hs, hstate⟩ := (Option.any_eq_true ..).1 hrun
  obtain ⟨hlive, hbyte⟩ := of_decide_eq_true hstate
  have hreach : (heapSystem 4096).ReachesBy (fun _ => Fits) s :=
    System.ReachesBy.execBy (fun _ _ _ h => step_of_execStep h) (.init init_zeroHeap) hs
  exact ⟨s, hreach, hlive, hbyte, (libcHeap_sound hreach).1⟩

/-- The size with the header is zero: a block of 32 bytes is given out. -/
theorem malloc_wraps : ∃ s, (heapSystem 4096).Reachable s ∧ s.live 4112 = some (2 ^ 64 - 16) ∧ ¬s.Sound 4096 := by
  have hrun : (System.execBy (fun _ _ => True) execStep zeroHeap [.malloc (2 ^ 64 - 16)]).any
      (fun s => decide (s.live 4112 = some (2 ^ 64 - 16))) = true := by decide
  obtain ⟨s, hs, hstate⟩ := (Option.any_eq_true ..).1 hrun
  have hlive := of_decide_eq_true hstate
  have hreach : (heapSystem 4096).Reachable s :=
    System.ReachesBy.execBy (fun _ _ _ h => step_of_execStep h) (.init init_zeroHeap) hs
  refine ⟨s, hreach, hlive, fun hsound => ?_⟩
  have hinside := (hsound.inside _ _ hlive).2
  omega

end Examples

end Glidix.Libc.HeapAlloc
