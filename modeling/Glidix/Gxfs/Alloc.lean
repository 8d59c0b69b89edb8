import Mathlib.Data.Finset.Card
import Mathlib.Tactic.Linarith
import Glidix.Gxfs.Volume
import Glidix.Lib.Linked
import Glidix.Lib.Runs

/-!
# The block allocator over whole runs

`sbbUsedBlocks` is both the watermark below which every block has been handed out and the count
that `gxfsAllocBlock` compares with `sbbTotalBlocks`; an allocation from the free list advances it
although the watermark has not moved, so the block it steps over is never handed out.  The free
list itself is sound in every run: its blocks lie below the watermark and none is in use
(`AllocInv`).  The answer of the allocator is right exactly in the states where the two readings of
the counter agree (`WatermarkCounts`).
-/

namespace Glidix.Gxfs

open Bytes

/-! ## Runs -/

/-- A mounted volume and the set of blocks in use. -/
structure AllocState where
  vol : Volume
  allocated : Finset ℕ

/-- Calls of the allocator, and writes by the owners of blocks. -/
inductive AllocOp where
  | alloc
  | free (block : ℕ) (junk : Bytes)
  | write (block : ℕ) (buffer : Bytes)

namespace AllocState

/-- Number of blocks on the device. -/
def total (s : AllocState) : ℕ := s.vol.sbb.sbbTotalBlocks

/-- Only blocks in use are freed and written. -/
def Legal (s : AllocState) : AllocOp → Prop
  | .alloc => True
  | .free block _ => block ∈ s.allocated
  | .write block _ => block ∈ s.allocated

/-- The effect of a call, with the set of blocks in use updated by its answer. -/
def apply (s : AllocState) : AllocOp → AllocState
  | .alloc =>
    let (block, vol) := gxfsAllocBlock s.vol
    ⟨vol, if block = 0 then s.allocated else insert block s.allocated⟩
  | .free block junk => ⟨gxfsFreeBlock s.vol block junk, s.allocated.erase block⟩
  | .write block buffer => ⟨(gxfsWriteBlock s.vol block buffer).getD s.vol, s.allocated⟩

/-- `fs->freeBlocks` is the number of blocks not in use. -/
def FreeCountExact (s : AllocState) : Prop :=
  s.vol.freeBlocks = (Finset.range s.total \ s.allocated).card

/-- The next call of `gxfsAllocBlock` answers a block of the device that is not in use, and `0` only
when every block is in use. -/
def AllocAnswerRight (s : AllocState) : Prop :=
  ((gxfsAllocBlock s.vol).1 = 0 → ∀ b < s.total, b ∈ s.allocated) ∧
    ((gxfsAllocBlock s.vol).1 ≠ 0 →
      (gxfsAllocBlock s.vol).1 < s.total ∧ (gxfsAllocBlock s.vol).1 ∉ s.allocated)

/-- The watermark and the count of used blocks agree as far as the allocator relies on it: with an
empty free list, either blocks above the watermark remain, or the watermark is at the end of the
device and no block is counted as free. -/
def WatermarkCounts (s : AllocState) : Prop :=
  s.vol.sbb.sbbFreeHead = 0 → s.vol.sbb.sbbUsedBlocks < s.total ∨
    s.vol.sbb.sbbUsedBlocks = s.total ∧ s.vol.freeBlocks = 0

/-- The condition on a step: allocations are only made in states with `WatermarkCounts`, and the
64-bit counter does not wrap around. -/
def StepOk (s : AllocState) (op : AllocOp) : Prop :=
  op = .alloc → s.WatermarkCounts ∧ s.vol.sbb.sbbUsedBlocks + 1 < 2 ^ 64

end AllocState

open AllocState

/-- Runs of a volume made by `mkgxfs` on a device of at least 16 MB and mounted for writing; the
superblock, the reserved blocks and `/boot` are in use from the start, and block I/O succeeds on
every block of the device. -/
def allocSystem : System AllocState AllocOp where
  init s := ∃ st_size formatTime now disk ioOk, 0x1000000 ≤ st_size ∧ st_size < 2 ^ 63 ∧
    (∀ b < (mkgxfsBody st_size formatTime).sbbTotalBlocks, ioOk b = true) ∧
    s = ⟨gxfsOpenRoot (mkgxfsBody st_size formatTime) now disk ioOk, Finset.range 9⟩
  step s op t := s.Legal op ∧ t = s.apply op

/-! ## The invariant -/

/-- The link stored in a free block. -/
def nextFree (v : Volume) (b : ℕ) : ℕ := (v.disk b).getQuad 0

/-- `free` is the free list; its blocks and the blocks in use lie below the watermark. -/
structure AllocInv (s : AllocState) (free : List ℕ) : Prop where
  linked : Linked (nextFree s.vol) s.vol.sbb.sbbFreeHead free
  nodup : free.Nodup
  free_lt : ∀ b ∈ free, b < s.total ∧ b < s.vol.sbb.sbbUsedBlocks ∧ b ∉ s.allocated
  used_lt : ∀ b ∈ s.allocated, b < s.total ∧ b < s.vol.sbb.sbbUsedBlocks
  watermark_pos : 0 < s.vol.sbb.sbbUsedBlocks
  total_lt : s.total < 2 ^ 63
  io : ∀ b < s.total, s.vol.ioOk b = true
  count : s.FreeCountExact

theorem card_sdiff_insert {n b : ℕ} {A : Finset ℕ} (hb : b < n) (hA : b ∉ A) :
    (Finset.range n \ insert b A).card + 1 = (Finset.range n \ A).card := by
  have hmem : b ∈ Finset.range n \ A := by simp [hb, hA]
  have heq : Finset.range n \ insert b A = (Finset.range n \ A).erase b := by
    ext x
    simp only [Finset.mem_sdiff, Finset.mem_insert, Finset.mem_erase]
    tauto
  rw [heq, Finset.card_erase_add_one hmem]

theorem card_sdiff_erase {n b : ℕ} {A : Finset ℕ} (hb : b < n) (hA : b ∈ A) :
    (Finset.range n \ A.erase b).card = (Finset.range n \ A).card + 1 := by
  have h := card_sdiff_insert hb (Finset.notMem_erase b A)
  rw [Finset.insert_erase hA] at h
  exact h.symm

theorem card_sdiff_le (n : ℕ) (A : Finset ℕ) : (Finset.range n \ A).card ≤ n :=
  (Finset.card_le_card Finset.sdiff_subset).trans (Finset.card_range n).le

theorem dec64_of_pos {x : ℕ} (h : 0 < x) (hx : x < 2 ^ 64) : dec64 x = x - 1 := by
  unfold dec64
  omega

theorem inc64_of_lt {x : ℕ} (hx : x + 1 < 2 ^ 64) : inc64 x = x + 1 := Nat.mod_eq_of_lt hx

theorem AllocInv.init {s : AllocState} (h : allocSystem.init s) : ∃ free, AllocInv s free := by
  obtain ⟨st_size, formatTime, now, disk, ioOk, hmin, hmax, hio, rfl⟩ := h
  have htotal : (mkgxfsBody st_size formatTime).sbbTotalBlocks = (st_size - 0x200000) / 4096 := by
    simp [mkgxfsBody, Nat.shiftRight_eq_div_pow]
  refine ⟨[], ?_⟩
  constructor <;> simp only [total, FreeCountExact, gxfsOpenRoot, gxfsFlushSuperblock_sbb,
    gxfsFlushSuperblock_freeBlocks, gxfsFlushSuperblock_ioOk, htotal, List.not_mem_nil,
    List.nodup_nil, false_imp_iff, implies_true]
  · rfl
  · intro b hb
    have hb' := Finset.mem_range.1 hb
    simp only [mkgxfsBody]
    omega
  · simp [mkgxfsBody]
  · omega
  · rwa [htotal] at hio
  · rw [Finset.card_sdiff_of_subset (by
      intro x hx
      rw [Finset.mem_range] at hx ⊢
      omega)]
    simp only [mkgxfsBody, Finset.card_range]
    omega

section Step

variable {s : AllocState} {free : List ℕ}

/-- Writing the superblock leaves the free list as it is. -/
theorem linked_flush {v : Volume} {h : ℕ} (hl : Linked (nextFree v) h free) :
    Linked (nextFree (gxfsFlushSuperblock v)) h free :=
  hl.congr fun b hb => by simp only [nextFree, gxfsFlushSuperblock_disk v (hl.ne_zero hb)]

theorem AllocInv.freeBlocks_lt (h : AllocInv s free) : s.vol.freeBlocks < 2 ^ 64 := by
  have h₁ := card_sdiff_le s.total s.allocated
  have h₂ := h.total_lt
  rw [h.count]
  omega

/-- What a call does when the free list is not empty. -/
theorem alloc_of_cons (h : AllocInv s free) (hh : s.vol.sbb.sbbFreeHead ≠ 0) :
    gxfsAllocBlock s.vol = (s.vol.sbb.sbbFreeHead, gxfsFlushSuperblock
      { s.vol with
        sbb := { s.vol.sbb with
          sbbFreeHead := nextFree s.vol s.vol.sbb.sbbFreeHead
          sbbUsedBlocks := inc64 s.vol.sbb.sbbUsedBlocks }
        freeBlocks := dec64 s.vol.freeBlocks
        freeInodes := dec64 s.vol.freeInodes }) := by
  obtain ⟨rest, rfl, -⟩ := h.linked.exists_cons hh
  have hio := h.io _ (h.free_lt _ List.mem_cons_self).1
  simp only [gxfsAllocBlock, if_neg hh, gxfsReadBlock, hio, if_true, nextFree]

/-- A block that is neither free-listed nor in use, or the head of the free list, goes into use. -/
theorem AllocInv.take (h : AllocInv s free) {b head : ℕ} {rest : List ℕ}
    (hb : b < s.total) (hused : b ∉ s.allocated) (hle : b ≤ s.vol.sbb.sbbUsedBlocks)
    (hlinked : Linked (nextFree s.vol) head rest) (hnodup : rest.Nodup)
    (hsub : ∀ c ∈ rest, c ∈ free ∧ c ≠ b) (hwrap : s.vol.sbb.sbbUsedBlocks + 1 < 2 ^ 64) :
    AllocInv ⟨gxfsFlushSuperblock
      { s.vol with
        sbb := { s.vol.sbb with
          sbbFreeHead := head, sbbUsedBlocks := inc64 s.vol.sbb.sbbUsedBlocks }
        freeBlocks := dec64 s.vol.freeBlocks
        freeInodes := dec64 s.vol.freeInodes }, insert b s.allocated⟩ rest := by
  have hcard := card_sdiff_insert hb hused
  have hlt := h.freeBlocks_lt
  have hcount : s.vol.freeBlocks = _ := h.count
  constructor <;> try simp only [total, FreeCountExact, gxfsFlushSuperblock_sbb,
    gxfsFlushSuperblock_freeBlocks, gxfsFlushSuperblock_ioOk, inc64_of_lt hwrap]
  · exact linked_flush hlinked
  · exact hnodup
  · intro c hc
    obtain ⟨hfree, hne⟩ := hsub c hc
    obtain ⟨h₁, h₂, h₃⟩ := h.free_lt c hfree
    exact ⟨h₁, by omega, by simp [h₃, hne]⟩
  · intro c hc
    rcases Finset.mem_insert.1 hc with rfl | hc
    · exact ⟨hb, by omega⟩
    · exact ⟨(h.used_lt c hc).1, by have := (h.used_lt c hc).2; omega⟩
  · omega
  · exact h.total_lt
  · exact h.io
  · change dec64 s.vol.freeBlocks = (Finset.range s.total \ insert b s.allocated).card
    rw [dec64_of_pos (by omega) hlt, hcount]
    omega

theorem AllocInv.alloc (h : AllocInv s free) (hc : s.StepOk .alloc) :
    ∃ free', AllocInv (s.apply .alloc) free' := by
  obtain ⟨hmark, hwrap⟩ := hc rfl
  by_cases hh : s.vol.sbb.sbbFreeHead = 0
  · have hnil : free = [] := (hh ▸ h.linked).eq_nil
    subst hnil
    by_cases hfull : s.vol.sbb.sbbUsedBlocks = s.vol.sbb.sbbTotalBlocks
    · refine ⟨[], ?_⟩
      have hfail : gxfsAllocBlock s.vol = (0, s.vol) := by
        simp only [gxfsAllocBlock, if_pos hh, if_pos hfull]
      simpa only [AllocState.apply, hfail, if_true] using h
    · have hlt : s.vol.sbb.sbbUsedBlocks < s.total := by
        rcases hmark hh with hlt | ⟨heq, -⟩
        · exact hlt
        · exact absurd heq hfull
      refine ⟨[], ?_⟩
      have hpos := h.watermark_pos
      have hlinked : Linked (nextFree s.vol) s.vol.sbb.sbbFreeHead [] := h.linked
      have htake := h.take hlt
        (fun hmem => Nat.lt_irrefl _ (h.used_lt _ hmem).2) le_rfl hlinked List.nodup_nil
        (fun c hc => absurd hc List.not_mem_nil) hwrap
      simpa only [AllocState.apply, gxfsAllocBlock, if_pos hh, if_neg hfull,
        if_neg (Nat.ne_of_gt hpos)] using htake
  · obtain ⟨rest, rfl, hrest⟩ := h.linked.exists_cons hh
    obtain ⟨hlt, hbelow, hunused⟩ := h.free_lt _ List.mem_cons_self
    obtain ⟨hnotMem, hnodup⟩ := List.nodup_cons.1 h.nodup
    refine ⟨rest, ?_⟩
    have htake := h.take hlt hunused hbelow.le hrest hnodup
      (fun c hc => ⟨List.mem_cons_of_mem _ hc, fun e => hnotMem (e ▸ hc)⟩) hwrap
    simpa only [AllocState.apply, alloc_of_cons h hh, if_neg hh] using htake

/-- Blocks in use may be written freely: none of them is on the free list. -/
theorem linked_write (h : AllocInv s free) {b : ℕ} (hb : b ∈ s.allocated) (buf : Bytes) :
    Linked (nextFree { s.vol with disk := Function.update s.vol.disk b buf })
      s.vol.sbb.sbbFreeHead free := by
  refine h.linked.congr fun c hc => ?_
  have hne : c ≠ b := fun e => (h.free_lt c hc).2.2 (e ▸ hb)
  simp only [nextFree, Function.update_of_ne hne]

theorem AllocInv.write (h : AllocInv s free) {b : ℕ} {buf : Bytes} (hb : b ∈ s.allocated) :
    AllocInv (s.apply (.write b buf)) free := by
  have hio := h.io b (h.used_lt b hb).1
  simp only [AllocState.apply, gxfsWriteBlock, hio, if_true, Option.getD_some]
  exact { h with linked := linked_write h hb buf, count := h.count }

theorem AllocInv.release (h : AllocInv s free) {b : ℕ} {junk : Bytes} (hb : b ∈ s.allocated) :
    ∃ free', AllocInv (s.apply (.free b junk)) free' := by
  have hbt := (h.used_lt b hb).1
  have hbu := (h.used_lt b hb).2
  have hio := h.io b hbt
  have hcard := card_sdiff_erase hbt hb
  have hle := card_sdiff_le s.total (s.allocated.erase b)
  have htotal := h.total_lt
  have hcount : s.vol.freeBlocks = _ := h.count
  -- freeing block 0 loses the list: the null address cannot be an element of it
  obtain ⟨free', hlinked, hnodup, hsub⟩ : ∃ free',
      Linked (nextFree (gxfsFlushSuperblock
        { s.vol with
          sbb := { s.vol.sbb with sbbFreeHead := b }
          disk := Function.update s.vol.disk b (junk.setQuad 0 s.vol.sbb.sbbFreeHead) })) b free' ∧
      free'.Nodup ∧ ∀ c ∈ free', c = b ∨ c ∈ free := by
    by_cases hzero : b = 0
    · exact ⟨[], hzero, List.nodup_nil, fun c hc => absurd hc List.not_mem_nil⟩
    · refine ⟨b :: free, linked_flush ⟨rfl, hzero, ?_⟩, ?_, fun c hc => List.mem_cons.1 hc⟩
      · have hquad : nextFree { s.vol with
            sbb := { s.vol.sbb with sbbFreeHead := b }
            disk := Function.update s.vol.disk b (junk.setQuad 0 s.vol.sbb.sbbFreeHead) } b =
            s.vol.sbb.sbbFreeHead := by
          simp only [nextFree, Function.update_self, getQuad_setQuad_self]
          refine Nat.mod_eq_of_lt ?_
          cases free with
          | nil =>
            have hhead : s.vol.sbb.sbbFreeHead = 0 := h.linked
            omega
          | cons a l =>
            have hhead := h.linked.1
            have hlt := (h.free_lt a List.mem_cons_self).1
            omega
        rw [hquad]
        exact linked_write h hb _
      · exact List.nodup_cons.2 ⟨fun hmem => (h.free_lt b hmem).2.2 hb, h.nodup⟩
  refine ⟨free', ?_⟩
  constructor <;> try simp only [AllocState.apply, gxfsFreeBlock, gxfsWriteBlock, hio, if_true,
    Option.getD_some, total, FreeCountExact, gxfsFlushSuperblock_sbb,
    gxfsFlushSuperblock_freeBlocks, gxfsFlushSuperblock_ioOk]
  · exact hlinked
  · exact hnodup
  · intro c hc
    rcases hsub c hc with rfl | hc
    · exact ⟨hbt, hbu, Finset.notMem_erase c _⟩
    · obtain ⟨h₁, h₂, h₃⟩ := h.free_lt c hc
      exact ⟨h₁, h₂, fun hmem => h₃ (Finset.mem_of_mem_erase hmem)⟩
  · exact fun c hc => h.used_lt c (Finset.mem_of_mem_erase hc)
  · exact h.watermark_pos
  · exact h.total_lt
  · exact h.io
  · rw [inc64_of_lt (by omega), hcount]
    exact hcard.symm

theorem AllocInv.step {op : AllocOp} (h : AllocInv s free) (hop : s.Legal op) (hc : s.StepOk op) :
    ∃ free', AllocInv (s.apply op) free' := by
  cases op with
  | alloc => exact h.alloc hc
  | free b junk => exact h.release hop
  | write b buf => exact ⟨free, h.write hop⟩

/-- In a state of the invariant the next answer is right exactly when the watermark counts. -/
theorem AllocInv.answer_iff (h : AllocInv s free) : s.AllocAnswerRight ↔ s.WatermarkCounts := by
  have hpos := h.watermark_pos
  by_cases hh : s.vol.sbb.sbbFreeHead = 0
  · by_cases hfull : s.vol.sbb.sbbUsedBlocks = s.vol.sbb.sbbTotalBlocks
    · have hfail : gxfsAllocBlock s.vol = (0, s.vol) := by
        simp only [gxfsAllocBlock, if_pos hh, if_pos hfull]
      have hcount : s.vol.freeBlocks = 0 ↔ ∀ b < s.total, b ∈ s.allocated := by
        rw [show s.vol.freeBlocks = _ from h.count, Finset.card_eq_zero,
          Finset.sdiff_eq_empty_iff_subset]
        exact ⟨fun hs b hb => hs (Finset.mem_range.2 hb), fun ha b hb => ha b (Finset.mem_range.1 hb)⟩
      simp only [AllocAnswerRight, WatermarkCounts, hfail, hh, forall_const, ne_eq,
        not_true_eq_false, false_imp_iff, and_true, ← hcount]
      exact ⟨fun hz => Or.inr ⟨hfull, hz⟩, fun hor => hor.elim
        (fun hlt => absurd hfull (Nat.ne_of_lt hlt)) fun hz => hz.2⟩
    · have hans : (gxfsAllocBlock s.vol).1 = s.vol.sbb.sbbUsedBlocks := by
        simp only [gxfsAllocBlock, if_pos hh, if_neg hfull]
      simp only [AllocAnswerRight, WatermarkCounts, hans, hh, total, forall_const]
      constructor
      · rintro ⟨-, hlt⟩
        exact Or.inl (hlt (Nat.ne_of_gt hpos)).1
      · rintro (hlt | ⟨heq, -⟩)
        · exact ⟨fun hz => absurd hz (Nat.ne_of_gt hpos),
            fun _ => ⟨hlt, fun hmem => Nat.lt_irrefl _ (h.used_lt _ hmem).2⟩⟩
        · exact absurd heq hfull
  · obtain ⟨rest, rfl, -⟩ := h.linked.exists_cons hh
    obtain ⟨hlt, -, hunused⟩ := h.free_lt _ List.mem_cons_self
    refine iff_of_true ?_ fun hz => absurd hz hh
    simp only [AllocAnswerRight, alloc_of_cons h hh]
    exact ⟨fun hz => absurd hz hh, fun _ => ⟨hlt, hunused⟩⟩

end Step

/-- In every run whose allocations are made in states with `WatermarkCounts`, the free-block count
is exact in every state, and the next answer of the allocator is right exactly when the watermark
counts there too. -/
theorem gxfsAlloc_right_iff (s : AllocState) (h : allocSystem.ReachesBy StepOk s) :
    s.FreeCountExact ∧ (s.AllocAnswerRight ↔ s.WatermarkCounts) := by
  obtain ⟨free, hinv⟩ : ∃ free, AllocInv s free :=
    h.invariant (fun _ => AllocInv.init) fun s op t ⟨free, hs⟩ hc ht => ht.2 ▸ hs.step ht.1 hc
  exact ⟨hinv.count, hinv.answer_iff⟩

/-- The condition is met by the first steps of any run. -/
theorem gxfsAlloc_right_iff_formatted :
    let s : AllocState := ⟨gxfsOpenRoot (mkgxfsBody 0x1000000 0) 0 (fun _ _ => 0) fun _ => true,
      Finset.range 9⟩
    s.FreeCountExact ∧ (s.AllocAnswerRight ↔ s.WatermarkCounts) :=
  gxfsAlloc_right_iff _ (.init ⟨0x1000000, 0, 0, fun _ _ => 0, fun _ => true,
    le_rfl, by norm_num, fun _ _ => rfl, rfl⟩)

/-! ## A free block that is never handed out -/

/-- Every block up to the watermark `11 + n` except block 10 is in use. -/
structure SkippedTen (n : ℕ) (s : AllocState) : Prop where
  reachable : allocSystem.Reachable s
  freeHead : s.vol.sbb.sbbFreeHead = 0
  watermark : s.vol.sbb.sbbUsedBlocks = 11 + n
  totalBlocks : s.vol.sbb.sbbTotalBlocks = 3584
  unused : 10 ∉ s.allocated

/-- On a volume of 3584 blocks, block 9 is taken, freed and taken again: the watermark moves from
10 to 11. -/
theorem exists_skippedTen_zero : ∃ s, SkippedTen 0 s := by
  let s₀ : AllocState := ⟨gxfsOpenRoot (mkgxfsBody 0x1000000 0) 0 (fun _ _ => 0) fun _ => true,
    Finset.range 9⟩
  have hinit : allocSystem.Reachable s₀ := .init ⟨0x1000000, 0, 0, fun _ _ => 0, fun _ => true,
    le_rfl, by norm_num, fun _ _ => rfl, rfl⟩
  let s₁ := s₀.apply .alloc
  let s₂ := s₁.apply (.free 9 fun _ => 0)
  have hmem : 9 ∈ s₁.allocated := by decide
  have h₁ : allocSystem.Reachable s₁ := hinit.step (a := .alloc) trivial ⟨trivial, rfl⟩
  have h₂ : allocSystem.Reachable s₂ := h₁.step (a := .free 9 fun _ => 0) trivial ⟨hmem, rfl⟩
  have h₃ : allocSystem.Reachable (s₂.apply .alloc) :=
    h₂.step (a := .alloc) trivial ⟨trivial, rfl⟩
  refine ⟨s₂.apply .alloc, h₃, ?_, ?_, ?_, ?_⟩ <;> decide

theorem SkippedTen.next {n : ℕ} {s : AllocState} (h : SkippedTen n s) (hn : n < 3573) :
    SkippedTen (n + 1) (s.apply .alloc) := by
  have hU := h.watermark
  have hT := h.totalBlocks
  have halloc : gxfsAllocBlock s.vol = (11 + n, gxfsFlushSuperblock
      { s.vol with
        sbb := { s.vol.sbb with sbbUsedBlocks := inc64 s.vol.sbb.sbbUsedBlocks }
        freeBlocks := dec64 s.vol.freeBlocks
        freeInodes := dec64 s.vol.freeInodes }) := by
    rw [← hU]
    simp only [gxfsAllocBlock, if_pos h.freeHead, if_neg (show ¬ s.vol.sbb.sbbUsedBlocks =
      s.vol.sbb.sbbTotalBlocks by omega)]
  constructor
  · exact h.reachable.step (a := .alloc) trivial ⟨trivial, rfl⟩
  all_goals simp only [AllocState.apply, halloc, gxfsFlushSuperblock_sbb,
    inc64_of_lt (show s.vol.sbb.sbbUsedBlocks + 1 < 2 ^ 64 by omega)]
  · exact h.freeHead
  · omega
  · exact hT
  · rw [if_neg (by omega), Finset.mem_insert]
    exact fun hor => hor.elim (fun heq => by omega) h.unused

theorem exists_skippedTen (n : ℕ) (hn : n ≤ 3573) : ∃ s, SkippedTen n s := by
  induction n with
  | zero => exact exists_skippedTen_zero
  | succ n ih =>
    obtain ⟨s, hs⟩ := ih (by omega)
    exact ⟨_, hs.next (by omega)⟩

/-- When the watermark has reached the end of the device the allocator answers `0` although block
10 is free. -/
theorem gxfsAlloc_not_right :
    ¬ ∀ s, allocSystem.Reachable s → s.FreeCountExact ∧ s.AllocAnswerRight := by
  intro hright
  obtain ⟨s, hs⟩ := exists_skippedTen 3573 le_rfl
  have hfail : gxfsAllocBlock s.vol = (0, s.vol) := by
    simp only [gxfsAllocBlock, if_pos hs.freeHead, hs.watermark, hs.totalBlocks, if_true]
  have hlt : 10 < s.total := by
    rw [AllocState.total, hs.totalBlocks]
    norm_num
  exact hs.unused ((hright s hs.reachable).2.1 (by rw [hfail]) 10 hlt)

end Glidix.Gxfs
