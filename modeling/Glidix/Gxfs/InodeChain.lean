import Glidix.Gxfs.Alloc
import Glidix.Gxfs.Inode

/-!
# Writing and reading block chains

What an `InodeWriter` has taken in is what a reader of its chain would find if the block buffer
were on the disk already (`Writing`); the blocks it takes, from the old chain or from the allocator,
are distinct and no longer free (`Owned`).  What an `InodeReader` has still to give is the rest of
its block and the payloads of the blocks linked after it (`Reading`).
-/

namespace Glidix.Gxfs

open Bytes

/-- The link at the start of a block of a chain. -/
def blockNext (v : Volume) (b : ℕ) : ℕ := (v.disk b).getQuad 0

def payload (v : Volume) (b : ℕ) : List UInt8 := (v.disk b).slice 8 4088

@[simp] theorem length_payload (v : Volume) (b : ℕ) : (payload v b).length = 4088 :=
  length_slice ..

/-- The blocks of a chain and the bytes in their payloads. -/
structure InodeChain (v : Volume) (ino : ℕ) (blocks : List ℕ) (data : List UInt8) : Prop where
  linked : Linked (blockNext v) ino blocks
  data : blocks.flatMap (payload v) = data

/-- Only the blocks of a chain matter. -/
theorem InodeChain.congr {v v' : Volume} {ino : ℕ} {blocks : List ℕ} {data : List UInt8}
    (h : InodeChain v ino blocks data) (hb : ∀ b ∈ blocks, v'.disk b = v.disk b) :
    InodeChain v' ino blocks data where
  linked := h.linked.congr fun b hm => by rw [blockNext, blockNext, hb b hm]
  data := (List.flatMap_congr fun b hm => by rw [payload, payload, hb b hm]).trans h.data

/-! ## Blocks in use -/

/-- The blocks `used` are in use: none of them is on the free list or above the watermark.  Block
I/O succeeds.  A watermark of `0` has wrapped around. -/
structure Owned (v : Volume) (free used : List ℕ) : Prop where
  linked : Linked (nextFree v) v.sbb.sbbFreeHead free
  nodup : free.Nodup
  free_lt : ∀ b ∈ free, b < v.sbb.sbbUsedBlocks ∧ b ∉ used
  used_lt : v.sbb.sbbUsedBlocks = 0 ∨ ∀ b ∈ used, b < v.sbb.sbbUsedBlocks
  used_ne : ∀ b ∈ used, b ≠ 0 ∧ b < 2 ^ 64
  counter : v.sbb.sbbUsedBlocks + free.length < 2 ^ 64
  io : ∀ b, v.ioOk b = true

section Owned

variable {v : Volume} {free used used' : List ℕ} {b : ℕ}

theorem Owned.mono (h : Owned v free used) (hu : ∀ b ∈ used', b ∈ used) :
    Owned v free used' where
  linked := h.linked
  nodup := h.nodup
  free_lt b hb := ⟨(h.free_lt b hb).1, fun hm => (h.free_lt b hb).2 (hu b hm)⟩
  used_lt := h.used_lt.imp_right fun hlt b hb => hlt b (hu b hb)
  used_ne b hb := h.used_ne b (hu b hb)
  counter := h.counter
  io := h.io

/-- The allocator keeps the blocks in use apart in every run, as long as its counter is in range. -/
theorem AllocInv.owned {s : AllocState} (h : AllocInv s free) (hio : ∀ b, s.vol.ioOk b = true)
    (hlt : s.vol.sbb.sbbUsedBlocks < 2 ^ 63) (hused : ∀ b ∈ used, b ∈ s.allocated ∧ b ≠ 0) :
    Owned s.vol free used where
  linked := h.linked
  nodup := h.nodup
  free_lt b hb := ⟨(h.free_lt b hb).2.1, fun hm => (h.free_lt b hb).2.2 (hused b hm).1⟩
  used_lt := Or.inr fun b hb => (h.used_lt b (hused b hb).1).2
  used_ne b hb := ⟨(hused b hb).2, by
    have := (h.used_lt b (hused b hb).1).2
    omega⟩
  counter := by
    have hsub : free.toFinset ⊆ Finset.range s.total := fun b hb =>
      Finset.mem_range.2 (h.free_lt b (List.mem_toFinset.1 hb)).1
    have hle := Finset.card_le_card hsub
    rw [List.toFinset_card_of_nodup h.nodup, Finset.card_range] at hle
    have := h.total_lt
    omega
  io := hio

/-- Blocks in use may be written. -/
theorem Owned.write (h : Owned v free used) (hb : b ∈ used) (buf : Bytes) :
    Owned { v with disk := Function.update v.disk b buf } free used :=
  { h with
    linked := h.linked.congr fun c hc => by
      have hne : c ≠ b := fun e => (h.free_lt c hc).2 (e ▸ hb)
      simp only [nextFree, Function.update_of_ne hne] }

/-- A block that is taken from the free list or from the watermark goes into use. -/
theorem Owned.take (h : Owned v free used) {head fb fi : ℕ} {rest : List ℕ}
    (hlinked : Linked (nextFree v) head rest) (hnodup : rest.Nodup)
    (hsub : ∀ c ∈ rest, c ∈ free ∧ c ≠ b) (hlen : v.sbb.sbbUsedBlocks + rest.length + 1 ≤ 2 ^ 64)
    (hwrap : rest ≠ [] → v.sbb.sbbUsedBlocks + rest.length + 1 < 2 ^ 64)
    (hb : b ≠ 0) (hle : b ≤ v.sbb.sbbUsedBlocks) :
    Owned (gxfsFlushSuperblock
      { v with
        sbb := { v.sbb with
          sbbFreeHead := head, sbbUsedBlocks := inc64 v.sbb.sbbUsedBlocks }
        freeBlocks := fb
        freeInodes := fi }) rest (b :: used) := by
  have hcounter := h.counter
  constructor <;> try simp only [gxfsFlushSuperblock_sbb, gxfsFlushSuperblock_ioOk, inc64]
  · exact linked_flush hlinked
  · exact hnodup
  · intro c hc
    obtain ⟨hfree, hne⟩ := hsub c hc
    obtain ⟨hlt, hunused⟩ := h.free_lt c hfree
    have := hwrap (List.ne_nil_of_mem hc)
    have := List.length_pos_of_mem hc
    exact ⟨by omega, by simp [hne, hunused]⟩
  · rcases h.used_lt with hzero | hlt
    · exact absurd (Nat.le_zero.1 (hzero ▸ hle)) hb
    · by_cases hlast : v.sbb.sbbUsedBlocks + 1 = 2 ^ 64
      · exact Or.inl (by omega)
      · refine Or.inr fun c hc => ?_
        rcases List.mem_cons.1 hc with rfl | hc
        · omega
        · have := hlt c hc
          omega
  · intro c hc
    rcases List.mem_cons.1 hc with rfl | hc
    · exact ⟨hb, by omega⟩
    · exact h.used_ne c hc
  · cases rest with
    | nil => simp only [List.length_nil]; omega
    | cons d rest =>
      have := hwrap (List.cons_ne_nil d rest)
      omega
  · exact h.io

/-- The allocator answers a block that is not in use, and changes no block but the superblock. -/
theorem Owned.alloc (h : Owned v free used) (hne : (gxfsAllocBlock v).1 ≠ 0) :
    (gxfsAllocBlock v).1 ∉ used ∧ (∀ c ≠ 0, (gxfsAllocBlock v).2.disk c = v.disk c) ∧
      ∃ free', Owned (gxfsAllocBlock v).2 free' ((gxfsAllocBlock v).1 :: used) := by
  have hcounter := h.counter
  by_cases hh : v.sbb.sbbFreeHead = 0
  · obtain rfl : free = [] := (hh ▸ h.linked).eq_nil
    simp only [gxfsAllocBlock, if_pos hh] at hne ⊢
    by_cases hfull : v.sbb.sbbUsedBlocks = v.sbb.sbbTotalBlocks
    · rw [if_pos hfull] at hne
      exact absurd rfl hne
    · rw [if_neg hfull] at hne ⊢
      refine ⟨fun hm => ?_, fun c hc => gxfsFlushSuperblock_disk _ hc, [], ?_⟩
      · rcases h.used_lt with hzero | hlt
        · exact hne hzero
        · exact Nat.lt_irrefl _ (hlt _ hm)
      · exact h.take h.linked List.nodup_nil (fun c hc => absurd hc List.not_mem_nil)
          (by simp only [List.length_nil] at hcounter ⊢; omega) (fun hn => absurd rfl hn) hne le_rfl
  · obtain ⟨rest, rfl, hrest⟩ := h.linked.exists_cons hh
    obtain ⟨hlt, hunused⟩ := h.free_lt _ List.mem_cons_self
    obtain ⟨hnotMem, hnodup⟩ := List.nodup_cons.1 h.nodup
    rw [List.length_cons] at hcounter
    simp only [gxfsAllocBlock, if_neg hh, gxfsReadBlock, h.io, if_true]
    refine ⟨hunused, fun c hc => gxfsFlushSuperblock_disk _ hc, rest, ?_⟩
    exact h.take hrest hnodup (fun c hc => ⟨List.mem_cons_of_mem _ hc, fun e => hnotMem (e ▸ hc)⟩)
      (by omega) (fun _ => by omega) hh hlt.le

/-- Freeing a block changes no other block but the superblock. -/
theorem gxfsFreeBlock_disk (v : Volume) (junk : Bytes) {c : ℕ} (hc : c ≠ b) (hzero : c ≠ 0) :
    (gxfsFreeBlock v b junk).disk c = v.disk c := by
  simp only [gxfsFreeBlock]
  rw [gxfsFlushSuperblock_disk _ hzero]
  unfold gxfsWriteBlock
  split
  · exact Function.update_of_ne hc _ _
  · rfl

@[simp] theorem gxfsFreeBlock_ioOk (v : Volume) (b : ℕ) (junk : Bytes) :
    (gxfsFreeBlock v b junk).ioOk = v.ioOk := by
  simp only [gxfsFreeBlock, gxfsFlushSuperblock_ioOk, gxfsWriteBlock]
  split <;> rfl

@[simp] theorem gxfsFreeBlock_rdonly (v : Volume) (b : ℕ) (junk : Bytes) :
    (gxfsFreeBlock v b junk).rdonly = v.rdonly := by
  simp only [gxfsFreeBlock, gxfsFlushSuperblock_rdonly, gxfsWriteBlock]
  split <;> rfl

theorem gxfsAllocBlock_rdonly (v : Volume) : (gxfsAllocBlock v).2.rdonly = v.rdonly := by
  unfold gxfsAllocBlock
  split
  · split
    · rfl
    · exact gxfsFlushSuperblock_rdonly _
  · split
    · rfl
    · exact gxfsFlushSuperblock_rdonly _

theorem foldl_gxfsFreeBlock (v : Volume) (junk : ℕ → Bytes) (l : List ℕ) :
    let v' := l.foldl (fun v b => gxfsFreeBlock v b (junk b)) v
    (∀ c ≠ 0, c ∉ l → v'.disk c = v.disk c) ∧ v'.ioOk = v.ioOk ∧ v'.rdonly = v.rdonly := by
  induction l generalizing v with
  | nil => exact ⟨fun _ _ _ => rfl, rfl, rfl⟩
  | cons b l ih =>
    obtain ⟨hdisk, hio, hrd⟩ := ih (gxfsFreeBlock v b (junk b))
    refine ⟨fun c hc hm => ?_, hio.trans (by simp), hrd.trans (by simp)⟩
    rw [List.mem_cons, not_or] at hm
    exact (hdisk c hc hm.2).trans (gxfsFreeBlock_disk v _ hm.1 hc)

end Owned

/-! ## The writer -/

/-- The volume with the block buffer written back. -/
def InodeWriter.view (w : InodeWriter) : Volume :=
  { w.vol with disk := Function.update w.vol.disk w.blockno w.blockbuf }

/-- The writer has taken in `data`. -/
structure Writing (w : InodeWriter) (ino : ℕ) (data : List UInt8) : Prop where
  chain : InodeChain w.view ino w.outBlocks (data ++ List.replicate (4096 - w.writepos) 0)
  last : ∃ full, w.outBlocks = full ++ [w.blockno]
  nodup : (w.outBlocks ++ w.blockScanner).Nodup
  owned : ∃ free, Owned w.vol free (w.outBlocks ++ w.blockScanner)
  pos : 8 ≤ w.writepos ∧ w.writepos ≤ 4096
  clear : ∀ o, o < 8 ∨ w.writepos ≤ o → w.blockbuf o = 0

section Writer

variable {w w' : InodeWriter} {ino n : ℕ} {data chunk : List UInt8}

theorem disk_view_self (w : InodeWriter) : w.view.disk w.blockno = w.blockbuf :=
  Function.update_self ..

theorem payload_view_self (w : InodeWriter) :
    payload w.view w.blockno = w.blockbuf.slice 8 4088 := by
  rw [payload, disk_view_self]

theorem disk_view_ne {b : ℕ} (hb : b ≠ w.blockno) : w.view.disk b = w.vol.disk b :=
  Function.update_of_ne hb _ _

theorem Writing.blockno_mem (h : Writing w ino data) : w.blockno ∈ w.outBlocks := by
  obtain ⟨full, hfull⟩ := h.last
  simp [hfull]

theorem Writing.full_nodup {full : List ℕ} (h : Writing w ino data)
    (hfull : w.outBlocks = full ++ [w.blockno]) : w.blockno ∉ full ∧ full.Nodup := by
  have hnodup := (List.nodup_append.1 h.nodup).1
  rw [hfull, List.nodup_append] at hnodup
  exact ⟨fun hm => hnodup.2.2 _ hm _ List.mem_cons_self rfl, hnodup.1⟩

/-- The data is in the payloads of the full blocks and in the written part of the buffer. -/
theorem Writing.data_eq {full : List ℕ} (h : Writing w ino data)
    (hfull : w.outBlocks = full ++ [w.blockno]) :
    full.flatMap (payload w.vol) ++ w.blockbuf.slice 8 (w.writepos - 8) = data := by
  have hdata := h.chain.data
  obtain ⟨h8, h4096⟩ := h.pos
  have hzeros : w.blockbuf.slice w.writepos (4096 - w.writepos) =
      List.replicate (4096 - w.writepos) 0 :=
    slice_eq_replicate fun o ho _ => h.clear o (Or.inr ho)
  have hlast : payload w.view w.blockno = w.blockbuf.slice 8 (w.writepos - 8) ++
      List.replicate (4096 - w.writepos) 0 := by
    have hsplit := slice_add w.blockbuf 8 (w.writepos - 8) (4096 - w.writepos)
    rw [show w.writepos - 8 + (4096 - w.writepos) = 4088 by omega,
      show 8 + (w.writepos - 8) = w.writepos by omega, hzeros] at hsplit
    rw [payload_view_self, hsplit]
  have hprev : full.flatMap (payload w.view) = full.flatMap (payload w.vol) := by
    refine List.flatMap_congr fun b hb => ?_
    have hne : b ≠ w.blockno := fun e => (h.full_nodup hfull).1 (e ▸ hb)
    rw [payload, payload, disk_view_ne hne]
  rw [hfull, List.flatMap_append, List.flatMap_singleton, hlast, hprev, ← List.append_assoc] at hdata
  exact List.append_cancel_right hdata

/-- Bytes that fit into the buffer are taken in. -/
theorem Writing.put (h : Writing w ino data) (hfit : w.writepos + chunk.length ≤ 4096) :
    Writing (w.put chunk) ino (data ++ chunk) := by
  obtain ⟨full, hfull⟩ := h.last
  obtain ⟨h8, h4096⟩ := h.pos
  have hclear : ∀ o, o < 8 ∨ w.writepos + chunk.length ≤ o →
      w.blockbuf.setRange w.writepos chunk o = 0 := fun o ho => by
    rw [setRange_of_notMem (by omega), h.clear o (by omega)]
  refine ⟨⟨h.chain.linked.congr fun b hb => ?_, ?_⟩, ⟨full, hfull⟩, h.nodup, h.owned,
    ⟨by simp only [InodeWriter.put]; omega, hfit⟩, hclear⟩
  · by_cases hb' : b = w.blockno
    · subst hb'
      simp only [blockNext, InodeWriter.view, InodeWriter.put, Function.update_self]
      exact leNat_congr fun k hk => by
        rw [setRange_of_notMem (by omega)]
    · simp only [blockNext, InodeWriter.view, InodeWriter.put, Function.update_of_ne hb']
  · have hprev : full.flatMap (payload (w.put chunk).view) = full.flatMap (payload w.vol) := by
      refine List.flatMap_congr fun b hb => ?_
      have hne : b ≠ (w.put chunk).blockno := fun e => (h.full_nodup hfull).1 (e ▸ hb)
      rw [payload, payload, disk_view_ne hne]
      rfl
    have hlast : payload (w.put chunk).view w.blockno =
        w.blockbuf.slice 8 (w.writepos - 8) ++ (chunk ++
          List.replicate (4096 - (w.writepos + chunk.length)) 0) := by
      have hsplit := slice_add (w.blockbuf.setRange w.writepos chunk) 8 (w.writepos - 8)
        (chunk.length + (4096 - (w.writepos + chunk.length)))
      have hbefore : (w.blockbuf.setRange w.writepos chunk).slice 8 (w.writepos - 8) =
          w.blockbuf.slice 8 (w.writepos - 8) := slice_setRange_before (by omega)
      rw [show w.writepos - 8 + (chunk.length + (4096 - (w.writepos + chunk.length))) = 4088
        by omega, show 8 + (w.writepos - 8) = w.writepos by omega, slice_add, slice_setRange_self,
        hbefore, slice_eq_replicate fun o ho _ => hclear o (Or.inr ho)] at hsplit
      rw [← hsplit]
      exact payload_view_self (w.put chunk)
    show w.outBlocks.flatMap _ = _
    rw [hfull, List.flatMap_append, List.flatMap_singleton, hprev, hlast, ← h.data_eq hfull]
    simp only [List.append_assoc, InodeWriter.put]

/-- The block buffer is full, and the chain goes on in a block that is not in use otherwise. -/
theorem Writing.startBlock (h : Writing w ino data) (hfullbuf : w.writepos = 4096)
    (hnodup : (w.outBlocks ++ n :: w.blockScanner).Nodup)
    (howned : ∃ free, Owned w.vol free (w.outBlocks ++ n :: w.blockScanner)) :
    Writing (w.startBlock n) ino data := by
  obtain ⟨free, howned⟩ := howned
  obtain ⟨hn, hn64⟩ := howned.used_ne n (by simp)
  have hout : w.outBlocks.Nodup := (List.nodup_append.1 hnodup).1
  have hnew : n ∉ w.outBlocks := fun hm =>
    (List.nodup_append.1 hnodup).2.2 _ hm _ List.mem_cons_self rfl
  have hvol : (w.startBlock n).vol = { w.vol with
      disk := Function.update w.vol.disk w.blockno (w.blockbuf.setQuad 0 n) } := by
    simp only [InodeWriter.startBlock, gxfsWriteBlock, howned.io, if_true, Option.getD_some]
  have hview : (w.startBlock n).view.disk = Function.update
      (Function.update w.vol.disk w.blockno (w.blockbuf.setQuad 0 n)) n fun _ => 0 := by
    rw [InodeWriter.view, hvol]
    rfl
  have hlastBlock : w.outBlocks.getLast? = some w.blockno := by
    obtain ⟨full, hfull⟩ := h.last
    rw [hfull, List.getLast?_concat]
  have hne : w.outBlocks ≠ [] := List.ne_nil_of_mem h.blockno_mem
  have hold : ∀ b ∈ w.outBlocks, (w.startBlock n).view.disk b =
      if b = w.blockno then w.blockbuf.setQuad 0 n else w.vol.disk b := fun b hb => by
    have hbn : b ≠ n := fun e => hnew (e ▸ hb)
    rw [hview, Function.update_of_ne hbn, Function.update_apply]
  refine ⟨⟨?_, ?_⟩, ⟨w.outBlocks, rfl⟩, ?_, ⟨free, ?_⟩, ⟨le_rfl, by simp [InodeWriter.startBlock]⟩,
    fun _ _ => rfl⟩
  · have hlinked : Linked (blockNext w.view) ino (w.outBlocks ++ []) := by
      rw [List.append_nil]
      exact h.chain.linked
    have hins : Linked (blockNext (w.startBlock n).view) _ (w.outBlocks ++ [n]) :=
      hlinked.insert (by rw [List.append_nil]; exact hout) hn
        (by rw [blockNext, hview, Function.update_self]; exact getQuad_zero 0) fun b hb => by
          rw [List.append_nil] at hb
          rw [blockNext, hold b hb, hlastBlock]
          by_cases hb' : b = w.blockno
          · rw [if_pos hb', if_pos (by rw [hb']), getQuad_setQuad_self, Nat.mod_eq_of_lt hn64]
          · rw [if_neg hb', if_neg fun e => hb' (Option.some.inj e).symm, blockNext,
              disk_view_ne hb']
    rwa [if_neg hne] at hins
  · have hprev : w.outBlocks.flatMap (payload (w.startBlock n).view) =
        w.outBlocks.flatMap (payload w.view) := by
      refine List.flatMap_congr fun b hb => ?_
      rw [payload, hold b hb]
      by_cases hb' : b = w.blockno
      · rw [if_pos hb', hb', payload_view_self]
        exact slice_congr fun o ho _ => if_neg (by omega)
      · rw [if_neg hb', payload, disk_view_ne hb']
    have hlast : payload (w.startBlock n).view n = List.replicate 4088 0 :=
      (payload_view_self (w.startBlock n)).trans (slice_eq_replicate fun _ _ _ => rfl)
    show (w.outBlocks ++ [n]).flatMap _ = data ++ List.replicate (4096 - 8) 0
    rw [List.flatMap_append, hprev, h.chain.data, List.flatMap_singleton, hlast, hfullbuf,
      Nat.sub_self, List.replicate_zero, List.append_nil]
  · rw [show (w.startBlock n).outBlocks ++ (w.startBlock n).blockScanner =
      w.outBlocks ++ n :: w.blockScanner by simp [InodeWriter.startBlock]]
    exact hnodup
  · rw [show (w.startBlock n).outBlocks ++ (w.startBlock n).blockScanner =
      w.outBlocks ++ n :: w.blockScanner by simp [InodeWriter.startBlock], hvol]
    exact howned.write (List.mem_append_left _ h.blockno_mem) _

/-- The block that the writer goes on in is not in use otherwise. -/
theorem Writing.takeBlock (h : Writing w ino data) (ht : w.takeBlock = some (n, w')) :
    Writing w' ino data ∧ w'.writepos = w.writepos ∧ w'.vol.rdonly = w.vol.rdonly ∧
      (w'.outBlocks ++ n :: w'.blockScanner).Nodup ∧
      ∃ free, Owned w'.vol free (w'.outBlocks ++ n :: w'.blockScanner) := by
  obtain ⟨free, howned⟩ := h.owned
  have hnodup := h.nodup
  unfold InodeWriter.takeBlock at ht
  cases hscan : w.blockScanner with
  | cons b scanner =>
    rw [hscan] at ht howned hnodup
    obtain ⟨rfl, rfl⟩ := by simpa using ht
    have hsub : (w.outBlocks ++ scanner).Sublist (w.outBlocks ++ b :: scanner) :=
      (List.sublist_cons_self b scanner).append_left _
    exact ⟨⟨h.chain, h.last, hnodup.sublist hsub, ⟨free, howned.mono fun c hc => hsub.subset hc⟩,
      h.pos, h.clear⟩, rfl, rfl, hnodup, free, howned⟩
  | nil =>
    simp only [hscan] at ht
    rw [hscan, List.append_nil] at howned hnodup
    by_cases hzero : (gxfsAllocBlock w.vol).1 = 0
    · rw [if_pos hzero] at ht
      cases ht
    · rw [if_neg hzero] at ht
      obtain ⟨rfl, rfl⟩ := by simpa using ht
      obtain ⟨hnew, hdisk, free', howned'⟩ := howned.alloc hzero
      have hchain : InodeChain ({ w with vol := (gxfsAllocBlock w.vol).2 } : InodeWriter).view ino
          w.outBlocks (data ++ List.replicate (4096 - w.writepos) 0) :=
        h.chain.congr fun b hb => by
          by_cases hb' : b = w.blockno
          · simp only [InodeWriter.view, hb', Function.update_self]
          · rw [disk_view_ne hb', ← hdisk b (howned.used_ne b hb).1]
            exact disk_view_ne hb'
      refine ⟨⟨hchain, h.last, by simpa [hscan] using hnodup, ⟨free', ?_⟩, h.pos, h.clear⟩, rfl,
        gxfsAllocBlock_rdonly w.vol, ?_, free', ?_⟩
      · exact howned'.mono fun c hc => List.mem_cons_of_mem _ (by simpa [hscan] using hc)
      · exact List.nodup_append.2 ⟨hnodup, List.nodup_singleton _, fun c hc d hd e =>
          hnew (List.mem_singleton.1 hd ▸ e ▸ hc)⟩
      · exact howned'.mono fun c hc => by
          simp only [List.mem_append, List.mem_cons, List.not_mem_nil, or_false] at hc ⊢
          exact hc.symm

/-- There is room in the buffer after another block has been started. -/
theorem Writing.makeRoom (h : Writing w ino data) (hm : w.makeRoom = some w') :
    Writing w' ino data ∧ w'.writepos < 4096 ∧ w'.vol.rdonly = w.vol.rdonly := by
  unfold InodeWriter.makeRoom at hm
  by_cases hfull : w.writepos = 4096
  · rw [if_pos hfull] at hm
    obtain ⟨⟨n, w₀⟩, ht, rfl⟩ := Option.map_eq_some_iff.1 hm
    obtain ⟨h₀, hpos, hrd, hnodup, howned⟩ := h.takeBlock ht
    refine ⟨h₀.startBlock (hpos.trans hfull) hnodup howned, by simp [InodeWriter.startBlock], ?_⟩
    rw [← hrd]
    simp only [InodeWriter.startBlock, gxfsWriteBlock]
    split <;> rfl
  · rw [if_neg hfull] at hm
    obtain rfl := Option.some.inj hm
    exact ⟨h, lt_of_le_of_ne h.pos.2 hfull, rfl⟩

/-- A round takes in a part of the bytes. -/
theorem writeInodeChunks_spec {rounds : ℕ} (hrounds : chunk.length ≤ rounds)
    (h : Writing w ino data) (hw : writeInodeChunks rounds w chunk = some w') :
    Writing w' ino (data ++ chunk) ∧ (8 < w.writepos ∨ chunk ≠ [] → 8 < w'.writepos) ∧
      w'.vol.rdonly = w.vol.rdonly := by
  induction rounds generalizing w data chunk with
  | zero =>
    obtain rfl : chunk = [] := List.length_eq_zero_iff.1 (Nat.le_zero.1 hrounds)
    cases hw
    rw [List.append_nil]
    exact ⟨h, fun hp => hp.resolve_right fun hn => hn rfl, rfl⟩
  | succ rounds ih =>
    unfold writeInodeChunks at hw
    by_cases hnil : chunk = []
    · rw [if_pos hnil] at hw
      cases hw
      rw [hnil, List.append_nil]
      exact ⟨h, fun hp => hp.resolve_right fun hn => hn rfl, rfl⟩
    · rw [if_neg hnil] at hw
      obtain ⟨w₁, hw₁, hw⟩ := Option.bind_eq_some_iff.1 hw
      obtain ⟨h₁, hlt, hrd⟩ := h.makeRoom hw₁
      have hchunk : 0 < chunk.length := List.length_pos_of_ne_nil hnil
      set now := min chunk.length (4096 - w₁.writepos) with hnow
      have hput : Writing (w₁.put (chunk.take now)) ino (data ++ chunk.take now) :=
        h₁.put (by rw [List.length_take]; omega)
      obtain ⟨hout, hpos, hrd'⟩ := ih (by rw [List.length_drop]; omega) hput hw
      rw [List.append_assoc, List.take_append_drop] at hout
      refine ⟨hout, fun _ => hpos (Or.inl ?_), hrd'.trans hrd⟩
      have := h₁.pos.1
      simp only [InodeWriter.put, List.length_take]
      omega

/-- The records of an inode are taken in one after the other. -/
theorem foldlM_gxfsWriteInodeRecord {records : List (List UInt8)} (h : Writing w ino data)
    (hw : records.foldlM gxfsWriteInodeRecord w = some w') :
    Writing w' ino (data ++ records.flatten) ∧
      (8 < w.writepos ∨ records.flatten ≠ [] → 8 < w'.writepos) ∧
      w'.vol.rdonly = w.vol.rdonly := by
  induction records generalizing w data with
  | nil =>
    cases hw
    rw [List.flatten_nil, List.append_nil]
    exact ⟨h, fun hp => hp.resolve_right fun hn => hn rfl, rfl⟩
  | cons record records ih =>
    rw [List.foldlM_cons] at hw
    obtain ⟨w₁, hw₁, hw⟩ := Option.bind_eq_some_iff.1 hw
    obtain ⟨h₁, hpos₁, hrd₁⟩ := writeInodeChunks_spec le_rfl h hw₁
    obtain ⟨h₂, hpos₂, hrd₂⟩ := ih h₁ hw
    rw [List.flatten_cons, ← List.append_assoc]
    refine ⟨h₂, fun hp => hpos₂ ?_, hrd₂.trans hrd₁⟩
    by_cases hnil : record = []
    · subst hnil
      exact hp.imp_left fun hp => hpos₁ (Or.inl hp)
    · exact Or.inl (hpos₁ (Or.inr hnil))

end Writer

/-- The writer at the start of an inode. -/
theorem Writing.start {v : Volume} {free : List ℕ} {ino : ℕ} {rest : List ℕ}
    (howned : Owned v free (ino :: rest)) (hnodup : (ino :: rest).Nodup) :
    Writing ⟨v, rest, [ino], fun _ => 0, 8, ino⟩ ino [] := by
  have hne := (howned.used_ne ino List.mem_cons_self).1
  refine ⟨⟨⟨rfl, hne, ?_⟩, ?_⟩, ⟨[], rfl⟩, hnodup, ⟨free, howned⟩, ⟨le_rfl, by simp⟩,
    fun _ _ => rfl⟩
  · exact (congrArg (getQuad · 0) (disk_view_self ⟨v, rest, [ino], fun _ => 0, 8, ino⟩)).trans
      (getQuad_zero 0)
  · rw [List.flatMap_singleton, List.nil_append]
    exact (payload_view_self ⟨v, rest, [ino], fun _ => 0, 8, ino⟩).trans
      (slice_eq_replicate fun _ _ _ => rfl)

/-- Flushing an inode leaves its records in the chain of its blocks, and less than a block of zeros
after them. -/
theorem gxfsFlushInode_spec {v v' : Volume} {inode inode' : Inode} {junk : ℕ → Bytes}
    {free rest : List ℕ} (hrd : v.rdonly = false) (hblocks : inode.blocks = inode.ino.toNat :: rest)
    (hnodup : inode.blocks.Nodup) (howned : Owned v free inode.blocks)
    (hf : gxfsFlushInode v inode junk = some (v', inode')) :
    inode' = { inode with blocks := inode'.blocks } ∧ (∀ b, v'.ioOk b = true) ∧
      v'.rdonly = false ∧ ∃ pad, pad < 4088 ∧ InodeChain v' inode.ino.toNat inode'.blocks
        ((inodeRecords inode).flatten ++ List.replicate pad 0) := by
  rw [hblocks] at howned hnodup
  rw [gxfsFlushInode, if_neg (by simp [hrd]), hblocks, List.drop_one, List.tail_cons] at hf
  obtain ⟨w, hw, hf⟩ := Option.bind_eq_some_iff.1 hf
  obtain ⟨rfl, rfl⟩ := by simpa using hf
  obtain ⟨hout, hpos, hrd'⟩ := foldlM_gxfsWriteInodeRecord (Writing.start howned hnodup) hw
  rw [List.nil_append] at hout
  obtain ⟨free', howned'⟩ := hout.owned
  obtain ⟨hdisk, hio, hrd''⟩ := foldl_gxfsFreeBlock w.vol junk w.blockScanner
  simp only [gxfsWriteBlock, hio, howned'.io, if_true, Option.getD_some, implies_true, true_and]
  refine ⟨hrd''.trans (hrd'.trans hrd), 4096 - w.writepos, ?_, hout.chain.congr fun b hb => ?_⟩
  · have hne : (inodeRecords inode).flatten ≠ [] := by
      simp [inodeRecords, attrRecord, leBytes]
    have := hpos (Or.inr hne)
    omega
  · by_cases hb' : b = w.blockno
    · simp only [InodeWriter.view, hb', Function.update_self]
    · rw [disk_view_ne hb']
      refine (Function.update_of_ne hb' _ _).trans (hdisk b (howned'.used_ne b (List.mem_append_left _ hb)).1
        fun hm => ?_)
      exact (List.nodup_append.1 hout.nodup).2.2 b hb b hm rfl

/-! ## The reader -/

/-- The reader has still to give `data`, from its block and the blocks `todo`. -/
structure Reading (v : Volume) (r : InodeReader) (todo : List ℕ) (data : List UInt8) : Prop where
  linked : Linked (blockNext v) r.ihNext todo
  pos : 8 ≤ r.readpos ∧ r.readpos ≤ 4096
  data : r.blockbuf.slice r.readpos (4096 - r.readpos) ++ todo.flatMap (payload v) = data

section Reader

variable {v : Volume} {r r' : InodeReader} {todo : List ℕ} {data rest : List UInt8}

theorem Reading.length (h : Reading v r todo data) :
    data.length = 4096 - r.readpos + 4088 * todo.length := by
  rw [← h.data, List.length_append, length_slice, List.length_flatMap]
  simp [Nat.mul_comm]

/-- There is something to read in the block after moving on. -/
theorem Reading.moveOn (h : Reading v r todo data) (hio : ∀ b, v.ioOk b = true)
    (hne : data ≠ []) : ∃ r' todo', r.moveOn v = some r' ∧ Reading v r' todo' data ∧
      r'.readpos < 4096 ∧ r'.readpos % 8 = r.readpos % 8 ∧
      r'.blocks ++ todo' = r.blocks ++ todo := by
  by_cases hfull : r.readpos = 4096
  · have hnext : r.ihNext ≠ 0 := fun hzero => by
      obtain rfl := (hzero ▸ h.linked).eq_nil
      have hlen := h.length
      rw [hfull] at hlen
      exact hne (List.length_eq_zero_iff.1 hlen)
    obtain ⟨todo', rfl, hlinked⟩ := h.linked.exists_cons hnext
    refine ⟨⟨v.disk r.ihNext, 8, r.blocks ++ [r.ihNext]⟩, todo', ?_, ⟨hlinked, by simp, ?_⟩, by simp,
      by simp [hfull], by simp⟩
    · simp only [InodeReader.moveOn, if_pos hfull, if_neg hnext, InodeReader.followUp,
        gxfsReadBlock, hio, if_true, Option.map_some]
    · have hend : r.blockbuf.slice 4096 0 = [] := rfl
      rw [← h.data, hfull, Nat.sub_self, List.flatMap_cons, hend, List.nil_append, payload]
      simp only [Nat.reduceSub]
  · exact ⟨r, todo, by simp only [InodeReader.moveOn, if_neg hfull], h,
      lt_of_le_of_ne h.pos.2 hfull, rfl, rfl⟩

/-- The reader gives the next bytes of the chain. -/
theorem readInodeChunks_spec (hio : ∀ b, v.ioOk b = true) {rounds : ℕ}
    (hrounds : data.length ≤ rounds) (h : Reading v r todo (data ++ rest)) :
    ∃ r' todo', readInodeChunks v rounds r data.length = some (data, r') ∧
      Reading v r' todo' rest ∧ r'.blocks ++ todo' = r.blocks ++ todo := by
  induction rounds generalizing r todo data with
  | zero =>
    obtain rfl : data = [] := List.length_eq_zero_iff.1 (Nat.le_zero.1 hrounds)
    exact ⟨r, todo, rfl, h, rfl⟩
  | succ rounds ih =>
    unfold readInodeChunks
    by_cases hzero : data.length = 0
    · obtain rfl := List.length_eq_zero_iff.1 hzero
      exact ⟨r, todo, rfl, h, rfl⟩
    · rw [if_neg hzero]
      obtain ⟨r₁, todo₁, hmove, h₁, hlt, -, hblocks⟩ := h.moveOn hio fun e =>
        hzero (by rw [(List.append_eq_nil_iff.1 e).1, List.length_nil])
      set now := min data.length (4096 - r₁.readpos) with hnow
      have hdata := h₁.data
      have hpos := h₁.pos
      rw [show 4096 - r₁.readpos = now + (4096 - (r₁.readpos + now)) by omega, slice_add,
        List.append_assoc, ← List.take_append_drop now data, List.append_assoc] at hdata
      obtain ⟨hslice, hrest⟩ := List.append_inj hdata (by simp [hnow])
      have h₂ : Reading v { r₁ with readpos := r₁.readpos + now } todo₁ (data.drop now ++ rest) :=
        ⟨h₁.linked, ⟨by simp only; omega, by simp only; omega⟩, hrest⟩
      obtain ⟨r₂, todo₂, hread, h₃, hblocks₂⟩ := ih (by rw [List.length_drop]; omega) h₂
      rw [List.length_drop] at hread
      refine ⟨r₂, todo₂, ?_, h₃, hblocks₂.trans hblocks⟩
      simp only [hmove, Option.bind_eq_bind, Option.bind_some, ← hnow, hread, hslice,
        List.take_append_drop]

end Reader

/-! ## The records of a chain -/

/-- The bytes of a record that can be found again: a type that is not zero, and the size. -/
structure RecordOk (record : List UInt8) : Prop where
  type : get32 0 record &&& 0xFF ≠ 0
  size : leAt 4 4 record = record.length
  le : 8 ≤ record.length
  dvd : record.length % 8 = 0

section Records

variable {v : Volume} {r : InodeReader} {todo : List ℕ} {data record : List UInt8}

/-- The header of a record lies in the block in which the record starts. -/
theorem Reading.header (h : Reading v r todo data) (hlt : r.readpos < 4096)
    (h8 : r.readpos % 8 = 0) : r.rhType = get32 0 data ∧ r.rhSize = leAt 4 4 data := by
  rw [← h.data, get32, leAt_slice (by omega), leAt_slice (by omega)]
  exact ⟨rfl, rfl⟩

/-- The loop processes the records of the chain, and stops behind the last one with all the blocks
of the chain in its list. -/
theorem loadRecords_spec (hio : ∀ b, v.ioOk b = true) {records : List (List UInt8)} {pad : ℕ}
    (hpad : pad < 4088) (hok : ∀ record ∈ records, RecordOk record)
    (h : Reading v r todo (records.flatten ++ List.replicate pad 0)) (h8 : r.readpos % 8 = 0)
    {load load' : InodeLoad}
    (hload : records.foldlM (fun load record => loadRecord v.rdonly load (record ++ [0])) load =
      some load') {fuel : ℕ} (hfuel : records.length < fuel) :
    loadRecords v fuel r load = some (load', r.blocks ++ todo) := by
  induction records generalizing r todo load fuel with
  | nil =>
    obtain ⟨fuel, rfl⟩ := Nat.exists_eq_add_of_lt hfuel
    obtain rfl := Option.some.inj hload
    rw [List.flatten_nil, List.nil_append] at h
    have hlen := h.length
    rw [List.length_replicate] at hlen
    obtain rfl : todo = [] := List.length_eq_zero_iff.1 (by omega)
    rw [loadRecords, List.append_nil]
    by_cases hend : r.readpos = 4096 ∧ r.ihNext = 0
    · rw [if_pos hend]
    · rw [if_neg hend]
      have hnext : r.ihNext = 0 := h.linked
      have hfull : r.readpos ≠ 4096 := fun e => hend ⟨e, hnext⟩
      have htype : r.rhType &&& 0xFF = 0 := by
        rw [(h.header (lt_of_le_of_ne h.pos.2 hfull) h8).1, get32, leAt_replicate_zero]
        rfl
      simp only [InodeReader.moveOn, if_neg hfull, Option.bind_eq_bind, Option.bind_some,
        if_pos htype]
  | cons record records ih =>
    obtain ⟨fuel, rfl⟩ := Nat.exists_eq_add_of_lt hfuel
    obtain ⟨hrecord, hok⟩ := List.forall_mem_cons.1 hok
    rw [List.foldlM_cons] at hload
    obtain ⟨load₁, hload₁, hload⟩ := Option.bind_eq_some_iff.1 hload
    have h8le := hrecord.le
    have hdvd := hrecord.dvd
    rw [List.flatten_cons, List.append_assoc] at h
    have hne : record ++ (records.flatten ++ List.replicate pad 0) ≠ [] := fun e => by
      rw [(List.append_eq_nil_iff.1 e).1] at h8le
      exact absurd h8le (by simp)
    obtain ⟨r₁, todo₁, hmove, h₁, hlt, hmod, hblocks⟩ := h.moveOn hio hne
    rw [h8] at hmod
    have hgo : ¬ (r.readpos = 4096 ∧ r.ihNext = 0) := fun ⟨hfull, hnext⟩ => by
      rw [InodeReader.moveOn, if_pos hfull, if_pos hnext] at hmove
      cases hmove
    obtain ⟨htype, hsize⟩ := h₁.header hlt hmod
    rw [get32, leAt_append_left (by omega), ← get32] at htype
    rw [leAt_append_left (by omega), hrecord.size] at hsize
    have hvalid : ¬ (record.length < 8 ∨ record.length &&& 7 ≠ 0) := by
      rw [show 7 = 2 ^ 3 - 1 from rfl, Nat.and_two_pow_sub_one_eq_mod]
      omega
    obtain ⟨r₂, todo₂, hread, h₂, hblocks₂⟩ := readInodeChunks_spec hio le_rfl h₁
    have hmod₂ : r₂.readpos % 8 = 0 := by
      have hlen₁ := h₁.length
      have hlen₂ := h₂.length
      have := h₁.pos
      have := h₂.pos
      rw [List.length_append] at hlen₁
      omega
    have hih := ih hok h₂ hmod₂ hload (show records.length < records.length + 1 + fuel by omega)
    rw [loadRecords, if_neg hgo, hmove]
    simp only [Option.bind_eq_bind, Option.bind_some, htype, if_neg hrecord.type, hsize,
      if_neg hvalid, hread, hload₁]
    rw [hblocks₂, hblocks] at hih
    simpa only [List.length_cons] using hih

end Records

end Glidix.Gxfs
