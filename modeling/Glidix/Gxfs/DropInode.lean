import Mathlib.Data.List.Flatten
import Glidix.Gxfs.InodeChain
import Glidix.Gxfs.Tree

/-!
# Dropping an inode

`gxfsDropInode` frees the blocks of an inode and those of its tree.  Of a tree deeper than one block it frees
the data blocks only: the tables, from the head down, are read but never given back (`freedBlocks`).
-/

namespace Glidix.Gxfs

open Bytes

/-- A volume, and the blocks that have been passed to `gxfsFreeBlock`. -/
structure DropState where
  vol : Volume
  freed : List ℕ

/-- Free a block; `junk b` is what the uninitialised block buffer holds when block `b` is freed. -/
def DropState.free (junk : ℕ → Bytes) (s : DropState) (block : ℕ) : DropState :=
  ⟨gxfsFreeBlock s.vol block (junk block), s.freed ++ [block]⟩

def gxfsDeleteTreeRecur (junk : ℕ → Bytes) : (depth head : ℕ) → DropState → DropState
  | 0, head, s => if head = 0 then s else s.free junk head
  | depth + 1, head, s =>
    if head = 0 then s
    else
      match gxfsReadBlock s.vol head with
      | none => s
      | some table =>
        (List.range 512).foldl (fun s i => gxfsDeleteTreeRecur junk depth (table.getQuad i) s) s

/-- `gxfsDropInode`, with the inode it leaves: the list of blocks is cleared. -/
def gxfsDropInode (junk : ℕ → Bytes) (inode : Inode) (v : Volume) : DropState × Inode :=
  let s := inode.blocks.foldl (DropState.free junk) ⟨v, []⟩
  let s :=
    match inode.ft with
    | none => s
    | some ft => gxfsDeleteTreeRecur junk ft.data.depth ft.data.head s
  (s, { inode with blocks := [] })

/-! ## What is freed -/

/-- The blocks of the tree of an inode. -/
def Inode.treeBlocks (disk : ℕ → Bytes) (inode : Inode) : List ℕ :=
  match inode.ft with
  | none => []
  | some ft => Gxfs.treeBlocks disk ft.data.depth ft.data.head

/-- The inode's blocks and its tree are well formed: no block is shared. -/
structure Inode.OwnsBlocks (disk : ℕ → Bytes) (inode : Inode) : Prop where
  nodup : (inode.blocks ++ inode.treeBlocks disk).Nodup
  ne_zero : ∀ b ∈ inode.blocks, b ≠ 0
  depth_le : ∀ ft ∈ inode.ft, ft.data.depth ≤ 5

/-- The blocks of a tree that are freed: the data blocks below tables that can be read. -/
def freedBlocks (ioOk : ℕ → Bool) (disk : ℕ → Bytes) : (depth head : ℕ) → List ℕ
  | 0, head => if head = 0 then [] else [head]
  | depth + 1, head =>
    if head = 0 ∨ ioOk head = false then []
    else (List.range 512).flatMap fun i => freedBlocks ioOk disk depth ((disk head).getQuad i)

section

variable {ioOk : ℕ → Bool} {disk : ℕ → Bytes} {junk : ℕ → Bytes} {depth head b : ℕ} {s : DropState}
  {inode : Inode} {v : Volume}

theorem freedBlocks_sublist :
    (freedBlocks ioOk disk depth head).Sublist (treeBlocks disk depth head) := by
  induction depth generalizing head with
  | zero => exact List.Sublist.refl _
  | succ depth ih =>
    rw [freedBlocks]
    split_ifs with hh
    · exact List.nil_sublist _
    · rw [treeBlocks_succ (not_or.1 hh).1]
      exact (List.Sublist.flatMap_right _ fun i _ => ih).cons _

/-- The head of a tree that is deeper than one block is not freed. -/
theorem head_not_mem_freedBlocks (hnodup : (treeBlocks disk (depth + 1) head).Nodup) :
    head ∉ freedBlocks ioOk disk (depth + 1) head := by
  intro hm
  rw [freedBlocks] at hm
  split_ifs at hm with hh
  · cases hm
  · obtain ⟨i, hi, hm⟩ := List.mem_flatMap.1 hm
    exact head_not_mem_entry hnodup (not_or.1 hh).1 (List.mem_range.1 hi)
      (freedBlocks_sublist.subset hm)

/-- What has been freed so far, on a volume that is as before apart from that. -/
structure Dropping (ioOk : ℕ → Bool) (disk : ℕ → Bytes) (freed : List ℕ) (s : DropState) : Prop where
  freed_eq : s.freed = freed
  ioOk_eq : s.vol.ioOk = ioOk
  disk_eq : ∀ b ≠ 0, b ∉ freed → s.vol.disk b = disk b

theorem Dropping.free {freed : List ℕ} (h : Dropping ioOk disk freed s) :
    Dropping ioOk disk (freed ++ [b]) (s.free junk b) where
  freed_eq := by rw [DropState.free, h.freed_eq]
  ioOk_eq := (gxfsFreeBlock_ioOk ..).trans h.ioOk_eq
  disk_eq c hc hm := by
    rw [List.mem_append, List.mem_singleton, not_or] at hm
    exact (gxfsFreeBlock_disk s.vol _ hm.2 hc).trans (h.disk_eq c hc hm.1)

theorem Dropping.free_all {freed : List ℕ} (h : Dropping ioOk disk freed s) (junk : ℕ → Bytes)
    (blocks : List ℕ) :
    Dropping ioOk disk (freed ++ blocks) (blocks.foldl (DropState.free junk) s) := by
  induction blocks generalizing freed s with
  | nil => rwa [List.append_nil]
  | cons b blocks ih =>
    rw [List.append_cons]
    exact ih h.free

/-- Trees with distinct blocks are deleted one after the other. -/
theorem Dropping.entries {freed : List ℕ} {heads : ℕ → ℕ} (h : Dropping ioOk disk freed s) (l : List ℕ)
    (hnodup : (freed ++ l.flatMap fun i => treeBlocks disk depth (heads i)).Nodup)
    (ih : ∀ {head freed s}, Dropping ioOk disk freed s → (freed ++ treeBlocks disk depth head).Nodup →
      Dropping ioOk disk (freed ++ freedBlocks ioOk disk depth head) (gxfsDeleteTreeRecur junk depth head s)) :
    Dropping ioOk disk (freed ++ l.flatMap fun i => freedBlocks ioOk disk depth (heads i))
      (l.foldl (fun s i => gxfsDeleteTreeRecur junk depth (heads i) s) s) := by
  induction l generalizing freed s with
  | nil =>
    rw [List.flatMap_nil, List.append_nil]
    exact h
  | cons i l ihl =>
    rw [List.flatMap_cons, ← List.append_assoc] at hnodup ⊢
    have hhere := ih h (List.nodup_append.1 hnodup).1
    apply ihl hhere
    exact hnodup.sublist (((List.Sublist.refl freed).append freedBlocks_sublist).append (List.Sublist.refl _))

/-- `gxfsDeleteTreeRecur` frees the data blocks of a tree. -/
theorem Dropping.tree {freed : List ℕ} (h : Dropping ioOk disk freed s)
    (hnodup : (freed ++ treeBlocks disk depth head).Nodup) :
    Dropping ioOk disk (freed ++ freedBlocks ioOk disk depth head)
      (gxfsDeleteTreeRecur junk depth head s) := by
  induction depth generalizing head freed s with
  | zero =>
    rw [gxfsDeleteTreeRecur, freedBlocks]
    split_ifs with hh
    · rwa [List.append_nil]
    · exact h.free
  | succ depth ih =>
    rw [gxfsDeleteTreeRecur, freedBlocks]
    by_cases hh : head = 0
    · rw [if_pos hh, if_pos (Or.inl hh), List.append_nil]
      exact h
    rw [if_neg hh, gxfsReadBlock, h.ioOk_eq]
    cases hio : ioOk head with
    | false =>
      rw [if_pos (Or.inr rfl), List.append_nil]
      exact h
    | true =>
      rw [treeBlocks_succ hh] at hnodup
      have hhead : head ∉ freed := by
        intro hm
        exact (List.nodup_append.1 hnodup).2.2 head hm head List.mem_cons_self rfl
      rw [if_neg (by simp [hh])]
      simp only [if_true, h.disk_eq head hh hhead]
      apply h.entries _ _ ih
      exact hnodup.sublist ((List.Sublist.refl _).append (List.sublist_cons_self _ _))

/-- The blocks that are freed are those of the inode and the data blocks of its tree. -/
theorem gxfsDropInode_freed (h : inode.OwnsBlocks v.disk) : (gxfsDropInode junk inode v).1.freed =
    inode.blocks ++
      match inode.ft with
      | none => []
      | some ft => freedBlocks v.ioOk v.disk ft.data.depth ft.data.head := by
  have hnodup := h.nodup
  have hstart : Dropping v.ioOk v.disk [] ⟨v, []⟩ := ⟨rfl, rfl, fun _ _ _ => rfl⟩
  have hblocks := hstart.free_all junk inode.blocks
  rw [List.nil_append] at hblocks
  rw [gxfsDropInode]
  unfold Inode.treeBlocks at hnodup
  cases hft : inode.ft with
  | none =>
    rw [List.append_nil]
    exact hblocks.freed_eq
  | some ft =>
    rw [hft] at hnodup
    exact (hblocks.tree hnodup).freed_eq

/-- An inode that shares no block gets all its blocks freed, each of them once, and no other block, if and only
if its tree is empty or one block. -/
theorem gxfsDropInode_frees_iff (h : inode.OwnsBlocks v.disk) :
    (gxfsDropInode junk inode v).1.freed.Perm (inode.blocks ++ inode.treeBlocks v.disk) ↔
      ∀ ft ∈ inode.ft, ft.data.depth = 0 ∨ ft.data.head = 0 := by
  have hnodup := h.nodup
  rw [gxfsDropInode_freed h, List.perm_append_left_iff]
  unfold Inode.treeBlocks at hnodup ⊢
  cases hft : inode.ft with
  | none => exact iff_of_true (List.Perm.refl _) fun _ hnone => nomatch hnone
  | some ft =>
    rw [hft] at hnodup
    simp only [Option.mem_def, Option.some.injEq, forall_eq']
    cases hdepth : ft.data.depth with
    | zero => exact iff_of_true (List.Perm.refl _) (Or.inl rfl)
    | succ depth =>
      simp only [hdepth] at hnodup
      constructor
      · intro hperm
        -- the head would have to be freed
        right
        by_contra hh
        exact head_not_mem_freedBlocks (List.nodup_append.1 hnodup).2.1
          (hperm.mem_iff.2 (head_mem_treeBlocks hh))
      · intro hor
        have hh := hor.resolve_left (Nat.succ_ne_zero depth)
        rw [hh, treeBlocks_null, freedBlocks, if_pos (Or.inl rfl)]

end

/-! ## Two inodes -/

/-- A table at block 10 whose first entry is block 11. -/
def tableVolume : Volume :=
  gxfsOpenRoot (mkgxfsBody 0x1000000 0) 0
    (Function.update (fun _ _ => 0) 10 (Bytes.setQuad (fun _ => 0) 0 11)) fun _ => true

/-- The inode at block 9, with a tree at block 10. -/
def fileAt (depth : UInt64) : Inode := { newInode 9 with blocks := [9], ft := some ⟨0, 0x1000, depth, 10⟩ }

theorem gxfsDropInode_frees_small :
    (gxfsDropInode (fun _ _ => 0) (fileAt 0) tableVolume).1.freed.Perm [9, 10] := by
  apply (gxfsDropInode_frees_iff ⟨by decide, by decide, ?_⟩).2
  · intro ft hft
    obtain rfl := Option.some.inj hft
    exact Or.inl rfl
  · intro ft hft
    obtain rfl := Option.some.inj hft
    exact Nat.zero_le 5

theorem treeBlocks_tableVolume : treeBlocks tableVolume.disk 1 10 = [10, 11] := by
  have hne : 10 ≠ 0 := by decide
  have htable : tableVolume.disk 10 = Bytes.setQuad (fun _ => 0) 0 11 := by
    rw [tableVolume, gxfsOpenRoot, gxfsFlushSuperblock_disk _ hne]
    exact Function.update_self 10 (Bytes.setQuad (fun _ => 0) 0 11) fun _ _ => 0
  have hfirst : (tableVolume.disk 10).getQuad 0 = 11 := by
    rw [htable, getQuad_setQuad_self]
    decide
  rw [treeBlocks_of_first (by decide), hfirst, treeBlocks_zero (by decide)]
  intro i _ hi
  rw [htable, getQuad_setQuad_ne _ _ hi, getQuad_zero]

/-- The head of a tree of depth 1 is lost. -/
theorem gxfsDropInode_leaks_head : (fileAt 1).OwnsBlocks tableVolume.disk ∧
    ¬ (gxfsDropInode (fun _ _ => 0) (fileAt 1) tableVolume).1.freed.Perm
      ((fileAt 1).blocks ++ (fileAt 1).treeBlocks tableVolume.disk) := by
  have htree : (fileAt 1).treeBlocks tableVolume.disk = [10, 11] := treeBlocks_tableVolume
  have howns : (fileAt 1).OwnsBlocks tableVolume.disk := by
    refine ⟨?_, by decide, ?_⟩
    · rw [htree]
      decide
    · intro ft hft
      obtain rfl := Option.some.inj hft
      decide
  refine ⟨howns, fun hperm => ?_⟩
  rw [gxfsDropInode_freed howns] at hperm
  have hnodup : (treeBlocks tableVolume.disk 1 10).Nodup := by
    rw [treeBlocks_tableVolume]
    decide
  apply head_not_mem_freedBlocks hnodup
  have hmem := hperm.mem_iff.2 (List.mem_append_right _ (htree ▸ List.mem_cons_self))
  rcases List.mem_append.1 hmem with hmem | hmem
  · exact absurd hmem (by decide)
  · exact hmem

end Glidix.Gxfs
