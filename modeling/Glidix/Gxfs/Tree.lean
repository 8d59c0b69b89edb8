import Mathlib.Data.List.Nodup
import Glidix.Gxfs.Inode

/-!
# Trees of blocks

The data of a file hang on a tree of blocks.  A tree of depth `0` is a data block, and the head of a deeper
one is a table of 512 trees; the entry `0` is the empty tree.  The digits of the page number, to the base 512,
lead from the head to the data block of the page.  What belongs to a tree depends on its own blocks only, and
in a tree whose blocks are distinct two pages have different data blocks.
-/

namespace Glidix.Gxfs

open Bytes

/-- What the driver keeps for a tree (`GXFS_Tree`). -/
structure GXFS_Tree where
  depth : ℕ
  head : ℕ
  deriving DecidableEq

/-- The tree in the `data` of a file tree. -/
def FileTree.data (ft : FileTree) : GXFS_Tree := ⟨ft.depth.toNat, ft.head.toNat⟩

/-- The blocks of the tree with a given head. -/
def treeBlocks (disk : ℕ → Bytes) : (depth head : ℕ) → List ℕ
  | 0, head => if head = 0 then [] else [head]
  | depth + 1, head =>
    if head = 0 then []
    else head :: (List.range 512).flatMap fun i => treeBlocks disk depth ((disk head).getQuad i)

/-- The data block of a page, or `0`. -/
def blockAt (disk : ℕ → Bytes) : (depth head page : ℕ) → ℕ
  | 0, head, _ => head
  | depth + 1, head, page =>
    if head = 0 then 0 else blockAt disk depth ((disk head).getQuad (page / 512 ^ depth % 512)) page

section

variable {disk disk' : ℕ → Bytes} {depth head b i p q : ℕ}

@[simp] theorem treeBlocks_null (disk : ℕ → Bytes) (depth : ℕ) : treeBlocks disk depth 0 = [] := by
  cases depth with
  | zero => exact if_pos rfl
  | succ depth => exact if_pos rfl

theorem treeBlocks_zero (hh : head ≠ 0) : treeBlocks disk 0 head = [head] := if_neg hh

theorem treeBlocks_succ (hh : head ≠ 0) : treeBlocks disk (depth + 1) head =
    head :: (List.range 512).flatMap fun i => treeBlocks disk depth ((disk head).getQuad i) := if_neg hh

theorem head_mem_treeBlocks (hh : head ≠ 0) : head ∈ treeBlocks disk depth head := by
  cases depth with
  | zero =>
    rw [treeBlocks_zero hh]
    exact List.mem_singleton_self head
  | succ depth =>
    rw [treeBlocks_succ hh]
    exact List.mem_cons_self

/-- The blocks of a tree below one of the entries. -/
theorem mem_treeBlocks_of_entry (hh : head ≠ 0) (hi : i < 512)
    (hb : b ∈ treeBlocks disk depth ((disk head).getQuad i)) : b ∈ treeBlocks disk (depth + 1) head := by
  rw [treeBlocks_succ hh]
  exact List.mem_cons_of_mem _ (List.mem_flatMap.2 ⟨i, List.mem_range.2 hi, hb⟩)

theorem ne_zero_of_mem_treeBlocks (hb : b ∈ treeBlocks disk depth head) : b ≠ 0 := by
  induction depth generalizing head with
  | zero =>
    rw [treeBlocks] at hb
    split_ifs at hb with hh
    · cases hb
    · rwa [List.mem_singleton.1 hb]
  | succ depth ih =>
    rw [treeBlocks] at hb
    split_ifs at hb with hh
    · cases hb
    · rcases List.mem_cons.1 hb with rfl | hb
      · exact hh
      · obtain ⟨i, -, hi⟩ := List.mem_flatMap.1 hb
        exact ih hi

/-- Blocks outside of a tree do not matter to it. -/
theorem treeBlocks_congr (h : ∀ b ∈ treeBlocks disk depth head, disk' b = disk b) :
    treeBlocks disk' depth head = treeBlocks disk depth head := by
  induction depth generalizing head with
  | zero => rfl
  | succ depth ih =>
    by_cases hh : head = 0
    · rw [hh, treeBlocks_null, treeBlocks_null]
    · have hentries : ∀ i ∈ List.range 512, treeBlocks disk' depth ((disk head).getQuad i) =
          treeBlocks disk depth ((disk head).getQuad i) := by
        intro i hi
        exact ih fun b hb => h b (mem_treeBlocks_of_entry hh (List.mem_range.1 hi) hb)
      rw [treeBlocks_succ hh, treeBlocks_succ hh, h head (head_mem_treeBlocks hh),
        List.flatMap_congr hentries]

theorem blockAt_null (disk : ℕ → Bytes) (depth page : ℕ) : blockAt disk depth 0 page = 0 := by
  cases depth with
  | zero => rfl
  | succ depth => exact if_pos rfl

theorem blockAt_succ (hh : head ≠ 0) : blockAt disk (depth + 1) head p =
    blockAt disk depth ((disk head).getQuad (p / 512 ^ depth % 512)) p := if_neg hh

theorem blockAt_congr (h : ∀ b ∈ treeBlocks disk depth head, disk' b = disk b) :
    blockAt disk' depth head p = blockAt disk depth head p := by
  induction depth generalizing head with
  | zero => rfl
  | succ depth ih =>
    by_cases hh : head = 0
    · rw [hh, blockAt_null, blockAt_null]
    · rw [blockAt_succ hh, blockAt_succ hh, h head (head_mem_treeBlocks hh)]
      exact ih fun b hb => h b (mem_treeBlocks_of_entry hh (Nat.mod_lt _ (by decide)) hb)

/-- A table with a first entry only. -/
theorem treeBlocks_of_first (hh : head ≠ 0) (hrest : ∀ i < 512, i ≠ 0 → (disk head).getQuad i = 0) :
    treeBlocks disk (depth + 1) head = head :: treeBlocks disk depth ((disk head).getQuad 0) := by
  have hempty : (List.map Nat.succ (List.range 511)).flatMap
      (fun i => treeBlocks disk depth ((disk head).getQuad i)) = [] := by
    rw [List.flatMap_eq_nil_iff]
    intro i hi
    obtain ⟨j, hj, rfl⟩ := List.mem_map.1 hi
    rw [hrest _ (Nat.succ_lt_succ (List.mem_range.1 hj)) (Nat.succ_ne_zero j), treeBlocks_null]
  rw [treeBlocks_succ hh, List.range_succ_eq_map, List.flatMap_cons, hempty, List.append_nil]

/-- The data block of a page belongs to the tree. -/
theorem blockAt_mem (hb : blockAt disk depth head p ≠ 0) :
    blockAt disk depth head p ∈ treeBlocks disk depth head := by
  induction depth generalizing head with
  | zero => exact head_mem_treeBlocks hb
  | succ depth ih =>
    by_cases hh : head = 0
    · rw [hh, blockAt_null] at hb
      exact absurd rfl hb
    · rw [blockAt_succ hh] at hb ⊢
      exact mem_treeBlocks_of_entry hh (Nat.mod_lt _ (by decide)) (ih hb)

/-- The trees of two entries have no block in common. -/
theorem entries_disjoint {j : ℕ} (hnodup : (treeBlocks disk (depth + 1) head).Nodup) (hh : head ≠ 0)
    (hi : i < 512) (hj : j < 512) (hij : i ≠ j) (hb : b ∈ treeBlocks disk depth ((disk head).getQuad i)) :
    b ∉ treeBlocks disk depth ((disk head).getQuad j) := by
  rw [treeBlocks_succ hh, List.nodup_cons, List.nodup_flatMap] at hnodup
  obtain ⟨-, -, hpair⟩ := hnodup
  have hdisj : ∀ i j, i < j → j < 512 → List.Disjoint (treeBlocks disk depth ((disk head).getQuad i))
      (treeBlocks disk depth ((disk head).getQuad j)) := by
    intro i j hlt hj
    have hget := List.pairwise_iff_getElem.1 hpair i j (by rw [List.length_range]; omega)
      (by rwa [List.length_range]) hlt
    simpa [Function.onFun] using hget
  rcases Nat.lt_or_gt_of_ne hij with hlt | hlt
  · exact fun hb' => hdisj i j hlt hj hb hb'
  · exact fun hb' => hdisj j i hlt hi hb' hb

theorem entry_nodup (hnodup : (treeBlocks disk (depth + 1) head).Nodup) (hh : head ≠ 0) (hi : i < 512) :
    (treeBlocks disk depth ((disk head).getQuad i)).Nodup := by
  rw [treeBlocks_succ hh, List.nodup_cons, List.nodup_flatMap] at hnodup
  exact hnodup.2.1 i (List.mem_range.2 hi)

theorem head_not_mem_entry (hnodup : (treeBlocks disk (depth + 1) head).Nodup) (hh : head ≠ 0)
    (hi : i < 512) : head ∉ treeBlocks disk depth ((disk head).getQuad i) := by
  rw [treeBlocks_succ hh, List.nodup_cons] at hnodup
  exact fun hm => hnodup.1 (List.mem_flatMap.2 ⟨i, List.mem_range.2 hi, hm⟩)

/-- In a tree of distinct blocks a data block belongs to one page. -/
theorem blockAt_injective (hnodup : (treeBlocks disk depth head).Nodup)
    (h : blockAt disk depth head p = blockAt disk depth head q) (hne : blockAt disk depth head p ≠ 0) :
    p % 512 ^ depth = q % 512 ^ depth := by
  induction depth generalizing head with
  | zero => rw [Nat.pow_zero, Nat.mod_one, Nat.mod_one]
  | succ depth ih =>
    have hh : head ≠ 0 := by
      rintro rfl
      exact hne (blockAt_null ..)
    rw [blockAt_succ hh] at h hne
    rw [blockAt_succ hh] at h
    have hp := Nat.mod_lt (p / 512 ^ depth) (show 512 > 0 by decide)
    have hq := Nat.mod_lt (q / 512 ^ depth) (show 512 > 0 by decide)
    have hdigit : p / 512 ^ depth % 512 = q / 512 ^ depth % 512 := by
      by_contra hdigit
      apply entries_disjoint hnodup hh hp hq hdigit (blockAt_mem hne)
      rw [h] at hne ⊢
      exact blockAt_mem hne
    rw [← hdigit] at h
    rw [Nat.pow_succ, Nat.mod_mul, Nat.mod_mul, hdigit, ih (entry_nodup hnodup hh hp) h hne]

end

end Glidix.Gxfs
