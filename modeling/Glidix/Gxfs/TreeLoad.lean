import Mathlib.Algebra.Order.BigOperators.Group.List
import Mathlib.Tactic.IntervalCases
import Glidix.Gxfs.InodeRoundTrip
import Glidix.Gxfs.Tree

/-!
# Loading the pages of a file

`gxfsTreeLoad` increases the depth of a tree until the page fits, and puts in the tables and the data block that
are missing on the way to the page.  A new head has the old one as its first entry, and a new block is cleared
before a table refers to it; so what was mapped stays mapped, wherever the call stops (`TreeFile.Sound`).
-/

namespace Glidix.Gxfs

open Bytes

/-- A volume, and the tree of a file on it. -/
structure TreeFile where
  vol : Volume
  tree : GXFS_Tree

/-- The indices into the tables, from the highest level down. -/
def lvl (pos : ℕ) : List ℕ :=
  [pos >>> 48 &&& 0x1FF, pos >>> 39 &&& 0x1FF, pos >>> 30 &&& 0x1FF, pos >>> 21 &&& 0x1FF,
    pos >>> 12 &&& 0x1FF]

theorem depth_lt_of_le {pos depth : ℕ} (h : pos ≥ 2 ^ (12 + 9 * depth)) : depth < pos := by
  have hle : 2 ^ depth ≤ 2 ^ (12 + 9 * depth) := Nat.pow_le_pow_right (by decide) (by omega)
  exact (Nat.lt_two_pow_self.trans_le hle).trans_le h

/-- Increase the depth until the tree has a place for `pos`; `junk` is what the uninitialised block buffer of
`gxfsFreeBlock` holds.  The answer says whether there were the blocks for it. -/
def growTree (junk : Bytes) (pos : ℕ) (f : TreeFile) : Bool × TreeFile :=
  if _ : pos ≥ 2 ^ (12 + 9 * f.tree.depth) then
    match gxfsAllocBlock f.vol with
    | (indirect, v) =>
      if indirect = 0 then (false, { f with vol := v })
      else
        match gxfsWriteBlock v indirect (setQuad (fun _ => 0) 0 f.tree.head) with
        | none => (false, { f with vol := gxfsFreeBlock v indirect junk })
        | some v => growTree junk pos ⟨v, ⟨f.tree.depth + 1, indirect⟩⟩
  else (true, f)
termination_by pos - f.tree.depth
decreasing_by
  have := depth_lt_of_le ‹pos ≥ 2 ^ (12 + 9 * f.tree.depth)›
  omega

/-- Get to the data block, along the tables that are left. -/
def walkTree (junk : Bytes) : (levels : List ℕ) → (datablock : ℕ) → Volume → Option ℕ × Volume
  | [], datablock, v => (some datablock, v)
  | i :: levels, datablock, v =>
    match gxfsReadBlock v datablock with
    | none => (none, v)
    | some table =>
      if table.getQuad i = 0 then
        match gxfsAllocZeroBlock v junk with
        | (newblock, v) =>
          if newblock = 0 then (none, v)
          else
            match gxfsWriteBlock v datablock (table.setQuad i newblock) with
            | none => (none, gxfsFreeBlock v newblock junk)
            | some v => walkTree junk levels newblock v
      else walkTree junk levels (table.getQuad i) v

/-- `gxfsTreeLoad`: the contents of the page, or nothing if the call fails.  A negative position is beyond the
limit, as the comparison is unsigned. -/
def gxfsTreeLoad (junk : Bytes) (pos : ℕ) (f : TreeFile) : Option Bytes × TreeFile :=
  if pos > 2 ^ 57 - 1 then (none, f)
  else
    match growTree junk pos f with
    | (false, f) => (none, f)
    | (true, f) =>
      match walkTree junk ((lvl pos).drop (5 - f.tree.depth)) f.tree.head f.vol with
      | (none, v) => (none, { f with vol := v })
      | (some datablock, v) => (gxfsReadBlock v datablock, { f with vol := v })

/-- A sequence of calls. -/
def TreeFile.loadAll (f : TreeFile) (loads : List (ℕ × Bytes)) : TreeFile :=
  loads.foldl (fun f load => (gxfsTreeLoad load.2 load.1 f).2) f

/-! ## What a tree maps -/

/-- The blocks of the tree. -/
def TreeFile.blocks (f : TreeFile) : List ℕ := treeBlocks f.vol.disk f.tree.depth f.tree.head

/-- Page `p` has the data block `b`. -/
structure TreeFile.Maps (f : TreeFile) (p b : ℕ) : Prop where
  page_lt : p < 512 ^ f.tree.depth
  ne_zero : b ≠ 0
  block_eq : blockAt f.vol.disk f.tree.depth f.tree.head p = b

/-- A tree on a volume: its blocks are distinct and in use, and no more than five levels lie above the data. -/
structure TreeFile.WellFormed (f : TreeFile) : Prop where
  depth_le : f.tree.depth ≤ 5
  head_ne : f.tree.head ≠ 0
  nodup : f.blocks.Nodup
  owned : ∃ free, Owned f.vol free f.blocks
  used_pos : 0 < f.vol.sbb.sbbUsedBlocks
  used_lt : f.vol.sbb.sbbUsedBlocks < 2 ^ 63

/-- What the calls keep: each block that is taken from the watermark `used` on goes into the tree. -/
structure TreeFile.Sound (used : ℕ) (f : TreeFile) : Prop where
  depth_le : f.tree.depth ≤ 5
  head_ne : f.tree.head ≠ 0
  nodup : f.blocks.Nodup
  owned : ∃ free, Owned f.vol free f.blocks
  used_pos : 0 < f.vol.sbb.sbbUsedBlocks
  used_le : f.vol.sbb.sbbUsedBlocks ≤ used + f.blocks.length

section

variable {disk disk' : ℕ → Bytes} {v v' : Volume} {f g : TreeFile} {junk : Bytes}
  {depth head b i p q pos page used : ℕ} {free A new levels : List ℕ}

theorem TreeFile.Maps.injective (hnodup : f.blocks.Nodup) (hp : f.Maps p b) (hq : f.Maps q b) : p = q := by
  have hmod := blockAt_injective hnodup (hp.block_eq.trans hq.block_eq.symm) (by
    rw [hp.block_eq]
    exact hp.ne_zero)
  rwa [Nat.mod_eq_of_lt hp.page_lt, Nat.mod_eq_of_lt hq.page_lt] at hmod

theorem length_treeBlocks_le : (treeBlocks disk depth head).length ≤ 513 ^ depth := by
  induction depth generalizing head with
  | zero =>
    rw [treeBlocks]
    split_ifs
    · exact Nat.zero_le _
    · exact le_rfl
  | succ depth ih =>
    rw [treeBlocks]
    split_ifs
    · exact Nat.zero_le _
    · have hsum : ((List.range 512).flatMap fun i => treeBlocks disk depth ((disk head).getQuad i)).length ≤
          512 * 513 ^ depth := by
        rw [List.length_flatMap]
        refine (List.sum_le_card_nsmul _ (513 ^ depth) ?_).trans ?_
        · intro n hn
          obtain ⟨i, -, rfl⟩ := List.mem_map.1 hn
          exact ih
        · rw [List.length_map, List.length_range]
          exact le_of_eq (nsmul_eq_mul _ _)
      have hpos : 0 < 513 ^ depth := Nat.pow_pos (by decide)
      rw [List.length_cons, Nat.pow_succ]
      omega

/-- The watermark does not wrap around. -/
theorem TreeFile.Sound.used_lt (h : f.Sound used) (hused : used < 2 ^ 63) :
    f.vol.sbb.sbbUsedBlocks + 6 < 2 ^ 64 := by
  have hle : f.blocks.length ≤ 513 ^ 5 :=
    length_treeBlocks_le.trans (Nat.pow_le_pow_right (by decide) h.depth_le)
  have hcap : 513 ^ 5 < 2 ^ 46 := by decide
  have := h.used_le
  omega

/-! ## Allocation -/

/-- The allocator counts the blocks that it gives out, and changes nothing if it has none. -/
theorem Owned.alloc_counter (h : Owned v free A) (hpos : 0 < v.sbb.sbbUsedBlocks)
    (hlt : v.sbb.sbbUsedBlocks + 1 < 2 ^ 64) :
    ((gxfsAllocBlock v).1 = 0 → (gxfsAllocBlock v).2 = v) ∧ ((gxfsAllocBlock v).1 ≠ 0 →
      (gxfsAllocBlock v).2.sbb.sbbUsedBlocks = v.sbb.sbbUsedBlocks + 1) := by
  by_cases hh : v.sbb.sbbFreeHead = 0
  · by_cases hfull : v.sbb.sbbUsedBlocks = v.sbb.sbbTotalBlocks
    · simp only [gxfsAllocBlock, if_pos hh, if_pos hfull]
      exact ⟨fun _ => trivial, fun hne => absurd rfl hne⟩
    · simp only [gxfsAllocBlock, if_pos hh, if_neg hfull, gxfsFlushSuperblock_sbb, inc64_of_lt hlt]
      exact ⟨fun hzero => absurd hzero (Nat.ne_of_gt hpos), fun _ => trivial⟩
  · simp only [gxfsAllocBlock, if_neg hh, gxfsReadBlock, h.io, if_true, gxfsFlushSuperblock_sbb,
      inc64_of_lt hlt]
    exact ⟨fun hzero => absurd hzero hh, fun _ => trivial⟩

/-- What `gxfsAllocZeroBlock` does: it fails and changes nothing, or clears a block that was not in use. -/
theorem Owned.allocZero (h : Owned v free A) (junk : Bytes) (hpos : 0 < v.sbb.sbbUsedBlocks)
    (hlt : v.sbb.sbbUsedBlocks + 1 < 2 ^ 64) :
    gxfsAllocZeroBlock v junk = (0, v) ∨
      ∃ b v', gxfsAllocZeroBlock v junk = (b, v') ∧ b ≠ 0 ∧ b ∉ A ∧ v'.disk b = (fun _ => 0) ∧
        (∀ c ≠ 0, c ≠ b → v'.disk c = v.disk c) ∧ (∃ free', Owned v' free' (b :: A)) ∧
          v'.sbb.sbbUsedBlocks = v.sbb.sbbUsedBlocks + 1 := by
  obtain ⟨hnone, hcount⟩ := h.alloc_counter hpos hlt
  rcases halloc : gxfsAllocBlock v with ⟨b, v₁⟩
  rw [gxfsAllocZeroBlock, halloc]
  simp only [halloc] at hnone hcount
  by_cases hb : b = 0
  · left
    simp only [if_pos hb, hnone hb]
  · right
    obtain ⟨hfresh, hdisk, free', hown⟩ := h.alloc (by rw [halloc]; exact hb)
    simp only [halloc] at hfresh hdisk hown
    refine ⟨b, { v₁ with disk := Function.update v₁.disk b fun _ => 0 }, ?_, hb, hfresh, ?_, ?_,
      ⟨free', hown.write List.mem_cons_self _⟩, hcount hb⟩
    · simp only [if_neg hb, gxfsWriteBlock, hown.io, if_true]
    · exact Function.update_self ..
    · intro c hc hne
      exact (Function.update_of_ne hne _ _).trans (hdisk c hc)

/-! ## One more block -/

/-- A list of lists to one of which something is added. -/
theorem perm_flatMap_of_entry {old new' : ℕ → List ℕ} {l : List ℕ} (hnodup : l.Nodup) (hi : i ∈ l)
    (hother : ∀ j ∈ l, j ≠ i → new' j = old j) (hentry : (new' i).Perm (new ++ old i)) :
    (l.flatMap new').Perm (new ++ l.flatMap old) := by
  induction l with
  | nil => cases hi
  | cons j l ih =>
    obtain ⟨hj, hnodup⟩ := List.nodup_cons.1 hnodup
    rw [List.flatMap_cons, List.flatMap_cons]
    by_cases hij : j = i
    · subst hij
      have hrest : ∀ k ∈ l, new' k = old k := by
        intro k hk
        exact hother k (List.mem_cons_of_mem _ hk) fun e => hj (e ▸ hk)
      rw [List.flatMap_congr hrest, ← List.append_assoc]
      exact hentry.append_right _
    · rw [hother j List.mem_cons_self hij]
      have hmem : i ∈ l := (List.mem_cons.1 hi).resolve_left fun e => hij e.symm
      have hperm := ih hnodup hmem fun k hk => hother k (List.mem_cons_of_mem _ hk)
      exact (hperm.append_left (old j)).trans (List.perm_append_comm_assoc _ _ _)

/-- A table one of whose entries gets more blocks below it. -/
theorem treeBlocks_of_entry (hb : b ≠ 0) (hi : i < 512)
    (hother : ∀ j < 512, j ≠ i → (disk' b).getQuad j = (disk b).getQuad j)
    (hframe : ∀ j < 512, j ≠ i → ∀ c ∈ treeBlocks disk depth ((disk b).getQuad j), disk' c = disk c)
    (hentry : (treeBlocks disk' depth ((disk' b).getQuad i)).Perm
      (new ++ treeBlocks disk depth ((disk b).getQuad i))) :
    (treeBlocks disk' (depth + 1) b).Perm (new ++ treeBlocks disk (depth + 1) b) := by
  rw [treeBlocks_succ hb, treeBlocks_succ hb]
  refine List.Perm.trans (List.Perm.cons b ?_) List.perm_middle.symm
  refine perm_flatMap_of_entry List.nodup_range (List.mem_range.2 hi) (fun j hj hne => ?_) hentry
  have hj := List.mem_range.1 hj
  rw [hother j hj hne]
  exact treeBlocks_congr (hframe j hj hne)

/-- Its pages keep their data blocks if those below the entry do. -/
theorem blockAt_of_entry
    (hother : ∀ j < 512, j ≠ i → (disk' b).getQuad j = (disk b).getQuad j)
    (hframe : ∀ j < 512, j ≠ i → ∀ c ∈ treeBlocks disk depth ((disk b).getQuad j), disk' c = disk c)
    (hentry : ∀ q, blockAt disk depth ((disk b).getQuad i) q ≠ 0 →
      blockAt disk' depth ((disk' b).getQuad i) q = blockAt disk depth ((disk b).getQuad i) q)
    (hq : blockAt disk (depth + 1) b q ≠ 0) :
    blockAt disk' (depth + 1) b q = blockAt disk (depth + 1) b q := by
  have hb : b ≠ 0 := by
    rintro rfl
    exact hq (blockAt_null ..)
  rw [blockAt_succ hb] at hq ⊢
  rw [blockAt_succ hb]
  by_cases hdigit : q / 512 ^ depth % 512 = i
  · rw [hdigit] at hq ⊢
    exact hentry q hq
  · have hlt : q / 512 ^ depth % 512 < 512 := Nat.mod_lt _ (by decide)
    rw [hother _ hlt hdigit]
    exact blockAt_congr (hframe _ hlt hdigit)

theorem treeBlocks_of_cleared (depth : ℕ) (hb : b ≠ 0) (hclear : disk b = fun _ => 0) :
    treeBlocks disk depth b = [b] := by
  cases depth with
  | zero => exact treeBlocks_zero hb
  | succ depth =>
    rw [treeBlocks_of_first hb, hclear, getQuad_zero, treeBlocks_null]
    intro i _ _
    rw [hclear, getQuad_zero]

/-! ## The way to the page -/

/-- The digits of a page number that select the entries from depth `depth` down. -/
def digits : (depth page : ℕ) → List ℕ
  | 0, _ => []
  | depth + 1, page => page / 512 ^ depth % 512 :: digits depth page

theorem lvl_drop (h : depth ≤ 5) : (lvl pos).drop (5 - depth) = digits depth (pos / 4096) := by
  have hand : ∀ x, x &&& 0x1FF = x % 512 := fun x => Nat.and_two_pow_sub_one_eq_mod x 9
  interval_cases depth <;>
    simp [lvl, digits, hand, Nat.shiftRight_eq_div_pow, Nat.div_div_eq_div_mul]

/-- What the way through the tree at `b` does to a volume on which `A` is in use: the blocks `new` go into the
tree. -/
structure Walked (v v' : Volume) (A new : List ℕ) (depth b : ℕ) : Prop where
  nodup : new.Nodup
  fresh : ∀ c ∈ new, c ∉ A
  owned : ∃ free, Owned v' free (new ++ A)
  frame : ∀ c ≠ 0, c ∉ treeBlocks v.disk depth b → c ∉ new → v'.disk c = v.disk c
  blocks : (treeBlocks v'.disk depth b).Perm (new ++ treeBlocks v.disk depth b)
  keeps : ∀ q, blockAt v.disk depth b q ≠ 0 → blockAt v'.disk depth b q = blockAt v.disk depth b q
  counter : v'.sbb.sbbUsedBlocks = v.sbb.sbbUsedBlocks + new.length

theorem Walked.refl (h : Owned v free A) : Walked v v A [] depth b where
  nodup := List.nodup_nil
  fresh _ hc := absurd hc List.not_mem_nil
  owned := ⟨free, h⟩
  frame _ _ _ _ := rfl
  blocks := List.Perm.refl _
  keeps _ _ := rfl
  counter := rfl

/-- Blocks in use that are not in the tree stay as they are. -/
theorem Walked.disk_eq {c : ℕ} (h : Walked v v' A new depth b) (hc : c ≠ 0) (hA : c ∈ A)
    (hout : c ∉ treeBlocks v.disk depth b) : v'.disk c = v.disk c :=
  h.frame c hc hout fun hm => h.fresh c hm hA

/-- The way goes on in the tree of an entry. -/
theorem Walked.of_entry (hb : b ≠ 0) (hi : i < 512) (hnodup : (treeBlocks v.disk (depth + 1) b).Nodup)
    (hsub : ∀ c ∈ treeBlocks v.disk (depth + 1) b, c ∈ A)
    (h : Walked v v' A new depth ((v.disk b).getQuad i)) : Walked v v' A new (depth + 1) b := by
  have hhead : v'.disk b = v.disk b :=
    h.disk_eq hb (hsub b (head_mem_treeBlocks hb)) (head_not_mem_entry hnodup hb hi)
  have hframe : ∀ j < 512, j ≠ i → ∀ c ∈ treeBlocks v.disk depth ((v.disk b).getQuad j),
      v'.disk c = v.disk c := by
    intro j hj hne c hc
    exact h.disk_eq (ne_zero_of_mem_treeBlocks hc) (hsub c (mem_treeBlocks_of_entry hb hj hc))
      (entries_disjoint hnodup hb hj hi hne hc)
  refine ⟨h.nodup, h.fresh, h.owned, fun c hc hm hn => ?_, ?_, fun q hq => ?_, h.counter⟩
  · exact h.frame c hc (fun hm' => hm (mem_treeBlocks_of_entry hb hi hm')) hn
  · refine treeBlocks_of_entry hb hi (fun j _ _ => by rw [hhead]) hframe ?_
    rw [hhead]
    exact h.blocks
  · refine blockAt_of_entry (fun j _ _ => by rw [hhead]) hframe (fun q hq => ?_) hq
    rw [hhead]
    exact h.keeps q hq

/-- The way goes on in a cleared block that has been put into a free entry. -/
theorem Walked.of_cleared {v₂ : Volume} {n : ℕ} (h : Walked v₂ v' (n :: A) new depth n) (hb : b ≠ 0)
    (hi : i < 512) (hnodup : (treeBlocks v.disk (depth + 1) b).Nodup)
    (hsub : ∀ c ∈ treeBlocks v.disk (depth + 1) b, c ∈ A)
    (hzero : (v.disk b).getQuad i = 0) (hn : n ≠ 0) (hlt : n < 2 ^ 64) (hfresh : n ∉ A)
    (hdisk : ∀ c ≠ 0, c ≠ n → c ≠ b → v₂.disk c = v.disk c) (hhead : v₂.disk b = (v.disk b).setQuad i n)
    (hclear : v₂.disk n = fun _ => 0) (hcount : v₂.sbb.sbbUsedBlocks = v.sbb.sbbUsedBlocks + 1) :
    Walked v v' A (new ++ [n]) (depth + 1) b := by
  have hsingle : treeBlocks v₂.disk depth n = [n] := treeBlocks_of_cleared depth hn hclear
  have hkept : ∀ c ≠ 0, c ∈ A → v'.disk c = v₂.disk c := by
    intro c hc hm
    apply h.disk_eq hc (List.mem_cons_of_mem _ hm)
    rw [hsingle, List.mem_singleton]
    rintro rfl
    exact hfresh hm
  have hbA : b ∈ A := hsub b (head_mem_treeBlocks hb)
  have hhead' : v'.disk b = (v.disk b).setQuad i n := (hkept b hb hbA).trans hhead
  have hself : (v'.disk b).getQuad i = n := by
    rw [hhead', getQuad_setQuad_self, Nat.mod_eq_of_lt hlt]
  have hother : ∀ j < 512, j ≠ i → (v'.disk b).getQuad j = (v.disk b).getQuad j := by
    intro j _ hne
    rw [hhead', getQuad_setQuad_ne _ _ hne]
  have hframe : ∀ j < 512, j ≠ i → ∀ c ∈ treeBlocks v.disk depth ((v.disk b).getQuad j),
      v'.disk c = v.disk c := by
    intro j hj _ c hc
    have hm : c ∈ A := hsub c (mem_treeBlocks_of_entry hb hj hc)
    have hc0 := ne_zero_of_mem_treeBlocks hc
    rw [hkept c hc0 hm]
    apply hdisk c hc0
    · rintro rfl
      exact hfresh hm
    · rintro rfl
      exact head_not_mem_entry hnodup hb hj hc
  refine ⟨?_, ?_, ?_, fun c hc hm hnew => ?_, ?_, fun q hq => ?_, ?_⟩
  · rw [List.nodup_append]
    refine ⟨h.nodup, List.nodup_singleton n, ?_⟩
    rintro c hc _ hc' rfl
    exact h.fresh c hc (List.mem_singleton.1 hc' ▸ List.mem_cons_self)
  · intro c hc
    rcases List.mem_append.1 hc with hc | hc
    · exact fun hm => h.fresh c hc (List.mem_cons_of_mem _ hm)
    · rwa [List.mem_singleton.1 hc]
  · rw [List.append_assoc, List.singleton_append]
    exact h.owned
  · rw [List.mem_append, not_or, List.mem_singleton] at hnew
    have hcb : c ≠ b := by
      rintro rfl
      exact hm (head_mem_treeBlocks hb)
    refine (h.frame c hc ?_ hnew.1).trans (hdisk c hc hnew.2 hcb)
    rw [hsingle, List.mem_singleton]
    exact hnew.2
  · refine treeBlocks_of_entry hb hi hother hframe ?_
    rw [hself, hzero, treeBlocks_null, List.append_nil, ← hsingle]
    exact h.blocks
  · refine blockAt_of_entry hother hframe (fun q hq => absurd ?_ hq) hq
    rw [hzero, blockAt_null]
  · rw [h.counter, hcount, List.length_append, List.length_singleton]
    omega

/-- The way through a tree ends at the data block of the page, or where a block is missing. -/
theorem walkTree_spec (hown : Owned v free A) (hsub : ∀ c ∈ treeBlocks v.disk depth b, c ∈ A)
    (hnodup : (treeBlocks v.disk depth b).Nodup) (hb : b ≠ 0) (hpos : 0 < v.sbb.sbbUsedBlocks)
    (hlt : v.sbb.sbbUsedBlocks + depth < 2 ^ 64) {r : Option ℕ}
    (h : walkTree junk (digits depth page) b v = (r, v')) :
    ∃ new, Walked v v' A new depth b ∧
      ∀ x, r = some x → x ≠ 0 ∧ blockAt v'.disk depth b page = x := by
  induction depth generalizing b v free A with
  | zero =>
    obtain ⟨rfl, rfl⟩ := Prod.mk.inj h
    refine ⟨[], .refl hown, fun x hx => ?_⟩
    obtain rfl := Option.some.inj hx
    exact ⟨hb, rfl⟩
  | succ depth ih =>
    have hi : page / 512 ^ depth % 512 < 512 := Nat.mod_lt _ (by decide)
    rw [digits, walkTree, gxfsReadBlock, hown.io, if_pos rfl] at h
    simp only at h
    by_cases hzero : (v.disk b).getQuad (page / 512 ^ depth % 512) = 0
    · rw [if_pos hzero] at h
      rcases hown.allocZero junk hpos (by omega) with
        halloc | ⟨n, v₁, halloc, hn, hfresh, hclear, hdisk, ⟨free₁, hown₁⟩, hcount⟩
      · rw [halloc] at h
        obtain ⟨rfl, rfl⟩ := Prod.mk.inj h
        exact ⟨[], .refl hown, fun x hx => by cases hx⟩
      · rw [halloc] at h
        simp only [if_neg hn, gxfsWriteBlock, hown₁.io, if_true] at h
        have hbA : b ∈ A := hsub b (head_mem_treeBlocks hb)
        have hnb : n ≠ b := fun e => hfresh (e ▸ hbA)
        have hown₂ := hown₁.write (List.mem_cons_of_mem n hbA)
          ((v.disk b).setQuad (page / 512 ^ depth % 512) n)
        have hclear₂ : Function.update v₁.disk b ((v.disk b).setQuad (page / 512 ^ depth % 512) n) n =
            fun _ => 0 := (Function.update_of_ne hnb _ _).trans hclear
        have hsingle := treeBlocks_of_cleared depth hn hclear₂
        obtain ⟨new, hwalked, hfound⟩ := ih hown₂
          (fun c hc => by
            rw [hsingle, List.mem_singleton] at hc
            exact hc ▸ List.mem_cons_self)
          (by
            rw [hsingle]
            exact List.nodup_singleton n)
          hn (by simp only [hcount]; omega) (by simp only [hcount]; omega) h
        have hall := hwalked.of_cleared hb hi hnodup hsub hzero hn (hown₁.used_ne n List.mem_cons_self).2 hfresh
          (fun c hc hcn hcb => (Function.update_of_ne hcb _ _).trans (hdisk c hc hcn))
          (Function.update_self ..) hclear₂ hcount
        refine ⟨_, hall, fun x hx => ?_⟩
        obtain ⟨hx0, hat⟩ := hfound x hx
        refine ⟨hx0, ?_⟩
        have hhead : v'.disk b = (v.disk b).setQuad (page / 512 ^ depth % 512) n := by
          refine (hwalked.disk_eq hb (List.mem_cons_of_mem _ hbA) ?_).trans (Function.update_self ..)
          rw [hsingle, List.mem_singleton]
          exact hnb.symm
        rw [blockAt_succ hb, hhead, getQuad_setQuad_self,
          Nat.mod_eq_of_lt (hown₁.used_ne n List.mem_cons_self).2]
        exact hat
    · rw [if_neg hzero] at h
      obtain ⟨new, hwalked, hfound⟩ := ih hown (fun c hc => hsub c (mem_treeBlocks_of_entry hb hi hc))
        (entry_nodup hnodup hb hi) hzero hpos (by omega) h
      have hall := hwalked.of_entry hb hi hnodup hsub
      refine ⟨new, hall, fun x hx => ?_⟩
      obtain ⟨hx0, hat⟩ := hfound x hx
      refine ⟨hx0, ?_⟩
      have hhead : v'.disk b = v.disk b :=
        hwalked.disk_eq hb (hsub b (head_mem_treeBlocks hb)) (head_not_mem_entry hnodup hb hi)
      rw [blockAt_succ hb, hhead]
      exact hat

/-! ## Greater depth -/

/-- A new head keeps what is mapped. -/
theorem TreeFile.Sound.grow {n : ℕ} (h : f.Sound used) (hused : used < 2 ^ 63) (hdepth : f.tree.depth < 5)
    (halloc : gxfsAllocBlock f.vol = (n, v)) (hn : n ≠ 0) (hg : g = ⟨{ v with
      disk := Function.update v.disk n (setQuad (fun _ => 0) 0 f.tree.head) }, ⟨f.tree.depth + 1, n⟩⟩) :
    g.Sound used ∧ ∀ p b, f.Maps p b → g.Maps p b := by
  obtain ⟨free, hown⟩ := h.owned
  have hlt := h.used_lt hused
  obtain ⟨hfresh, hdisk, free', hown'⟩ := hown.alloc (by rw [halloc]; exact hn)
  have hcount := (hown.alloc_counter h.used_pos (by omega)).2 (by rw [halloc]; exact hn)
  simp only [halloc] at hfresh hdisk hown' hcount
  have htree' : g.tree = ⟨f.tree.depth + 1, n⟩ := by rw [hg]
  have hvol : g.vol.disk = Function.update v.disk n (setQuad (fun _ => 0) 0 f.tree.head) := by rw [hg]
  have hhead : g.vol.disk n = setQuad (fun _ => 0) 0 f.tree.head := by
    rw [hvol]
    exact Function.update_self ..
  have hkept : ∀ c ∈ f.blocks, g.vol.disk c = f.vol.disk c := by
    intro c hc
    have hne : c ≠ n := fun e => hfresh (e ▸ hc)
    rw [hvol, Function.update_of_ne hne]
    exact hdisk c (ne_zero_of_mem_treeBlocks hc)
  have hfirst : (g.vol.disk n).getQuad 0 = f.tree.head := by
    rw [hhead, getQuad_setQuad_self, Nat.mod_eq_of_lt (hown.used_ne _ (head_mem_treeBlocks h.head_ne)).2]
  have hblocks : g.blocks = n :: f.blocks := by
    have htree : treeBlocks g.vol.disk (f.tree.depth + 1) n =
        n :: treeBlocks g.vol.disk f.tree.depth f.tree.head := by
      rw [treeBlocks_of_first hn, hfirst]
      intro i _ hi
      rw [hhead, getQuad_setQuad_ne _ _ hi, getQuad_zero]
    rw [treeBlocks_congr hkept] at htree
    rw [TreeFile.blocks, htree']
    exact htree
  refine ⟨⟨?_, ?_, ?_, ⟨free', ?_⟩, ?_, ?_⟩, fun p b hmap => ⟨?_, hmap.ne_zero, ?_⟩⟩
  · rw [htree']
    exact hdepth
  · rw [htree']
    exact hn
  · rw [hblocks, List.nodup_cons]
    exact ⟨hfresh, h.nodup⟩
  · rw [hblocks, hg]
    exact hown'.write List.mem_cons_self _
  · rw [hg]
    show 0 < v.sbb.sbbUsedBlocks
    omega
  · have hle := h.used_le
    rw [hblocks, List.length_cons, hg]
    show v.sbb.sbbUsedBlocks ≤ _
    omega
  · have hlt := hmap.page_lt
    rw [htree']
    exact hlt.trans_le (Nat.pow_le_pow_right (by decide) (Nat.le_succ _))
  · have hdigit : p / 512 ^ f.tree.depth % 512 = 0 := by
      rw [Nat.div_eq_of_lt hmap.page_lt]
    have hat : blockAt g.vol.disk (f.tree.depth + 1) n p = b := by
      rw [blockAt_succ hn, hdigit, hfirst, blockAt_congr hkept]
      exact hmap.block_eq
    rw [htree']
    exact hat

/-- The depth is increased until the page fits, or a block is missing. -/
theorem growTree_spec (h : f.Sound used) (hused : used < 2 ^ 63) (hpos : pos < 2 ^ 57) {done : Bool}
    (hg : growTree junk pos f = (done, g)) :
    g.Sound used ∧ (∀ p b, f.Maps p b → g.Maps p b) ∧ (done = true → pos < 2 ^ (12 + 9 * g.tree.depth)) := by
  induction hlevels : 5 - f.tree.depth using Nat.strong_induction_on generalizing f with
  | _ levels ih =>
    rw [growTree] at hg
    by_cases hfits : pos ≥ 2 ^ (12 + 9 * f.tree.depth)
    · have hdepth : f.tree.depth < 5 := by
        by_contra hge
        have hle : 2 ^ 57 ≤ 2 ^ (12 + 9 * f.tree.depth) := Nat.pow_le_pow_right (by decide) (by omega)
        exact absurd hpos (Nat.not_lt.2 (hle.trans hfits))
      obtain ⟨free, hown⟩ := h.owned
      rcases halloc : gxfsAllocBlock f.vol with ⟨n, v⟩
      rw [dif_pos hfits] at hg
      simp only [halloc] at hg
      by_cases hn : n = 0
      · rw [if_pos hn] at hg
        obtain ⟨rfl, rfl⟩ := Prod.mk.inj hg
        have hlt := h.used_lt hused
        have hsame := (hown.alloc_counter h.used_pos (by omega)).1 (by rw [halloc]; exact hn)
        rw [halloc] at hsame
        simp only at hsame
        rw [hsame]
        exact ⟨h, fun _ _ hmap => hmap, fun hdone => nomatch hdone⟩
      · obtain ⟨-, -, free', hown'⟩ := hown.alloc (by rw [halloc]; exact hn)
        rw [halloc] at hown'
        rw [if_neg hn, gxfsWriteBlock, hown'.io, if_pos rfl] at hg
        obtain ⟨hsound, hmaps⟩ := h.grow hused hdepth halloc hn rfl
        obtain ⟨hg₁, hg₂, hg₃⟩ := ih _ (by simp only; omega) hsound hg rfl
        exact ⟨hg₁, fun p b hmap => hg₂ p b (hmaps p b hmap), hg₃⟩
    · rw [dif_neg hfits] at hg
      obtain ⟨rfl, rfl⟩ := Prod.mk.inj hg
      exact ⟨h, fun _ _ hmap => hmap, fun _ => Nat.lt_of_not_le hfits⟩

/-! ## The call -/

/-- The way to a page keeps the tree sound, and what is mapped. -/
theorem TreeFile.Sound.walk (h : f.Sound used)
    (hw : Walked f.vol v' f.blocks new f.tree.depth f.tree.head) :
    ({ f with vol := v' } : TreeFile).Sound used ∧
      ∀ p b, f.Maps p b → ({ f with vol := v' } : TreeFile).Maps p b := by
  have hperm : ({ f with vol := v' } : TreeFile).blocks.Perm (new ++ f.blocks) := hw.blocks
  obtain ⟨free, hown⟩ := hw.owned
  refine ⟨⟨h.depth_le, h.head_ne, ?_, ⟨free, ?_⟩, ?_, ?_⟩, fun p b hmap => ⟨hmap.page_lt, hmap.ne_zero, ?_⟩⟩
  · rw [hperm.nodup_iff, List.nodup_append]
    refine ⟨hw.nodup, h.nodup, ?_⟩
    rintro c hc _ hc' rfl
    exact hw.fresh c hc hc'
  · exact hown.mono fun b hb => hperm.mem_iff.1 hb
  · have hpos := h.used_pos
    show 0 < v'.sbb.sbbUsedBlocks
    rw [hw.counter]
    omega
  · have hle := h.used_le
    rw [hperm.length_eq, List.length_append]
    show v'.sbb.sbbUsedBlocks ≤ _
    rw [hw.counter]
    omega
  · rw [← hmap.block_eq]
    apply hw.keeps
    rw [hmap.block_eq]
    exact hmap.ne_zero

/-- A call keeps what is mapped, and what it reads is the data block of the page. -/
theorem gxfsTreeLoad_spec (h : f.Sound used) (hused : used < 2 ^ 63) {r : Option Bytes}
    (hload : gxfsTreeLoad junk pos f = (r, g)) :
    g.Sound used ∧ (∀ p b, f.Maps p b → g.Maps p b) ∧
      ∀ buffer, r = some buffer → ∃ b, g.Maps (pos / 4096) b ∧ buffer = g.vol.disk b := by
  rw [gxfsTreeLoad] at hload
  by_cases hlimit : pos > 2 ^ 57 - 1
  · rw [if_pos hlimit] at hload
    obtain ⟨rfl, rfl⟩ := Prod.mk.inj hload
    exact ⟨h, fun _ _ hmap => hmap, fun _ hr => nomatch hr⟩
  rw [if_neg hlimit] at hload
  rcases hgrow : growTree junk pos f with ⟨done, f₁⟩
  obtain ⟨hsound, hmaps, hfits⟩ := growTree_spec h hused (by omega) hgrow
  rw [hgrow] at hload
  cases done with
  | false =>
    obtain ⟨rfl, rfl⟩ := Prod.mk.inj hload
    exact ⟨hsound, hmaps, fun _ hr => nomatch hr⟩
  | true =>
    obtain ⟨free, hown⟩ := hsound.owned
    have hlt := hsound.used_lt hused
    have hdepth := hsound.depth_le
    simp only [lvl_drop hdepth] at hload
    rcases hwalk : walkTree junk (digits f₁.tree.depth (pos / 4096)) f₁.tree.head f₁.vol with ⟨found, v'⟩
    obtain ⟨new, hwalked, hfound⟩ := walkTree_spec hown (fun c hc => hc) hsound.nodup hsound.head_ne
      hsound.used_pos (by omega) hwalk
    obtain ⟨hsound', hmaps'⟩ := hsound.walk hwalked
    have hkeeps : ∀ p b, f.Maps p b → ({ f₁ with vol := v' } : TreeFile).Maps p b :=
      fun p b hmap => hmaps' p b (hmaps p b hmap)
    rw [hwalk] at hload
    cases found with
    | none =>
      obtain ⟨rfl, rfl⟩ := Prod.mk.inj hload
      exact ⟨hsound', hkeeps, fun _ hr => nomatch hr⟩
    | some datablock =>
      obtain ⟨free', hown'⟩ := hsound'.owned
      have hread : gxfsReadBlock v' datablock = some (v'.disk datablock) := if_pos (hown'.io datablock)
      obtain ⟨hr, rfl⟩ := Prod.mk.inj hload
      rw [hread] at hr
      subst hr
      obtain ⟨hne, hat⟩ := hfound datablock rfl
      refine ⟨hsound', hkeeps, fun buffer hr => ⟨datablock, ⟨?_, hne, hat⟩, (Option.some.inj hr).symm⟩⟩
      have hpage := hfits rfl
      show pos / 4096 < 512 ^ f₁.tree.depth
      rw [Nat.div_lt_iff_lt_mul (by decide)]
      calc pos < 2 ^ (12 + 9 * f₁.tree.depth) := hpage
        _ = 512 ^ f₁.tree.depth * 4096 := by rw [Nat.pow_add, Nat.pow_mul, Nat.mul_comm]

theorem TreeFile.Sound.loadAll (h : f.Sound used) (hused : used < 2 ^ 63) (loads : List (ℕ × Bytes)) :
    (f.loadAll loads).Sound used ∧ ∀ p b, f.Maps p b → (f.loadAll loads).Maps p b := by
  induction loads generalizing f with
  | nil => exact ⟨h, fun _ _ hmap => hmap⟩
  | cons load loads ih =>
    have hload : gxfsTreeLoad load.2 load.1 f =
      ((gxfsTreeLoad load.2 load.1 f).1, (gxfsTreeLoad load.2 load.1 f).2) := rfl
    obtain ⟨hsound, hmaps, -⟩ := gxfsTreeLoad_spec h hused hload
    obtain ⟨hsound', hmaps'⟩ := ih hsound
    exact ⟨hsound', fun p b hmap => hmaps' p b (hmaps p b hmap)⟩

theorem TreeFile.WellFormed.sound (h : f.WellFormed) : f.Sound f.vol.sbb.sbbUsedBlocks where
  depth_le := h.depth_le
  head_ne := h.head_ne
  nodup := h.nodup
  owned := h.owned
  used_pos := h.used_pos
  used_le := Nat.le_add_right _ _

/-- After any calls, successful or not, on any tree: different pages have different data blocks, a page keeps
its data block in all further calls, and a call that succeeds has read the data block of its page. -/
theorem gxfsTreeLoad_maps (h : f.WellFormed) (before after : List (ℕ × Bytes)) :
    (∀ p q b, (f.loadAll before).Maps p b → (f.loadAll before).Maps q b → p = q) ∧
      (∀ p b, (f.loadAll before).Maps p b → ((f.loadAll before).loadAll after).Maps p b) ∧
        ∀ pos junk buffer g, gxfsTreeLoad junk pos (f.loadAll before) = (some buffer, g) →
          ∃ b, g.Maps (pos / 4096) b ∧ buffer = g.vol.disk b := by
  obtain ⟨hsound, -⟩ := h.sound.loadAll h.used_lt before
  refine ⟨fun p q b hp hq => hp.injective hsound.nodup hq, ?_, ?_⟩
  · exact (hsound.loadAll h.used_lt after).2
  · intro pos junk buffer g hload
    exact (gxfsTreeLoad_spec hsound h.used_lt hload).2.2 buffer rfl

end

/-- A tree of one block is read at its first page, and then at a page that takes a greater depth. -/
theorem gxfsTreeLoad_maps_example :
    let f := (⟨exampleVolume, ⟨0, 8⟩⟩ : TreeFile).loadAll [(0, fun _ => 0)]
    (∀ p q b, f.Maps p b → f.Maps q b → p = q) ∧
      (∀ p b, f.Maps p b → (f.loadAll [(2 ^ 40, fun _ => 0)]).Maps p b) ∧
        ∀ pos junk buffer g, gxfsTreeLoad junk pos f = (some buffer, g) →
          ∃ b, g.Maps (pos / 4096) b ∧ buffer = g.vol.disk b := by
  apply gxfsTreeLoad_maps
  exact ⟨by decide, by decide, List.nodup_singleton 8, ⟨[], exampleVolume_owned⟩, by decide, by decide⟩

end Glidix.Gxfs
