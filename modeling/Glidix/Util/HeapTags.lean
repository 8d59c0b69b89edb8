import Mathlib.Data.List.Chain
import Glidix.Lib.Tiling
import Glidix.Util.HeapBlock

/-!
# The blocks of the heap and their tags

`HeapOk s l` says that the blocks `l` cover the heap without gaps, and that the header and the
footer of every block say what it is and whether there are neighbours.  A call that changes the
memory of a few neighbouring blocks only has to put blocks with right tags in their place
(`HeapOk.replace`).
-/

namespace Glidix.Util

open Bytes

/-! ## Flags -/

theorem or_and_mask (f flag mask : UInt8) : (f ||| flag) &&& mask = f &&& mask ||| flag &&& mask :=
  UInt8.toBitVec_inj.1 BitVec.and_or_distrib_right

theorem or_taken (f : UInt8) : (f ||| HEAP_BLOCK_TAKEN) &&& HEAP_BLOCK_TAKEN ≠ 0 ∧
    (f ||| HEAP_BLOCK_TAKEN) &&& HEAP_BLOCK_HAS_LEFT = f &&& HEAP_BLOCK_HAS_LEFT ∧
    (f ||| HEAP_BLOCK_TAKEN) &&& HEAP_BLOCK_HAS_RIGHT = f &&& HEAP_BLOCK_HAS_RIGHT := by
  rw [or_and_mask, or_and_mask, or_and_mask]
  exact ⟨fun h => absurd (UInt8.or_eq_zero_iff.1 h).2 (by decide), UInt8.or_zero, UInt8.or_zero⟩

theorem clear_taken (f : UInt8) : (f &&& ~~~HEAP_BLOCK_TAKEN) &&& HEAP_BLOCK_TAKEN = 0 ∧
    (f &&& ~~~HEAP_BLOCK_TAKEN) &&& HEAP_BLOCK_HAS_LEFT = f &&& HEAP_BLOCK_HAS_LEFT ∧
    (f &&& ~~~HEAP_BLOCK_TAKEN) &&& HEAP_BLOCK_HAS_RIGHT = f &&& HEAP_BLOCK_HAS_RIGHT := by
  rw [UInt8.and_assoc, UInt8.and_assoc, UInt8.and_assoc]
  exact ⟨UInt8.and_zero, rfl, rfl⟩

theorem or_hasRight (f : UInt8) :
    (f ||| HEAP_BLOCK_HAS_RIGHT) &&& HEAP_BLOCK_TAKEN = f &&& HEAP_BLOCK_TAKEN ∧
    (f ||| HEAP_BLOCK_HAS_RIGHT) &&& HEAP_BLOCK_HAS_RIGHT ≠ 0 := by
  rw [or_and_mask, or_and_mask]
  exact ⟨UInt8.or_zero, fun h => absurd (UInt8.or_eq_zero_iff.1 h).2 (by decide)⟩

/-! ## Tags -/

section Tags

variable {s s' : HeapMem} {a b v : ℕ} {f : UInt8} {tag : Tag}

/-- A tag is read from 13 bytes. -/
theorem tagAt_congr (h : ∀ o, a ≤ o → o < a + 13 → s'.mem o = s.mem o) :
    s'.tagAt a = s.tagAt a := by
  rw [HeapMem.tagAt, HeapMem.tagAt, load_congr fun o h₁ h₂ => h o h₁ (by omega),
    load_congr fun o h₁ h₂ => h o (by omega) (by omega), h (a + 12) (by omega) (by omega)]

theorem tagAt_setMagic_self :
    (s.setMagic a v).tagAt a = { s.tagAt a with magic := v % 2 ^ 32 } := by
  simp only [HeapMem.tagAt, HeapMem.setMagic, load_store_self, Nat.reducePow]
  rw [load_store_ne (by omega), store_of_notMem (by omega)]

theorem tagAt_setSize_self :
    (s.setSize a v).tagAt a = { s.tagAt a with size := v % 2 ^ 64 } := by
  simp only [HeapMem.tagAt, HeapMem.setSize, load_store_self, Nat.reducePow]
  rw [load_store_ne (by omega), store_of_notMem (by omega)]

theorem tagAt_setFlags_self : (s.setFlags a f).tagAt a = { s.tagAt a with flags := f } := by
  have hother : ∀ o, o < a + 12 → Function.update s.mem (a + 12) f o = s.mem o := fun o ho =>
    Function.update_of_ne (by omega) _ _
  simp only [HeapMem.tagAt, HeapMem.setFlags, Function.update_self]
  rw [load_congr fun o _ h => hother o (by omega), load_congr fun o _ h => hother o (by omega)]

theorem tagAt_setTag_self (hm : tag.magic < 2 ^ 32) (hs : tag.size < 2 ^ 64) :
    (s.setTag a tag).tagAt a = tag := by
  rw [HeapMem.setTag, tagAt_setFlags_self, tagAt_setSize_self, tagAt_setMagic_self,
    Nat.mod_eq_of_lt hm, Nat.mod_eq_of_lt hs]

theorem agree_setSize {lo hi : ℕ} (h₁ : lo ≤ a) (h₂ : a + 13 ≤ hi) :
    AgreeOutside lo hi s.mem (s.setSize a v).mem := agreeOutside_store (by omega) (by omega)

theorem agree_setFlags {lo hi : ℕ} (h₁ : lo ≤ a) (h₂ : a + 13 ≤ hi) :
    AgreeOutside lo hi s.mem (s.setFlags a f).mem := agreeOutside_update (by omega) (by omega)

theorem agree_setTag {lo hi : ℕ} (h₁ : lo ≤ a) (h₂ : a + 13 ≤ hi) :
    AgreeOutside lo hi s.mem (s.setTag a tag).mem := by
  have hmagic : AgreeOutside lo hi s.mem (s.setMagic a tag.magic).mem :=
    agreeOutside_store h₁ (by omega)
  exact (hmagic.trans (agree_setSize h₁ h₂)).trans (agree_setFlags h₁ h₂)

/-- A tag that does not overlap the bytes that change is as before. -/
theorem tagAt_of_agree {lo hi : ℕ} (h : AgreeOutside lo hi s.mem s'.mem)
    (hb : b + 13 ≤ lo ∨ hi ≤ b) : s'.tagAt b = s.tagAt b :=
  tagAt_congr fun o h₁ h₂ => h o (by omega)

theorem tagAt_setSize_ne (h : a + 13 ≤ b ∨ b + 13 ≤ a) : (s.setSize a v).tagAt b = s.tagAt b :=
  tagAt_of_agree (agree_setSize le_rfl le_rfl) (by omega)

theorem tagAt_setFlags_ne (h : a + 13 ≤ b ∨ b + 13 ≤ a) : (s.setFlags a f).tagAt b = s.tagAt b :=
  tagAt_of_agree (agree_setFlags le_rfl le_rfl) (by omega)

theorem tagAt_setTag_ne (h : a + 13 ≤ b ∨ b + 13 ≤ a) : (s.setTag a tag).tagAt b = s.tagAt b :=
  tagAt_of_agree (agree_setTag le_rfl le_rfl) (by omega)

end Tags

/-! ## Blocks -/

structure Block where
  addr : ℕ
  size : ℕ
  taken : Bool
  deriving DecidableEq

namespace Block

/-- Where the footer of a block is. -/
def foot (b : Block) : ℕ := b.addr + 32 + b.size

/-- What a block takes with its header and its footer. -/
def extent (b : Block) : ℕ := b.size + 48

end Block

/-- A header and a footer say what a block is, with the neighbours as given. -/
structure TagsOk (head foot : Tag) (b : Block) (left right : Bool) : Prop where
  headMagic : head.magic = HEAP_HEADER_MAGIC
  headSize : head.size = b.size
  headTaken : head.flags &&& HEAP_BLOCK_TAKEN ≠ 0 ↔ b.taken = true
  hasLeft : head.flags &&& HEAP_BLOCK_HAS_LEFT ≠ 0 ↔ left = true
  footMagic : foot.magic = HEAP_FOOTER_MAGIC
  footSize : foot.size = b.size
  footTaken : foot.flags &&& HEAP_BLOCK_TAKEN ≠ 0 ↔ b.taken = true
  hasRight : foot.flags &&& HEAP_BLOCK_HAS_RIGHT ≠ 0 ↔ right = true

section TagsOk

variable {head foot : Tag} {b : Block} {left right : Bool}

/-- A new block after another one. -/
theorem TagsOk.new (addr n : ℕ) : TagsOk ⟨HEAP_HEADER_MAGIC, n, HEAP_BLOCK_HAS_LEFT⟩
    ⟨HEAP_FOOTER_MAGIC, n, 0⟩ ⟨addr, n, false⟩ true false := by
  constructor <;> first | rfl | (simp only; decide)

theorem TagsOk.setRight (h : TagsOk head foot b left right) :
    TagsOk head { foot with flags := foot.flags ||| HEAP_BLOCK_HAS_RIGHT } b left true := by
  obtain ⟨htaken, hright⟩ := or_hasRight foot.flags
  exact { h with
    footTaken := by rw [htaken]; exact h.footTaken
    hasRight := iff_of_true hright rfl }

theorem TagsOk.resize (h : TagsOk head foot b left right) (n : ℕ) :
    TagsOk { head with size := n } { foot with size := n } { b with size := n } left right :=
  { h with headSize := rfl, footSize := rfl }

/-- The two parts of a free block. -/
theorem TagsOk.splitLeft (h : TagsOk head foot b left right) (hfree : b.taken = false) (n : ℕ) :
    TagsOk { head with size := n } ⟨HEAP_FOOTER_MAGIC, n, HEAP_BLOCK_HAS_RIGHT⟩
      ⟨b.addr, n, false⟩ left true :=
  { h with
    headSize := rfl
    headTaken := by rw [h.headTaken, hfree]
    footMagic := rfl
    footSize := rfl
    footTaken := iff_of_false
      (show ¬ HEAP_BLOCK_HAS_RIGHT &&& HEAP_BLOCK_TAKEN ≠ 0 by decide) Bool.false_ne_true
    hasRight := iff_of_true
      (show HEAP_BLOCK_HAS_RIGHT &&& HEAP_BLOCK_HAS_RIGHT ≠ 0 by decide) rfl }

theorem TagsOk.splitRight (h : TagsOk head foot b left right) (hfree : b.taken = false)
    (addr n : ℕ) : TagsOk ⟨HEAP_HEADER_MAGIC, n, HEAP_BLOCK_HAS_LEFT⟩ { foot with size := n }
      ⟨addr, n, false⟩ true right :=
  { h with
    headMagic := rfl
    headSize := rfl
    headTaken := iff_of_false
      (show ¬ HEAP_BLOCK_HAS_LEFT &&& HEAP_BLOCK_TAKEN ≠ 0 by decide) Bool.false_ne_true
    hasLeft := iff_of_true (show HEAP_BLOCK_HAS_LEFT &&& HEAP_BLOCK_HAS_LEFT ≠ 0 by decide) rfl
    footSize := rfl
    footTaken := by rw [h.footTaken, hfree] }

theorem TagsOk.take (h : TagsOk head foot b left right) :
    TagsOk { head with flags := head.flags ||| HEAP_BLOCK_TAKEN }
      { foot with flags := foot.flags ||| HEAP_BLOCK_TAKEN } { b with taken := true } left right := by
  obtain ⟨hhead, hleft, -⟩ := or_taken head.flags
  obtain ⟨hfoot, -, hright⟩ := or_taken foot.flags
  exact { h with
    headTaken := iff_of_true hhead rfl
    hasLeft := by rw [hleft]; exact h.hasLeft
    footTaken := iff_of_true hfoot rfl
    hasRight := by rw [hright]; exact h.hasRight }

theorem TagsOk.clear (h : TagsOk head foot b left right) :
    TagsOk { head with flags := head.flags &&& ~~~HEAP_BLOCK_TAKEN }
      { foot with flags := foot.flags &&& ~~~HEAP_BLOCK_TAKEN } { b with taken := false }
      left right := by
  obtain ⟨hhead, hleft, -⟩ := clear_taken head.flags
  obtain ⟨hfoot, -, hright⟩ := clear_taken foot.flags
  exact { h with
    headTaken := iff_of_false (not_not_intro hhead) Bool.false_ne_true
    hasLeft := by rw [hleft]; exact h.hasLeft
    footTaken := iff_of_false (not_not_intro hfoot) Bool.false_ne_true
    hasRight := by rw [hright]; exact h.hasRight }

end TagsOk

/-- The tags of a block in memory. -/
abbrev Tagged (s : HeapMem) (b : Block) (left right : Bool) : Prop :=
  TagsOk (s.tagAt b.addr) (s.tagAt b.foot) b left right

/-- The tags of neighbouring blocks; `left` and `right` say whether more blocks come before and
after them. -/
def Layout (s : HeapMem) : Bool → List Block → Bool → Prop
  | _, [], _ => True
  | left, b :: l, right => Tagged s b left (!l.isEmpty || right) ∧ Layout s true l right

section Blocks

variable {s s' : HeapMem} {b : Block} {l l₁ l₂ : List Block} {left right : Bool} {lo hi a c : ℕ}

theorem layout_append :
    Layout s left (l₁ ++ l₂) right ↔
      Layout s left l₁ (!l₂.isEmpty || right) ∧ Layout s (!l₁.isEmpty || left) l₂ right := by
  induction l₁ generalizing left with
  | nil => simp [Layout]
  | cons b l ih => cases l <;> cases l₂ <;> simp_all [Layout, and_assoc]

theorem Tagged.of_agree (h : Tagged s b left right) (ha : AgreeOutside lo hi s.mem s'.mem)
    (hb : b.addr + b.extent ≤ lo ∨ hi ≤ b.addr) : Tagged s' b left right := by
  have hhead : s'.tagAt b.addr = s.tagAt b.addr :=
    tagAt_of_agree ha (by unfold Block.extent at hb; omega)
  have hfoot : s'.tagAt b.foot = s.tagAt b.foot :=
    tagAt_of_agree ha (by unfold Block.extent at hb; unfold Block.foot; omega)
  rw [Tagged, hhead, hfoot]
  exact h

theorem Layout.of_agree (h : Layout s left l right) (ht : Tiles Block.addr Block.extent a l c)
    (ha : AgreeOutside lo hi s.mem s'.mem) (hb : c ≤ lo ∨ hi ≤ a) : Layout s' left l right := by
  induction l generalizing a left with
  | nil => trivial
  | cons b l ih =>
    have hbound := ht.bounds List.mem_cons_self
    obtain ⟨rfl, -, ht⟩ := ht
    exact ⟨h.1.of_agree ha (by omega), ih h.2 ht (by omega)⟩

end Blocks

/-- Where the heap ends. -/
def heapEnd (s : HeapMem) : ℕ := HEAP_BASE_ADDR + 0x200000 * s.nextHeapTable

/-- The blocks `l` cover the heap, and their tags are right. -/
structure HeapOk (s : HeapMem) (l : List Block) : Prop where
  tiles : Tiles Block.addr Block.extent HEAP_BASE_ADDR l (heapEnd s)
  layout : Layout s false l false
  tables : 0 < s.nextHeapTable ∧ s.nextHeapTable ≤ 512

section Heap

variable {s s' : HeapMem} {b : Block} {l pre mid mid' post : List Block} {a c c' : ℕ}

/-- Put other blocks in the place of some neighbouring ones; at the end of the heap, they may go
further. -/
theorem HeapOk.replace (h : HeapOk s (pre ++ mid ++ post)) (hmid : mid ≠ []) (hmid' : mid' ≠ [])
    (ht : Tiles Block.addr Block.extent a mid c) (ht' : Tiles Block.addr Block.extent a mid' c')
    (hpost : Tiles Block.addr Block.extent c' post (heapEnd s'))
    (hagree : AgreeOutside a c' s.mem s'.mem)
    (hlayout : Layout s' (!pre.isEmpty) mid' (!post.isEmpty))
    (htables : 0 < s'.nextHeapTable ∧ s'.nextHeapTable ≤ 512) : HeapOk s' (pre ++ mid' ++ post) := by
  obtain ⟨c₁, htiles, -⟩ := h.tiles.exists_append
  obtain ⟨a₁, hpre, hmid₁⟩ := htiles.exists_append
  obtain ⟨rfl, -⟩ := hmid₁.unique ht hmid
  obtain ⟨hl, hlpost⟩ := layout_append.1 h.layout
  obtain ⟨hlpre, -⟩ := layout_append.1 hl
  have hempty : mid.isEmpty = false := List.isEmpty_eq_false_iff.2 hmid
  have hempty' : mid'.isEmpty = false := List.isEmpty_eq_false_iff.2 hmid'
  refine ⟨(hpre.append ht').append hpost, layout_append.2 ⟨layout_append.2 ⟨?_, ?_⟩, ?_⟩, htables⟩
  · have := hlpre.of_agree hpre hagree (Or.inl le_rfl)
    simpa [hempty, hempty'] using this
  · simpa using hlayout
  · have := hlpost.of_agree hpost hagree (Or.inr le_rfl)
    have happ : ∀ l : List Block, l ≠ [] → (pre ++ l).isEmpty = false := fun l hl =>
      List.isEmpty_eq_false_iff.2 (List.append_ne_nil_of_right_ne_nil pre hl)
    rw [happ mid hmid] at this
    rw [happ mid' hmid']
    exact this

/-- What is known of a block among the others. -/
theorem HeapOk.block (h : HeapOk s (pre ++ b :: post)) :
    Tagged s b (!pre.isEmpty) (!post.isEmpty) ∧
      Tiles Block.addr Block.extent b.addr [b] (b.addr + b.extent) ∧
      Tiles Block.addr Block.extent (b.addr + b.extent) post (heapEnd s) := by
  obtain ⟨a, -, htiles⟩ := h.tiles.exists_append
  obtain ⟨rfl, hpos, hpost⟩ := htiles
  obtain ⟨-, hlayout⟩ := layout_append.1 h.layout
  exact ⟨by simpa using hlayout.1, ⟨rfl, hpos, rfl⟩, hpost⟩

/-- Put other blocks in the place of one. -/
theorem HeapOk.replaceBlock (h : HeapOk s (pre ++ b :: post)) (hmid' : mid' ≠ [])
    (ht' : Tiles Block.addr Block.extent b.addr mid' c')
    (hpost : Tiles Block.addr Block.extent c' post (heapEnd s'))
    (hagree : AgreeOutside b.addr c' s.mem s'.mem)
    (hlayout : Layout s' (!pre.isEmpty) mid' (!post.isEmpty))
    (htables : 0 < s'.nextHeapTable ∧ s'.nextHeapTable ≤ 512) :
    HeapOk s' (pre ++ (mid' ++ post)) := by
  have hsplit : HeapOk s (pre ++ [b] ++ post) := by simpa using h
  rw [← List.append_assoc]
  exact hsplit.replace (by simp) hmid' h.block.2.1 ht' hpost hagree hlayout htables

/-- The heap has at most 1 GB. -/
theorem HeapOk.bounds (h : HeapOk s l) (hb : b ∈ l) :
    HEAP_BASE_ADDR ≤ b.addr ∧ b.addr + b.size + 48 ≤ heapEnd s ∧ b.size + 48 ≤ 2 ^ 30 := by
  obtain ⟨hlo, hhi⟩ := h.tiles.bounds hb
  have htables := h.tables.2
  unfold Block.extent at hhi
  unfold heapEnd at *
  omega

/-- The blocks around a block do not overlap it. -/
theorem HeapOk.around (h : HeapOk s (pre ++ b :: post)) {d : Block} :
    (d ∈ pre → d.addr + d.size + 48 ≤ b.addr) ∧ (d ∈ post → b.addr + b.size + 48 ≤ d.addr) := by
  have hpair := List.pairwise_append.1 h.tiles.pairwise
  refine ⟨fun hd => ?_, fun hd => ?_⟩
  · exact hpair.2.2 d hd b List.mem_cons_self
  · exact List.rel_of_pairwise_cons hpair.2.1 hd

/-- Two blocks do not start at the same address. -/
theorem HeapOk.addr_inj (h : HeapOk s l) {d : Block} (hb : b ∈ l) (hd : d ∈ l)
    (he : b.addr = d.addr) : b = d := by
  by_contra hne
  have hdisj := h.tiles.disjoint hb hd hne
  unfold Before Block.extent at hdisj
  omega

end Heap

end Glidix.Util
