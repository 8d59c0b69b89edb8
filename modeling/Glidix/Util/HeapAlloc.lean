import Glidix.Util.HeapTags

/-!
# Finding and taking a block

Every step of `kxmallocDynamic` keeps the blocks in order: walking right goes to the next block,
expanding the heap adds a free block or extends the last one, and splitting a free block makes two
of it.  The blocks that were taken before stay as they are, with their data (`Grown`).
-/

namespace Glidix.Util

open Bytes

theorem eq_zero_iff {x : UInt8} {p : Bool} (h : x ≠ 0 ↔ p = true) : x = 0 ↔ p = false := by
  cases p <;> simp_all

section Expand

variable {s s' : HeapMem} {b : Block} {pre post : List Block}

theorem heapWalkRight_spec (h : HeapOk s (pre ++ b :: post)) :
    heapWalkRight s b.addr = .ok (post.head?.map Block.addr) := by
  obtain ⟨htag, -, htiles⟩ := h.block
  have hfoot : b.addr + 32 + b.size + 16 - 16 = b.foot := by
    unfold Block.foot
    omega
  simp only [heapWalkRight, sizeofHeader, sizeofFooter, htag.headSize, hfoot]
  cases post with
  | nil => rw [if_pos ((eq_zero_iff htag.hasRight).2 rfl)]; rfl
  | cons c post =>
    have h' : HeapOk s ((pre ++ [b]) ++ c :: post) := by simpa using h
    have hc : c.addr = b.addr + 32 + b.size + 16 := by
      have := htiles.1
      unfold Block.extent at this
      omega
    rw [if_neg (htag.hasRight.2 rfl), ← hc, if_neg (not_not_intro h'.block.1.headMagic)]
    rfl

/-- The last block reaches the end of the heap. -/
theorem HeapOk.last_eq (h : HeapOk s (pre ++ [b])) : b.addr + b.size + 48 = heapEnd s := by
  have := h.block.2.2
  unfold Tiles Block.extent at this
  omega

/-- What `expandHeap` finds when the heap is in order. -/
theorem HeapOk.lastHead (h : HeapOk s (pre ++ [b])) : heapEnd s - 16 = b.foot ∧
    b.foot - (s.tagAt b.foot).size - 32 = b.addr := by
  have hlast := h.last_eq
  rw [h.block.1.footSize]
  unfold Block.foot
  omega

/-- The table is mapped before the last block is looked at. -/
def mapped (s : HeapMem) : HeapMem := { s with nextHeapTable := s.nextHeapTable + 1 }

theorem heapEnd_mapped (s : HeapMem) : heapEnd (mapped s) = heapEnd s + 0x200000 := by
  rw [heapEnd, heapEnd, mapped, Nat.mul_succ, Nat.add_assoc]

theorem expandHeap_eq (h : HeapOk s (pre ++ [b])) (hmax : s.nextHeapTable ≠ 512) :
    expandHeap s = .ok (if b.taken = true then newLastBlock (mapped s) (heapEnd s) b.foot
      else extendLastBlock (mapped s) (heapEnd s) b.addr) := by
  obtain ⟨hfoot, hhead⟩ := h.lastHead
  have htag := h.block.1
  have hlastFoot : HEAP_BASE_ADDR + 0x200000 * s.nextHeapTable - sizeofFooter = b.foot := hfoot
  have hlastHead : heapHeaderFromFooter (mapped s) b.foot = b.addr := hhead
  have hmagic : ((mapped s).tagAt b.foot).magic = HEAP_FOOTER_MAGIC := htag.footMagic
  have htaken : ((mapped s).tagAt b.addr).flags &&& HEAP_BLOCK_TAKEN ≠ 0 ↔ b.taken = true :=
    htag.headTaken
  rw [expandHeap, if_neg hmax]
  simp only [hlastFoot]
  rw [← mapped, hlastHead, if_neg (not_not_intro hmagic)]
  by_cases ht : b.taken = true
  · rw [if_pos (htaken.2 ht), if_pos ht]
    rfl
  · rw [if_neg fun hne => ht (htaken.1 hne), if_neg ht]
    rfl

theorem newLastBlock_spec {left : Bool} {addr : ℕ} (h : Tagged s b left false)
    (haddr : b.addr + b.size + 48 = addr) :
    let s' := newLastBlock s addr b.foot
    Tagged s' b left true ∧ Tagged s' ⟨addr, 0x200000 - 32 - 16, false⟩ true false ∧
      AgreeOutside b.foot (addr + 0x200000) s.mem s'.mem := by
  have hfoot : b.foot = b.addr + 32 + b.size := rfl
  set s₁ := s.setFlags b.foot ((s.tagAt b.foot).flags ||| HEAP_BLOCK_HAS_RIGHT) with hs₁
  set s₂ := s₁.setTag addr ⟨HEAP_HEADER_MAGIC, 0x200000 - 32 - 16, HEAP_BLOCK_HAS_LEFT⟩ with hs₂
  have hnew : s₂.tagAt addr = ⟨HEAP_HEADER_MAGIC, 0x200000 - 32 - 16, HEAP_BLOCK_HAS_LEFT⟩ :=
    tagAt_setTag_self (by decide) (by decide)
  set s₃ := s₂.setTag (addr + (0x200000 - 32 - 16) + 32)
    ⟨HEAP_FOOTER_MAGIC, 0x200000 - 32 - 16, 0⟩ with hs₃
  have hexec : newLastBlock s addr b.foot = s₃ := by
    simp only [newLastBlock, sizeofHeader, sizeofFooter, ← hs₁, ← hs₂, hnew, ← hs₃]
  have hhead : s₃.tagAt b.addr = s.tagAt b.addr := by
    rw [hs₃, tagAt_setTag_ne (by omega), hs₂, tagAt_setTag_ne (by omega), hs₁,
      tagAt_setFlags_ne (by omega)]
  have hfootTag : s₃.tagAt b.foot =
      { s.tagAt b.foot with flags := (s.tagAt b.foot).flags ||| HEAP_BLOCK_HAS_RIGHT } := by
    rw [hs₃, tagAt_setTag_ne (by omega), hs₂, tagAt_setTag_ne (by omega), hs₁, tagAt_setFlags_self]
  have hnew₃ : s₃.tagAt addr = _ := (tagAt_setTag_ne (by omega)).trans hnew
  have hnewFoot : s₃.tagAt (addr + (0x200000 - 32 - 16) + 32) = _ :=
    tagAt_setTag_self (by decide) (by decide)
  have hplace : (⟨addr, 0x200000 - 32 - 16, false⟩ : Block).foot =
      addr + (0x200000 - 32 - 16) + 32 := Nat.add_right_comm addr 32 _
  simp only [hexec]
  refine ⟨?_, ?_, ?_⟩
  · rw [Tagged, hhead, hfootTag]
    exact h.setRight
  · rw [Tagged, hplace, hnew₃, hnewFoot]
    exact TagsOk.new addr _
  · exact ((agree_setFlags le_rfl (by omega)).trans (agree_setTag (by omega) (by omega))).trans
      (agree_setTag (by omega) (by omega))

/-- After a taken block, the new table is a block of its own. -/
theorem expandHeap_taken (h : HeapOk s (pre ++ [b])) (hmax : s.nextHeapTable ≠ 512)
    (htaken : b.taken = true) : ∃ s', expandHeap s = .ok s' ∧
      HeapOk s' (pre ++ [b, ⟨heapEnd s, 0x200000 - 32 - 16, false⟩]) ∧
      s'.nextHeapTable = s.nextHeapTable + 1 ∧ AgreeOutside b.foot (heapEnd s') s.mem s'.mem := by
  have hexec := expandHeap_eq h hmax
  rw [if_pos htaken] at hexec
  obtain ⟨htag, htb, -⟩ := h.block
  have hlast := h.last_eq
  have htables := h.tables
  have hfoot : b.foot = b.addr + 32 + b.size := rfl
  have hext : b.extent = b.size + 48 := rfl
  obtain ⟨htag', hnew, hagree⟩ := newLastBlock_spec (s := mapped s) (h := htag) hlast
  have hend : heapEnd (newLastBlock (mapped s) (heapEnd s) b.foot) = heapEnd s + 0x200000 :=
    heapEnd_mapped s
  refine ⟨_, hexec, ?_, rfl, ?_⟩
  · have htiles : Tiles Block.addr Block.extent b.addr
        [b, ⟨heapEnd s, 0x200000 - 32 - 16, false⟩] (heapEnd s + 0x200000) := by
      simp only [Tiles, Block.extent, true_and]
      omega
    rw [← List.append_nil [b, _]]
    exact h.replaceBlock (by simp) htiles hend.symm (hagree.mono (by omega) le_rfl)
      ⟨htag', hnew, trivial⟩ ⟨Nat.succ_pos _, Nat.succ_le_of_lt (lt_of_le_of_ne htables.2 hmax)⟩
  · rw [hend]
    exact hagree

theorem extendLastBlock_spec {left : Bool} {addr : ℕ} (h : Tagged s b left false)
    (hfree : b.taken = false) (haddr : b.addr + b.size + 48 = addr) (hsize : b.size < 2 ^ 30) :
    let s' := extendLastBlock s addr b.addr
    Tagged s' { b with size := b.size + 0x200000 } left false ∧
      AgreeOutside b.addr (addr + 0x200000) s.mem s'.mem := by
  set s₁ := s.setSize b.addr (b.size + 0x200000) with hs₁
  have hhead₁ : s₁.tagAt b.addr = { s.tagAt b.addr with size := b.size + 0x200000 } := by
    rw [hs₁, tagAt_setSize_self, Nat.mod_eq_of_lt (by omega)]
  set s₂ := s₁.setTag (addr + 0x200000 - 16) ⟨HEAP_FOOTER_MAGIC, b.size + 0x200000, 0⟩ with hs₂
  have hexec : extendLastBlock s addr b.addr = s₂ := by
    simp only [extendLastBlock, sizeofFooter, h.headSize, ← hs₁, hhead₁, ← hs₂]
  have hhead : s₂.tagAt b.addr = _ := (tagAt_setTag_ne (by omega)).trans hhead₁
  have hfoot : s₂.tagAt (addr + 0x200000 - 16) = ⟨HEAP_FOOTER_MAGIC, b.size + 0x200000, 0⟩ :=
    tagAt_setTag_self (show HEAP_FOOTER_MAGIC < 2 ^ 32 by decide) (by simp only; omega)
  have hplace : ({ b with size := b.size + 0x200000 } : Block).foot = addr + 0x200000 - 16 := by
    show b.addr + 32 + (b.size + 0x200000) = _
    omega
  simp only [hexec]
  refine ⟨?_, (agree_setSize le_rfl (by omega)).trans (agree_setTag (by omega) (by omega))⟩
  rw [Tagged, hplace, hhead, hfoot]
  exact { h with
    headSize := rfl
    footMagic := rfl
    footSize := rfl
    footTaken := iff_of_false (show ¬ (0 : UInt8) &&& HEAP_BLOCK_TAKEN ≠ 0 by decide)
      (by simp [hfree])
    hasRight := iff_of_false (show ¬ (0 : UInt8) &&& HEAP_BLOCK_HAS_RIGHT ≠ 0 by decide)
      Bool.false_ne_true }

/-- A free block at the end goes on over the new table. -/
theorem expandHeap_free (h : HeapOk s (pre ++ [b])) (hmax : s.nextHeapTable ≠ 512)
    (hfree : b.taken = false) : ∃ s', expandHeap s = .ok s' ∧
      HeapOk s' (pre ++ [{ b with size := b.size + 0x200000 }]) ∧
      s'.nextHeapTable = s.nextHeapTable + 1 ∧ AgreeOutside b.addr (heapEnd s') s.mem s'.mem := by
  have hexec := expandHeap_eq h hmax
  rw [if_neg (by simp [hfree])] at hexec
  obtain ⟨htag, htb, -⟩ := h.block
  have hlast := h.last_eq
  have htables := h.tables
  have hsize := (h.bounds (b := b) (by simp)).2.2
  obtain ⟨htag', hagree⟩ := extendLastBlock_spec (s := mapped s) (h := htag) hfree hlast (by omega)
  have hend : heapEnd (extendLastBlock (mapped s) (heapEnd s) b.addr) = heapEnd s + 0x200000 :=
    heapEnd_mapped s
  refine ⟨_, hexec, ?_, rfl, ?_⟩
  · have htiles : Tiles Block.addr Block.extent b.addr
        [{ b with size := b.size + 0x200000 }] (heapEnd s + 0x200000) := by
      simp only [Tiles, Block.extent, true_and]
      omega
    rw [← List.append_nil [_]]
    exact h.replaceBlock (by simp) htiles hend.symm hagree
      ⟨htag', trivial⟩ ⟨Nat.succ_pos _, Nat.succ_le_of_lt (lt_of_le_of_ne htables.2 hmax)⟩
  · rw [hend]
    exact hagree

end Expand

/-! ## Growth -/

/-- No two blocks next to each other are both free. -/
def NoFreePair (l : List Block) : Prop := l.IsChain fun b c => b.taken = true ∨ c.taken = true

/-- The blocks `l` have become `l'`: those that are taken are as before, with their data. -/
structure Grown (s : HeapMem) (l : List Block) (s' : HeapMem) (l' : List Block) : Prop where
  ok : HeapOk s' l'
  pairs : NoFreePair l'
  taken : ∀ c : Block, c.taken = true → (c ∈ l' ↔ c ∈ l)
  data : ∀ c ∈ l, c.taken = true → ∀ o, c.addr + 32 ≤ o → o < c.foot → s'.mem o = s.mem o

section Growth

variable {s s' s'' : HeapMem} {b : Block} {l l' l'' pre post : List Block}

theorem Grown.refl (h : HeapOk s l) (hp : NoFreePair l) : Grown s l s l :=
  ⟨h, hp, fun _ _ => Iff.rfl, fun _ _ _ _ _ _ => rfl⟩

theorem Grown.trans (h : Grown s l s' l') (h' : Grown s' l' s'' l'') : Grown s l s'' l'' where
  ok := h'.ok
  pairs := h'.pairs
  taken c hc := (h'.taken c hc).trans (h.taken c hc)
  data c hc ht o h₁ h₂ :=
    (h'.data c ((h.taken c ht).2 hc) ht o h₁ h₂).trans (h.data c hc ht o h₁ h₂)

theorem noFreePair_take {c : Block} (h : NoFreePair (pre ++ b :: post)) (hc : c.taken = true) :
    NoFreePair (pre ++ c :: post) := by
  obtain ⟨hpre, hpost⟩ := List.isChain_split.1 h
  refine List.isChain_split.2 ⟨?_, ?_⟩
  · exact List.isChain_append.2 ⟨hpre.left_of_append, List.IsChain.singleton c, fun x _ y hy => by
      obtain rfl : c = y := by simpa using hy
      exact Or.inr hc⟩
  · cases post with
    | nil => exact List.IsChain.singleton c
    | cons d post => exact List.IsChain.cons_cons (Or.inl hc) hpost.tail

theorem noFreePair_append {c : Block} (h : NoFreePair (pre ++ [b])) (hb : b.taken = true) :
    NoFreePair (pre ++ [b, c]) := by
  rw [show pre ++ [b, c] = (pre ++ [b]) ++ [c] by simp]
  refine List.isChain_append.2 ⟨h, List.IsChain.singleton c, fun x hx y _ => ?_⟩
  obtain rfl : b = x := by simpa using hx
  exact Or.inl hb

theorem noFreePair_iff_map (l : List Block) :
    NoFreePair l ↔ (l.map Block.taken).IsChain fun x y => x = true ∨ y = true := by
  rw [List.isChain_map]
  rfl

theorem noFreePair_congr {c : Block} (h : NoFreePair (pre ++ b :: post))
    (hc : c.taken = b.taken) : NoFreePair (pre ++ c :: post) := by
  rw [noFreePair_iff_map] at h ⊢
  simpa only [List.map_append, List.map_cons, hc] using h

/-- What one expansion does when it is possible. -/
theorem expandHeap_grown (h : HeapOk s (pre ++ [b])) (hp : NoFreePair (pre ++ [b])) :
    expandHeap s = .error .outOfHeap ∨ ∃ s' pre' b', expandHeap s = .ok s' ∧
      Grown s (pre ++ [b]) s' (pre' ++ [b']) ∧ b'.taken = false ∧
      s'.nextHeapTable = s.nextHeapTable + 1 ∧
      (b.taken = true → pre' = pre ++ [b]) ∧
      (b.taken = false → pre' = pre ∧ b'.addr = b.addr) := by
  by_cases hmax : s.nextHeapTable = 512
  · exact Or.inl (if_pos hmax)
  · refine Or.inr ?_
    cases hb : b.taken with
    | true =>
      obtain ⟨s', hexec, hok, htab, hagree⟩ := expandHeap_taken h hmax hb
      refine ⟨s', pre ++ [b], ⟨heapEnd s, 0x200000 - 32 - 16, false⟩, hexec, ⟨by simpa using hok, by
        simpa using noFreePair_append hp hb, fun c hc => ?_, fun c hc _ o _ ho => hagree o ?_⟩, rfl,
        htab, fun _ => rfl, by simp⟩
      · rw [List.mem_append (s := pre ++ [b]), List.mem_singleton]
        refine or_iff_left fun e => ?_
        rw [e] at hc
        cases hc
      · have hlast := h.last_eq
        have hbound := (h.bounds hc).2.1
        unfold Block.foot at *
        omega
    | false =>
      obtain ⟨s', hexec, hok, htab, hagree⟩ := expandHeap_free h hmax hb
      refine ⟨s', pre, { b with size := b.size + 0x200000 }, hexec, ⟨hok, noFreePair_congr hp rfl,
        fun c hc => ?_, fun c hc ht o _ ho => hagree o ?_⟩, hb, htab, by simp, fun _ => ⟨rfl, rfl⟩⟩
      · have hother : ∀ d : Block, d.taken = false → c ∉ [d] := fun d hd hm => by
          rw [List.mem_singleton.1 hm, hd] at hc
          cases hc
        rw [List.mem_append, List.mem_append, or_iff_left (hother _ hb)]
        exact or_iff_left (hother { b with size := b.size + 0x200000 } hb)
      · have hpre : c ∈ pre := by
          rcases List.mem_append.1 hc with hc | hc
          · exact hc
          · obtain rfl := List.mem_singleton.1 hc
            exact absurd (hb.symm.trans ht) Bool.false_ne_true
        have := h.around.1 hpre
        unfold Block.foot at ho
        omega

/-- The loop that makes the last block large enough ends. -/
theorem growHead_spec {rounds : ℕ} (size : ℕ) (hr : 512 - s.nextHeapTable < rounds)
    (h : HeapOk s (pre ++ [b])) (hp : NoFreePair (pre ++ [b])) (hb : b.taken = false) :
    growHead rounds s b.addr size = .error .outOfHeap ∨
      ∃ s' b', growHead rounds s b.addr size = .ok s' ∧ Grown s (pre ++ [b]) s' (pre ++ [b']) ∧
        b'.addr = b.addr ∧ b'.taken = false ∧ size ≤ b'.size := by
  induction rounds generalizing s b with
  | zero => omega
  | succ rounds ih =>
    rw [growHead, h.block.1.headSize]
    split_ifs with hsize
    · rcases expandHeap_grown h hp with he | ⟨s₁, pre₁, b₁, he, hg, hb₁, htab, -, hfree⟩
      · rw [he]
        exact Or.inl rfl
      · obtain ⟨rfl, haddr⟩ := hfree hb
        rw [he, ← haddr]
        have := hg.ok.tables.2
        rcases ih (by omega) hg.ok hg.pairs hb₁ with hend | ⟨s', b', hexec, hg', hrest⟩
        · exact Or.inl hend
        · exact Or.inr ⟨s', b', hexec, hg.trans hg', hrest⟩
    · exact Or.inr ⟨s, b, rfl, Grown.refl h hp, rfl, hb, Nat.le_of_not_lt hsize⟩

theorem expandTaken_spec (h : HeapOk s (pre ++ [b])) (hp : NoFreePair (pre ++ [b])) :
    expandTaken s b.addr = .error .outOfHeap ∨
      ∃ s' pre' b', expandTaken s b.addr = .ok (s', b'.addr) ∧
        Grown s (pre ++ [b]) s' (pre' ++ [b']) ∧ b'.taken = false := by
  have htaken := h.block.1.headTaken
  rw [expandTaken]
  split_ifs with ht
  · have hb := htaken.1 ht
    rcases expandHeap_grown h hp with he | ⟨s', pre', b', he, hg, hb', -, hpre, -⟩
    · rw [he]
      exact Or.inl rfl
    · obtain rfl := hpre hb
      have hok : HeapOk s' (pre ++ b :: [b']) := by simpa using hg.ok
      have hwalk : heapWalkRight s' b.addr = .ok (some b'.addr) := heapWalkRight_spec hok
      rw [he]
      simp only [bind, Except.bind, hwalk]
      exact Or.inr ⟨s', _, b', rfl, hg, hb'⟩
  · refine Or.inr ⟨s, pre, b, rfl, Grown.refl h hp, ?_⟩
    exact Bool.eq_false_iff.2 fun hb => ht (htaken.2 hb)

/-- The loop over the blocks ends at a free block that is large enough. -/
theorem findHead_spec {rounds : ℕ} (size : ℕ) (hr : post.length + 514 ≤ rounds)
    (h : HeapOk s (pre ++ b :: post)) (hp : NoFreePair (pre ++ b :: post)) :
    findHead rounds s b.addr size = .error .outOfHeap ∨
      ∃ s' pre' b' post', findHead rounds s b.addr size = .ok (s', b'.addr) ∧
        Grown s (pre ++ b :: post) s' (pre' ++ b' :: post') ∧ b'.taken = false ∧
        size ≤ b'.size := by
  induction rounds generalizing pre b post with
  | zero => omega
  | succ rounds ih =>
    have htag := h.block.1
    rw [findHead, htag.headSize, heapWalkRight_spec h]
    split_ifs with hnext
    · cases post with
      | nil =>
        simp only [List.head?_nil, Option.map_none, bind, Except.bind]
        rcases expandTaken_spec h hp with he | ⟨s₁, pre₁, b₁, he, hg₁, hb₁⟩
        · rw [he]
          exact Or.inl rfl
        · rw [he]
          rcases growHead_spec size (by simp only [List.length_nil] at hr; omega : _ < rounds)
            hg₁.ok hg₁.pairs hb₁ with hgrow | ⟨s₂, b₂, hgrow, hg₂, haddr, hb₂, hsize⟩
          · exact Or.inl (by simp only [hgrow])
          · refine Or.inr ⟨s₂, pre₁, b₂, [], ?_, hg₁.trans hg₂, hb₂, hsize⟩
            have htag₂ := hg₂.ok.block.1
            rw [haddr]
            simp only [hgrow]
            -- the loop condition is false at once
            cases rounds with
            | zero => simp at hr
            | succ rounds =>
              rw [findHead, ← haddr, htag₂.headSize, if_neg]
              rw [not_or]
              exact ⟨not_not_intro ((eq_zero_iff htag₂.headTaken).2 hb₂), Nat.not_lt.2 hsize⟩
      | cons c post =>
        have hsplit : pre ++ b :: c :: post = (pre ++ [b]) ++ c :: post := by simp
        rw [hsplit] at h hp ⊢
        exact ih (by simp only [List.length_cons] at hr; omega) h hp
    · obtain ⟨hfree, hsize⟩ := not_or.1 hnext
      refine Or.inr ⟨s, pre, b, post, rfl, Grown.refl h hp, ?_, Nat.le_of_not_lt hsize⟩
      exact (eq_zero_iff htag.headTaken).1 (not_not.1 hfree)

end Growth

/-! ## Taking a block -/

section Take

variable {s s' : HeapMem} {b c : Block} {l l' pre post : List Block} {left right : Bool} {size : ℕ}

theorem heapSplitBlock_tags (h : Tagged s b left right) (hfree : b.taken = false)
    (hb : size + 56 < b.size) (hmax : b.size < 2 ^ 30) :
    let s' := heapSplitBlock s b.addr size
    Tagged s' ⟨b.addr, size, false⟩ left true ∧
      Tagged s' ⟨b.addr + size + 48, b.size - (size + 48), false⟩ true right ∧
      AgreeOutside b.addr (b.addr + b.extent) s.mem s'.mem := by
  have hext : b.extent = b.size + 48 := rfl
  have hfoot : b.foot = b.addr + 32 + b.size := rfl
  set n := b.size - (size + 48) with hn
  set s₁ := s.setSize b.addr size with hs₁
  set s₂ := s₁.setSize b.foot n with hs₂
  set s₃ := s₂.setTag (b.addr + size + 48) ⟨HEAP_HEADER_MAGIC, n, HEAP_BLOCK_HAS_LEFT⟩ with hs₃
  set s₄ := s₃.setTag (b.addr + 32 + size) ⟨HEAP_FOOTER_MAGIC, size, HEAP_BLOCK_HAS_RIGHT⟩ with hs₄
  have hfoot₁ : s₁.tagAt b.foot = s.tagAt b.foot := tagAt_setSize_ne (by omega)
  have hfoot₂ : s₂.tagAt b.foot = { s.tagAt b.foot with size := n } := by
    rw [hs₂, tagAt_setSize_self, hfoot₁, Nat.mod_eq_of_lt (by omega)]
  have hexec : heapSplitBlock s b.addr size = s₄ := by
    have hplace : b.addr + 32 + size + 16 = b.addr + size + 48 := by omega
    simp only [heapSplitBlock, sizeofHeader, sizeofFooter, h.headSize, ← hfoot, ← hs₁, hfoot₁,
      h.footSize, Nat.add_assoc size 32 16, Nat.reduceAdd, ← hn, ← hs₂, hfoot₂, hplace, ← hs₃,
      ← hs₄]
  have hhead : s₄.tagAt b.addr = { s.tagAt b.addr with size := size } := by
    rw [hs₄, tagAt_setTag_ne (by omega), hs₃, tagAt_setTag_ne (by omega), hs₂,
      tagAt_setSize_ne (by omega), hs₁, tagAt_setSize_self, Nat.mod_eq_of_lt (by omega)]
  have hnewFoot : s₄.tagAt (b.addr + 32 + size) = _ :=
    tagAt_setTag_self (show HEAP_FOOTER_MAGIC < 2 ^ 32 by decide) (by simp only; omega)
  have hnewHead : s₄.tagAt (b.addr + size + 48) = _ :=
    (tagAt_setTag_ne (by omega)).trans
      (tagAt_setTag_self (show HEAP_HEADER_MAGIC < 2 ^ 32 by decide) (by simp only; omega))
  have hfoot₄ : s₄.tagAt b.foot = _ :=
    ((tagAt_setTag_ne (by omega)).trans (tagAt_setTag_ne (by omega))).trans hfoot₂
  have hplace : (⟨b.addr + size + 48, n, false⟩ : Block).foot = b.foot := by
    show b.addr + size + 48 + 32 + n = b.foot
    omega
  simp only [hexec]
  refine ⟨?_, ?_, ?_⟩
  · rw [Tagged, hhead, Block.foot, hnewFoot]
    exact h.splitLeft hfree size
  · rw [Tagged, hplace, hnewHead, hfoot₄]
    exact h.splitRight hfree _ n
  · exact (((agree_setSize le_rfl (by omega)).trans (agree_setSize (by omega) (by omega))).trans
      (agree_setTag (by omega) (by omega))).trans (agree_setTag (by omega) (by omega))

theorem takeBlock_tags (h : Tagged s b left right) (aid lineno : ℕ) :
    let s' := takeBlock s b.addr aid lineno
    Tagged s' { b with taken := true } left right ∧
      AgreeOutside b.addr (b.addr + b.extent) s.mem s'.mem := by
  have hext : b.extent = b.size + 48 := rfl
  have hfoot : b.foot = b.addr + 32 + b.size := rfl
  set s₁ := s.setFlags b.addr ((s.tagAt b.addr).flags ||| HEAP_BLOCK_TAKEN) with hs₁
  set s₂ : HeapMem := { s₁ with mem := store 8 s₁.mem (b.addr + 13) aid } with hs₂
  set s₃ : HeapMem := { s₂ with mem := store 4 s₂.mem (b.addr + 21) lineno } with hs₃
  have hagree₂ : AgreeOutside (b.addr + 13) (b.addr + 25) s₁.mem s₂.mem :=
    agreeOutside_store le_rfl (by omega)
  have hagree₃ : AgreeOutside (b.addr + 13) (b.addr + 25) s₂.mem s₃.mem :=
    agreeOutside_store (by omega) (by omega)
  have hagree : AgreeOutside (b.addr + 13) (b.addr + 25) s₁.mem s₃.mem := hagree₂.trans hagree₃
  have hhead₃ : s₃.tagAt b.addr =
      { s.tagAt b.addr with flags := (s.tagAt b.addr).flags ||| HEAP_BLOCK_TAKEN } := by
    rw [tagAt_of_agree hagree (by omega), hs₁, tagAt_setFlags_self]
  have hfoot₃ : s₃.tagAt b.foot = s.tagAt b.foot := by
    rw [tagAt_of_agree hagree (by omega), hs₁, tagAt_setFlags_ne (by omega)]
  set s₄ := s₃.setFlags b.foot ((s.tagAt b.foot).flags ||| HEAP_BLOCK_TAKEN) with hs₄
  have hexec : takeBlock s b.addr aid lineno = s₄ := by
    have hplace : heapFooterFromHeader s₃ b.addr = b.foot := by
      rw [heapFooterFromHeader, hhead₃]
      exact congrArg (b.addr + 32 + ·) h.headSize
    show s₃.setFlags (heapFooterFromHeader s₃ b.addr) _ = s₄
    rw [hplace, hfoot₃, hs₄]
  have hhead : s₄.tagAt b.addr = _ := (tagAt_setFlags_ne (by omega)).trans hhead₃
  have hfootTag : s₄.tagAt b.foot =
      { s.tagAt b.foot with flags := (s.tagAt b.foot).flags ||| HEAP_BLOCK_TAKEN } := by
    rw [hs₄, tagAt_setFlags_self, hfoot₃]
  have hplace : ({ b with taken := true } : Block).foot = b.foot := rfl
  simp only [hexec]
  refine ⟨?_, ?_⟩
  · rw [Tagged, hplace, hhead, hfootTag]
    exact h.take
  · exact ((agree_setFlags le_rfl (by omega)).trans (hagree.mono (by omega) (by omega))).trans
      (agree_setFlags (by omega) (by omega))

/-- The block `b` has been given out: it is new, and what was taken is as before. -/
structure Allocated (s : HeapMem) (l : List Block) (s' : HeapMem) (l' : List Block) (b : Block) :
    Prop where
  ok : HeapOk s' l'
  pairs : NoFreePair l'
  isTaken : b.taken = true
  fresh : b ∉ l
  taken : ∀ c : Block, c.taken = true → (c ∈ l' ↔ c ∈ l ∨ c = b)
  data : ∀ c ∈ l, c.taken = true → ∀ o, c.addr + 32 ≤ o → o < c.foot → s'.mem o = s.mem o

/-- Something is taken in the place of a free block. -/
theorem Grown.allocated {s₁ : HeapMem} {d : Block} (hg : Grown s l s₁ (pre ++ d :: post))
    (rest : List Block) (hd : d.taken = false)
    (hok : HeapOk s' (pre ++ (b :: rest ++ post))) (hp : NoFreePair (pre ++ (b :: rest ++ post)))
    (hb : b.taken = true) (haddr : b.addr = d.addr) (hrest : ∀ c ∈ rest, c.taken = false)
    (hagree : AgreeOutside d.addr (d.addr + d.extent) s₁.mem s'.mem) :
    Allocated s l s' (pre ++ (b :: rest ++ post)) b where
  ok := hok
  pairs := hp
  isTaken := hb
  fresh hm := by
    have hmem := (hg.taken b hb).2 hm
    have := hg.ok.addr_inj hmem (d := d) (by simp) haddr
    rw [this, hd] at hb
    cases hb
  taken c hc := by
    have hcd : c ≠ d := fun e => by rw [e, hd] at hc; cases hc
    have hcr : c ∉ rest := fun hm => by rw [hrest c hm] at hc; cases hc
    rw [← hg.taken c hc]
    simp only [List.mem_append, List.mem_cons, hcd, hcr]
    tauto
  data c hc ht o h₁ h₂ := by
    rw [← hg.data c hc ht o h₁ h₂]
    have hmem := (hg.taken c ht).2 hc
    have hcd : c ≠ d := fun e => by rw [e, hd] at ht; cases ht
    refine hagree o ?_
    have hdisj := hg.ok.tiles.disjoint hmem (y := d) (by simp) hcd
    unfold Before Block.extent at hdisj
    unfold Block.extent
    unfold Block.foot at h₂
    omega

theorem noFreePair_split (h : NoFreePair (pre ++ b :: post)) (hb : b.taken = false) {d : Block}
    (hc : c.taken = true) (hd : d.taken = false) : NoFreePair (pre ++ c :: d :: post) := by
  have hpre := (List.isChain_split.1 (noFreePair_take h hc)).1
  have hpost : NoFreePair ([] ++ b :: post) := (List.isChain_split.1 h).2
  exact List.isChain_split.2 ⟨hpre, List.IsChain.cons_cons (Or.inl hc)
    (noFreePair_congr hpost (hd.trans hb.symm))⟩

/-- A free block that is large enough is given out, and what it has too much becomes a block. -/
theorem splitTake_spec {s₁ : HeapMem} (hg : Grown s l s₁ (pre ++ b :: post))
    (hb : b.taken = false) (hsize : size ≤ b.size) (aid lineno : ℕ) :
    ∃ l' c, c.addr = b.addr ∧ size ≤ c.size ∧
      Allocated s l (takeBlock (if (s₁.tagAt b.addr).size > (size + 32 + 16 + 8) % 2 ^ 64 then
        heapSplitBlock s₁ b.addr size else s₁) b.addr aid lineno) l' c := by
  obtain ⟨htag, -, hpost⟩ := hg.ok.block
  have hmax := (hg.ok.bounds (b := b) (by simp)).2.2
  have htab := hg.ok.tables
  have hext : b.extent = b.size + 48 := rfl
  rw [htag.headSize, Nat.mod_eq_of_lt (show size + 32 + 16 + 8 < 2 ^ 64 by omega)]
  split_ifs with hlarge
  · obtain ⟨hl, hr, hsplit⟩ := heapSplitBlock_tags htag hb (by omega : size + 56 < b.size) (by omega)
    obtain ⟨htake, hagree⟩ := takeBlock_tags hl aid lineno
    simp only [Block.extent] at hagree
    have hr' := hr.of_agree hagree (Or.inr (by simp only; omega))
    refine ⟨_, ⟨b.addr, size, true⟩, rfl, le_rfl, hg.allocated
      [⟨b.addr + size + 48, b.size - (size + 48), false⟩] hb ?_
      (noFreePair_split hg.pairs hb rfl rfl) rfl rfl (by simp)
      (hsplit.trans (hagree.mono le_rfl (by omega)))⟩
    refine hg.ok.replaceBlock (by simp) ?_ hpost
      (hsplit.trans (hagree.mono le_rfl (by omega))) ⟨htake, hr', trivial⟩ htab
    simp only [Tiles, Block.extent, true_and]
    exact ⟨by omega, by omega, by omega, by omega⟩
  · obtain ⟨htake, hagree⟩ := takeBlock_tags htag aid lineno
    refine ⟨_, { b with taken := true }, rfl, hsize, hg.allocated [] hb ?_
      (noFreePair_take hg.pairs rfl) rfl rfl (by simp) hagree⟩
    exact hg.ok.replaceBlock (by simp) ⟨rfl, by rw [Block.extent]; omega, rfl⟩ hpost hagree
      ⟨htake, trivial⟩ htab

/-- The heap has at least one block, and the number of blocks is limited by its size. -/
theorem HeapOk.exists_cons (h : HeapOk s l) :
    ∃ b post, l = b :: post ∧ b.addr = HEAP_BASE_ADDR ∧ post.length + 514 ≤ heapRounds := by
  have htables := h.tables
  have htiles := h.tiles
  cases l with
  | nil =>
    have hend : HEAP_BASE_ADDR = heapEnd s := htiles
    unfold heapEnd at hend
    omega
  | cons b post =>
    refine ⟨b, post, rfl, htiles.1, ?_⟩
    have hsum := htiles.sum_size
    have hlen := List.card_nsmul_le_sum ((b :: post).map Block.extent) 48 fun n hn => by
      obtain ⟨c, -, rfl⟩ := List.mem_map.1 hn
      exact Nat.le_add_left 48 c.size
    rw [List.length_map, List.length_cons, Nat.nsmul_eq_mul] at hlen
    unfold heapEnd at hsum
    unfold heapRounds
    omega

theorem le_roundSize (h : size ≤ 2 ^ 64 - 16) : size ≤ roundSize size := by
  unfold roundSize
  split_ifs with hmod
  · rw [Nat.mod_eq_of_lt (by omega)]
    omega
  · exact le_rfl

/-- What the allocator gives: nothing, when the heap would be larger than 1 GB, or a new block that
is large enough. -/
theorem kxmallocDynamic_spec (h : HeapOk s l) (hp : NoFreePair l) (hmax : size ≤ 2 ^ 64 - 16)
    (aid lineno : ℕ) :
    kxmallocDynamic s size aid lineno = .error .outOfHeap ∨
      ∃ s' l' b, kxmallocDynamic s size aid lineno = .ok (b.addr + 32, s') ∧
        Allocated s l s' l' b ∧ size ≤ b.size := by
  set n := roundSize size with hn
  have hsize : size ≤ n := le_roundSize hmax
  obtain ⟨b, post, rfl, haddr, hr⟩ := h.exists_cons
  have hb : HeapOk s ([] ++ b :: post) := h
  rcases findHead_spec n hr hb hp with he | ⟨s₁, pre₁, b₁, post₁, he, hg, hb₁, hle⟩
  · refine Or.inl ?_
    rw [kxmallocDynamic, ← hn, ← haddr, he]
    rfl
  · obtain ⟨l', c, hc, hcsize, ha⟩ := splitTake_spec hg hb₁ hle aid lineno
    refine Or.inr ⟨_, l', c, ?_, ha, hsize.trans hcsize⟩
    rw [kxmallocDynamic, ← hn, ← haddr, he, hc]
    rfl

end Take

end Glidix.Util
