import Glidix.Util.HeapAlloc

/-!
# Freeing a block

A block that is freed is joined with the free blocks on its left and on its right.  In all cases
one free block comes in the place of its neighbours and itself: the header of the leftmost one and
the footer of the rightmost one get the size of the whole (`HeapOk.join`).
-/

namespace Glidix.Util

open Bytes

section Free

variable {s s' : HeapMem} {a b c x y : Block} {l l' pre mid post : List Block} {left right : Bool}
  {n : ℕ}

/-! ## The neighbours -/

theorem freeLeft_head (h : HeapOk s (b :: post)) : freeLeft s b.addr = .ok none := by
  have hb : HeapOk s ([] ++ b :: post) := h
  rw [freeLeft, if_neg]
  exact not_not_intro ((eq_zero_iff hb.block.1.hasLeft).2 rfl)

theorem freeLeft_cons (h : HeapOk s (pre ++ a :: b :: post)) :
    freeLeft s b.addr = .ok (if a.taken = true then none else some a.addr) := by
  have hsplit : HeapOk s ((pre ++ [a]) ++ b :: post) := by simpa using h
  have hleft := hsplit.block.1.hasLeft
  obtain ⟨htag, -, htiles⟩ := h.block
  have haddr : b.addr = a.addr + a.extent := htiles.1
  have hfoot : b.addr - 16 = a.foot := by
    unfold Block.foot
    unfold Block.extent at haddr
    omega
  have hhead : a.foot - a.size - 32 = a.addr := by
    unfold Block.foot
    omega
  rw [freeLeft, if_pos (hleft.2 (by simp))]
  simp only [sizeofFooter, hfoot, heapHeaderFromFooter, sizeofHeader, htag.footSize, hhead]
  rw [if_neg (not_not_intro htag.footMagic)]
  by_cases ht : a.taken = true
  · rw [if_neg (htag.headTaken.2 ht), if_pos ht]
  · rw [if_pos ((eq_zero_iff htag.headTaken).2 (Bool.eq_false_iff.2 ht)), if_neg ht]

theorem freeRight_last (h : HeapOk s (pre ++ [b])) : freeRight s b.foot = .ok none := by
  rw [freeRight, if_neg]
  exact not_not_intro ((eq_zero_iff h.block.1.hasRight).2 rfl)

theorem freeRight_cons (h : HeapOk s (pre ++ b :: c :: post)) :
    freeRight s b.foot = .ok (if c.taken = true then none else some c.foot) := by
  have hsplit : HeapOk s ((pre ++ [b]) ++ c :: post) := by simpa using h
  obtain ⟨htag, -, -⟩ := hsplit.block
  obtain ⟨hb, -, htiles⟩ := h.block
  have haddr : b.foot + 16 = c.addr := by
    have : c.addr = b.addr + b.extent := htiles.1
    unfold Block.foot
    unfold Block.extent at this
    omega
  have hfoot : heapFooterFromHeader s c.addr = c.foot := by
    rw [heapFooterFromHeader, htag.headSize]
    rfl
  rw [freeRight, if_pos (hb.hasRight.2 rfl)]
  simp only [sizeofFooter, haddr, hfoot]
  rw [if_neg (not_not_intro htag.headMagic)]
  by_cases ht : c.taken = true
  · rw [if_neg (htag.headTaken.2 ht), if_pos ht]
  · rw [if_pos ((eq_zero_iff htag.headTaken).2 (Bool.eq_false_iff.2 ht)), if_neg ht]

/-- The blocks before a block end in a free one, `L`, or in none. -/
theorem exists_freeLeft (h : HeapOk s (pre ++ b :: post)) (hp : NoFreePair pre) :
    ∃ pre' L, pre = pre' ++ Option.toList L ∧ (∀ a ∈ L, a.taken = false) ∧
      (∀ a ∈ pre'.getLast?, a.taken = true) ∧ NoFreePair pre' ∧
      freeLeft s b.addr = .ok (L.map Block.addr) := by
  rcases List.eq_nil_or_concat' pre with rfl | ⟨pre, a, rfl⟩
  · exact ⟨[], none, rfl, by simp, by simp, hp, freeLeft_head h⟩
  · have hleft := freeLeft_cons (show HeapOk s (pre ++ a :: b :: post) by simpa using h)
    cases ha : a.taken with
    | true =>
      rw [if_pos ha] at hleft
      exact ⟨pre ++ [a], none, by simp, by simp, by simpa using ha, hp, hleft⟩
    | false =>
      rw [if_neg (by simp [ha])] at hleft
      obtain ⟨hpre, -, hlast⟩ := List.isChain_append.1 hp
      refine ⟨pre, some a, rfl, by simpa using ha, fun d hd => ?_, hpre, hleft⟩
      exact (hlast d hd a rfl).resolve_right (by simp [ha])

/-- The blocks after a block begin with a free one, `R`, or with none. -/
theorem exists_freeRight (h : HeapOk s (pre ++ b :: post)) (hp : NoFreePair post) :
    ∃ post' R, post = Option.toList R ++ post' ∧ (∀ c ∈ R, c.taken = false) ∧
      (∀ c ∈ post'.head?, c.taken = true) ∧ NoFreePair post' ∧
      freeRight s b.foot = .ok (R.map Block.foot) := by
  cases post with
  | nil => exact ⟨[], none, rfl, by simp, by simp, hp, freeRight_last h⟩
  | cons c post =>
    have hright := freeRight_cons h
    cases hc : c.taken with
    | true =>
      rw [if_pos hc] at hright
      exact ⟨c :: post, none, rfl, by simp, by simpa using hc, hp, hright⟩
    | false =>
      rw [if_neg (by simp [hc])] at hright
      obtain ⟨-, hpost, hfirst⟩ := List.isChain_append.1 (show NoFreePair ([c] ++ post) from hp)
      refine ⟨post, some c, rfl, by simpa using hc, fun d hd => ?_, hpost, hright⟩
      exact (hfirst c rfl d hd).resolve_left (by simp [hc])

/-! ## Joining -/

theorem join_tags (hx : Tagged s x left true) (hy : Tagged s y true right)
    (hfx : x.taken = false) (hfy : y.taken = false) (hxy : x.addr + x.extent ≤ y.addr)
    (hn : x.addr + 32 + n = y.foot) (hmax : n < 2 ^ 64) :
    let s' := (s.setSize x.addr n).setSize y.foot n
    Tagged s' ⟨x.addr, n, false⟩ left right ∧
      AgreeOutside x.addr (y.addr + y.extent) s.mem s'.mem := by
  have hfoot : y.foot = y.addr + 32 + y.size := rfl
  simp only [Block.extent] at hxy ⊢
  set s₁ := s.setSize x.addr n with hs₁
  set s₂ := s₁.setSize y.foot n with hs₂
  have hhead : s₂.tagAt x.addr = { s.tagAt x.addr with size := n } := by
    rw [hs₂, tagAt_setSize_ne (by omega), hs₁, tagAt_setSize_self, Nat.mod_eq_of_lt hmax]
  have hfootTag : s₂.tagAt y.foot = { s.tagAt y.foot with size := n } := by
    rw [hs₂, tagAt_setSize_self, hs₁, tagAt_setSize_ne (by omega), Nat.mod_eq_of_lt hmax]
  refine ⟨?_, (agree_setSize le_rfl (by omega)).trans (agree_setSize (by omega) (by omega))⟩
  rw [Tagged, Block.foot, hn, hhead, hfootTag]
  exact { hx with
    headSize := rfl
    headTaken := by rw [hx.headTaken, hfx]
    footMagic := hy.footMagic
    footSize := rfl
    footTaken := by rw [hy.footTaken, hfy]
    hasRight := hy.hasRight }

/-- The free blocks from `x` to `y` become one. -/
theorem HeapOk.join (h : HeapOk s (pre ++ (x :: mid ++ [y]) ++ post)) (hx : x.taken = false)
    (hy : y.taken = false) (hn : x.addr + 32 + n = y.foot) :
    let s' := (s.setSize x.addr n).setSize y.foot n
    HeapOk s' (pre ++ ⟨x.addr, n, false⟩ :: post) ∧
      AgreeOutside x.addr (x.addr + (n + 48)) s.mem s'.mem := by
  have hxs : HeapOk s (pre ++ x :: (mid ++ y :: post)) := by simpa using h
  have hys : HeapOk s ((pre ++ x :: mid) ++ y :: post) := by simpa using h
  obtain ⟨htx, -, -⟩ := hxs.block
  obtain ⟨hty, -, hpost⟩ := hys.block
  have hxy : x.addr + x.extent ≤ y.addr := (hxs.around (d := y)).2 (by simp)
  have hfoot : y.foot = y.addr + 32 + y.size := rfl
  have hend := (h.bounds (b := y) (by simp)).2.1
  have htab := h.tables
  unfold heapEnd HEAP_BASE_ADDR at hend
  have htx' : Tagged s x (!pre.isEmpty) true := by
    rwa [show (mid ++ y :: post).isEmpty = false by simp] at htx
  have hty' : Tagged s y true (!post.isEmpty) := by
    rwa [show (pre ++ x :: mid).isEmpty = false by simp] at hty
  obtain ⟨htag, hagree⟩ := join_tags htx' hty' hx hy hxy hn (by omega)
  have hc : y.addr + y.extent = x.addr + (n + 48) := by
    unfold Block.extent
    omega
  rw [hc] at hagree hpost
  refine ⟨?_, hagree⟩
  obtain ⟨c₁, htiles, -⟩ := h.tiles.exists_append
  obtain ⟨a₁, -, hmid⟩ := htiles.exists_append
  obtain rfl : x.addr = a₁ := hmid.1
  rw [show ∀ j : Block, pre ++ j :: post = pre ++ [j] ++ post by simp]
  exact h.replace (by simp) (by simp) hmid ⟨rfl, Nat.succ_pos _, rfl⟩ hpost hagree
    ⟨by simpa using htag, trivial⟩ htab

theorem joinBlocks_spec {L R : Option Block}
    (h : HeapOk s (pre ++ L.toList ++ b :: (R.toList ++ post))) (hb : b.taken = false)
    (hL : ∀ a ∈ L, a.taken = false) (hR : ∀ c ∈ R, c.taken = false) :
    let s' := joinBlocks s b.addr b.foot (L.map Block.addr) (R.map Block.foot)
    ∃ j : Block, j.taken = false ∧ HeapOk s' (pre ++ j :: post) ∧
      AgreeOutside j.addr (j.addr + j.extent) s.mem s'.mem ∧
      j.addr ≤ b.addr ∧ b.addr + b.extent ≤ j.addr + j.extent := by
  have hbs : (s.tagAt b.addr).size = b.size := h.block.1.headSize
  have hbfoot : b.foot = b.addr + 32 + b.size := rfl
  obtain _ | a := L <;> obtain _ | c := R
  · exact ⟨b, hb, by simpa [joinBlocks] using h, AgreeOutside.refl _ _ _, le_rfl, le_rfl⟩
  · have hc : (s.tagAt c.foot).size = c.size :=
      HeapOk.block (show HeapOk s ((pre ++ [b]) ++ c :: post) by simpa using h) |>.1.footSize
    have hcfoot : c.foot = c.addr + 32 + c.size := rfl
    have hplace : c.addr = b.addr + b.extent := h.block.2.2.1
    rw [Block.extent] at hplace
    obtain ⟨hok, hagree⟩ := HeapOk.join (s := s) (n := b.size + 32 + 16 + c.size)
      (show HeapOk s (pre ++ (b :: [] ++ [c]) ++ post) by simpa using h) hb (hR c rfl) (by omega)
    simp only [Option.map_none, Option.map_some, joinBlocks, hbs, hc, sizeofHeader, sizeofFooter]
    exact ⟨_, rfl, hok, hagree, le_rfl, by simp only [Block.extent]; omega⟩
  · have ha' := HeapOk.block (show HeapOk s (pre ++ a :: b :: post) by simpa using h)
    have ha : (s.tagAt a.addr).size = a.size := ha'.1.headSize
    have hplace : b.addr = a.addr + a.extent := ha'.2.2.1
    rw [Block.extent] at hplace
    obtain ⟨hok, hagree⟩ := HeapOk.join (s := s) (n := a.size + 32 + 16 + b.size)
      (show HeapOk s (pre ++ (a :: [] ++ [b]) ++ post) by simpa using h) (hL a rfl) hb (by omega)
    simp only [Option.map_none, Option.map_some, joinBlocks, hbs, ha, sizeofHeader, sizeofFooter]
    exact ⟨_, rfl, hok, hagree, by simp only; omega, by simp only [Block.extent]; omega⟩
  · have ha' := HeapOk.block (show HeapOk s (pre ++ a :: b :: c :: post) by simpa using h)
    have ha : (s.tagAt a.addr).size = a.size := ha'.1.headSize
    have hc : (s.tagAt c.foot).size = c.size :=
      HeapOk.block (show HeapOk s ((pre ++ [a, b]) ++ c :: post) by simpa using h) |>.1.footSize
    have hcfoot : c.foot = c.addr + 32 + c.size := rfl
    have hplace : b.addr = a.addr + a.extent := ha'.2.2.1
    have hplace' : c.addr = b.addr + b.extent := h.block.2.2.1
    rw [Block.extent] at hplace hplace'
    obtain ⟨hok, hagree⟩ := HeapOk.join (s := s) (n := a.size + c.size + b.size + 2 * 32 + 2 * 16)
      (show HeapOk s (pre ++ (a :: [b] ++ [c]) ++ post) by simpa using h) (hL a rfl) (hR c rfl)
      (by omega)
    simp only [Option.map_some, joinBlocks, hbs, ha, hc, sizeofHeader, sizeofFooter]
    exact ⟨_, rfl, hok, hagree, by simp only; omega, by simp only [Block.extent]; omega⟩

/-! ## Freeing -/

/-- The flags of a block are cleared in its header and its footer. -/
theorem HeapOk.clear (h : HeapOk s (pre ++ b :: post)) :
    let s₁ := s.setFlags b.addr ((s.tagAt b.addr).flags &&& ~~~HEAP_BLOCK_TAKEN)
    let s₂ := s₁.setFlags b.foot ((s₁.tagAt b.foot).flags &&& ~~~HEAP_BLOCK_TAKEN)
    HeapOk s₂ (pre ++ { b with taken := false } :: post) ∧
      AgreeOutside b.addr (b.addr + b.extent) s.mem s₂.mem := by
  obtain ⟨htag, -, hpost⟩ := h.block
  have hfoot : b.foot = b.addr + 32 + b.size := rfl
  have hext : b.extent = b.size + 48 := rfl
  set s₁ := s.setFlags b.addr ((s.tagAt b.addr).flags &&& ~~~HEAP_BLOCK_TAKEN) with hs₁
  set s₂ := s₁.setFlags b.foot ((s₁.tagAt b.foot).flags &&& ~~~HEAP_BLOCK_TAKEN) with hs₂
  have hfoot₁ : s₁.tagAt b.foot = s.tagAt b.foot := tagAt_setFlags_ne (by omega)
  have hhead : s₂.tagAt b.addr =
      { s.tagAt b.addr with flags := (s.tagAt b.addr).flags &&& ~~~HEAP_BLOCK_TAKEN } := by
    rw [hs₂, tagAt_setFlags_ne (by omega), hs₁, tagAt_setFlags_self]
  have hfootTag : s₂.tagAt b.foot =
      { s.tagAt b.foot with flags := (s.tagAt b.foot).flags &&& ~~~HEAP_BLOCK_TAKEN } := by
    rw [hs₂, tagAt_setFlags_self, hfoot₁]
  have hagree : AgreeOutside b.addr (b.addr + b.extent) s.mem s₂.mem :=
    (agree_setFlags le_rfl (by omega)).trans (agree_setFlags (by omega) (by omega))
  have hplace : ({ b with taken := false } : Block).foot = b.foot := rfl
  have htag' : Tagged s₂ { b with taken := false } (!pre.isEmpty) (!post.isEmpty) := by
    rw [Tagged, hplace, hhead, hfootTag]
    exact htag.clear
  have htiles : Tiles Block.addr Block.extent b.addr [{ b with taken := false }]
    (b.addr + b.extent) := ⟨rfl, Nat.succ_pos _, rfl⟩
  exact ⟨h.replaceBlock (List.cons_ne_nil _ _) htiles hpost hagree ⟨htag', trivial⟩ h.tables,
    hagree⟩

/-- The block `b` is free: what else was taken is as before. -/
structure Freed (s : HeapMem) (l : List Block) (s' : HeapMem) (l' : List Block) (b : Block) :
    Prop where
  ok : HeapOk s' l'
  pairs : NoFreePair l'
  taken : ∀ c : Block, c.taken = true → (c ∈ l' ↔ c ∈ l ∧ c ≠ b)
  data : ∀ c ∈ l, c.taken = true → c ≠ b →
    ∀ o, c.addr + 32 ≤ o → o < c.foot → s'.mem o = s.mem o

/-- A free block has come in the place of `b` and its free neighbours. -/
theorem Freed.of_join {j : Block} {L R : Option Block} (hb : b.taken = true)
    (hL : ∀ a ∈ L, a.taken = false) (hR : ∀ c ∈ R, c.taken = false)
    (hok : HeapOk s' (pre ++ j :: post)) (hp : NoFreePair (pre ++ j :: post))
    (hj : j.taken = false) (hagree : AgreeOutside j.addr (j.addr + j.extent) s.mem s'.mem)
    (hlo : j.addr ≤ b.addr) (hhi : b.addr + b.extent ≤ j.addr + j.extent) :
    Freed s (pre ++ L.toList ++ b :: (R.toList ++ post)) s' (pre ++ j :: post) b := by
  -- a taken block of the new list does not overlap `j`
  have hapart : ∀ c ∈ pre ++ j :: post, c.taken = true →
      Before Block.addr Block.extent c j ∨ Before Block.addr Block.extent j c := fun c hc ht =>
    hok.tiles.disjoint hc (by simp) fun e => by rw [e, hj] at ht; cases ht
  have htaken : ∀ c : Block, c.taken = true →
      (c ∈ pre ++ j :: post ↔ c ∈ pre ++ L.toList ++ b :: (R.toList ++ post) ∧ c ≠ b) := by
    intro c hc
    have hcj : c ≠ j := fun e => by rw [e, hj] at hc; cases hc
    have hcL : c ∉ L.toList := fun hm => by rw [hL c (Option.mem_toList.1 hm)] at hc; cases hc
    have hcR : c ∉ R.toList := fun hm => by rw [hR c (Option.mem_toList.1 hm)] at hc; cases hc
    have hcb : c ∈ pre ++ j :: post → c ≠ b := by
      rintro hm rfl
      have := hapart c hm hc
      unfold Before Block.extent at this
      unfold Block.extent at hhi
      omega
    constructor
    · intro hm
      refine ⟨?_, hcb hm⟩
      simp only [List.mem_append, List.mem_cons, hcj, false_or] at hm ⊢
      tauto
    · rintro ⟨hm, hne⟩
      simp only [List.mem_append, List.mem_cons, hcL, hcR, hne, false_or, or_false] at hm ⊢
      tauto
  refine ⟨hok, hp, htaken, fun c hc ht hne o h₁ h₂ => hagree o ?_⟩
  have := hapart c ((htaken c ht).2 ⟨hc, hne⟩) ht
  unfold Before Block.extent at this
  unfold Block.extent
  unfold Block.foot at h₂
  omega

theorem kfree_spec (h : HeapOk s l) (hp : NoFreePair l) (hb : b ∈ l) (ht : b.taken = true) :
    ∃ s' l', kfree s (b.addr + 32) = .ok s' ∧ Freed s l s' l' b := by
  obtain ⟨pre₀, post₀, rfl⟩ := List.append_of_mem hb
  obtain ⟨hpre₀, hpost₀⟩ := List.isChain_split.1 hp
  have hbase := (h.bounds hb).1
  obtain ⟨pre, L, rfl, hL, hlast, hpre, hleft⟩ := exists_freeLeft h hpre₀.left_of_append
  obtain ⟨post, R, rfl, hR, hfirst, hpost, hright⟩ := exists_freeRight h hpost₀.tail
  obtain ⟨htag, -, -⟩ := h.block
  have hfoot : heapFooterFromHeader s b.addr = b.foot := congrArg (b.addr + 32 + ·) htag.headSize
  set s₁ := s.setFlags b.addr ((s.tagAt b.addr).flags &&& ~~~HEAP_BLOCK_TAKEN) with hs₁
  set s₂ := s₁.setFlags b.foot ((s₁.tagAt b.foot).flags &&& ~~~HEAP_BLOCK_TAKEN) with hs₂
  obtain ⟨hclear, hagree⟩ := h.clear
  obtain ⟨j, hj, hok, hagree', hlo, hhi⟩ := joinBlocks_spec hclear rfl hL hR
  have hexec : kfree s (b.addr + 32) =
      .ok (joinBlocks s₂ b.addr b.foot (L.map Block.addr) (R.map Block.foot)) := by
    have hlow : ¬ b.addr + 32 < HEAP_BASE_ADDR + sizeofHeader :=
      Nat.not_lt.2 (Nat.add_le_add_right hbase 32)
    rw [kfree, if_neg (Nat.succ_ne_zero _), if_neg hlow]
    simp only [sizeofHeader, Nat.add_sub_cancel, hfoot]
    rw [if_neg (not_not_intro htag.headMagic), if_neg (not_not_intro htag.footMagic),
      if_neg (htag.headTaken.2 ht), if_neg (by rw [htag.footSize, htag.headSize]; simp), hleft,
      hright]
    rfl
  refine ⟨_, _, hexec, Freed.of_join ht hL hR hok ?_ hj ((hagree.mono hlo hhi).trans hagree') hlo
    hhi⟩
  have hchain : NoFreePair (j :: post) := List.IsChain.cons hpost fun d hd => Or.inr (hfirst d hd)
  refine List.isChain_append.2 ⟨hpre, hchain, fun x hx y hy => ?_⟩
  exact Or.inl (hlast x hx)

end Free

end Glidix.Util
