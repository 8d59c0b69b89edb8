import Glidix.Util.HeapFree

/-!
# Runs of the heap

The blocks that are held are the blocks that are taken (`Sound`), and every call keeps it so: a call
frees at most one block and gives out at most one (`Exchanged`).  Only `krealloc` can fail
otherwise than for lack of memory: it does not look whether `kmalloc` returned `NULL`.
-/

namespace Glidix.Util

open Bytes

section Calls

variable {s s' : HeapMem} {b c : Block} {l l' : List Block} {block size ret : ℕ}
  {new : Option Block}

/-! ## One call -/

/-- A call that frees `block` and returns `ret`: the block `new` is given out, and what else was
taken is as before, with its data. -/
structure Exchanged (s : HeapMem) (l : List Block) (s' : HeapMem) (l' : List Block)
    (block size ret : ℕ) (new : Option Block) : Prop where
  ok : HeapOk s' l'
  pairs : NoFreePair l'
  ret_eq : ret = new.elim 0 fun b => b.addr + 32
  isTaken : ∀ b ∈ new, b.taken = true ∧ b ∉ l ∧ size ≤ b.size
  taken : ∀ c : Block, c.taken = true →
    (c ∈ l' ↔ (c ∈ l ∧ c.addr + 32 ≠ block) ∨ new = some c)
  data : ∀ c ∈ l, c.taken = true → c.addr + 32 ≠ block →
    ∀ o, c.addr + 32 ≤ o → o < c.foot → s'.mem o = s.mem o

/-- A call that does nothing. -/
theorem Exchanged.refl (h : HeapOk s l) (hp : NoFreePair l) : Exchanged s l s l 0 size 0 none :=
  ⟨h, hp, rfl, by simp, fun c _ => by simp, fun _ _ _ _ _ _ _ => rfl⟩

theorem Allocated.exchanged (h : Allocated s l s' l' b) (hsize : size ≤ b.size) :
    Exchanged s l s' l' 0 size (b.addr + 32) (some b) where
  ok := h.ok
  pairs := h.pairs
  ret_eq := rfl
  isTaken _ hc := Option.some.inj hc ▸ ⟨h.isTaken, h.fresh, hsize⟩
  taken c hc := by simp [h.taken c hc, eq_comm]
  data c hc ht _ := h.data c hc ht

theorem kmalloc_spec (h : HeapOk s l) (hp : NoFreePair l) (size aid lineno : ℕ) :
    kmalloc s size aid lineno = .error .outOfHeap ∨
      ∃ ret s' l' new, kmalloc s size aid lineno = .ok (ret, s') ∧
        Exchanged s l s' l' 0 size ret new ∧ (new = none → size = 0 ∨ size ≥ 0x40000000) := by
  by_cases hzero : size = 0
  · exact Or.inr ⟨0, s, l, none, if_pos hzero, Exchanged.refl h hp, fun _ => Or.inl hzero⟩
  · by_cases hlarge : size ≥ 0x40000000
    · refine Or.inr ⟨0, s, l, none, ?_, Exchanged.refl h hp, fun _ => Or.inr hlarge⟩
      rw [kmalloc, if_neg hzero, if_pos hlarge]
    · rw [kmalloc, if_neg hzero, if_neg hlarge]
      rcases kxmallocDynamic_spec h hp (by omega : size ≤ _) aid lineno with
        he | ⟨s', l', b, he, ha, hsize⟩
      · exact Or.inl he
      · exact Or.inr ⟨_, s', l', some b, he, ha.exchanged hsize, by simp⟩

/-- The data of a block may be written. -/
theorem HeapOk.write (h : HeapOk s l) (hb : b ∈ l)
    (hagree : AgreeOutside (b.addr + 32) b.foot s.mem s'.mem)
    (htab : s'.nextHeapTable = s.nextHeapTable) : HeapOk s' l := by
  have htags : ∀ c ∈ l, s'.tagAt c.addr = s.tagAt c.addr ∧ s'.tagAt c.foot = s.tagAt c.foot := by
    intro c hc
    have hfoot : c.foot = c.addr + 32 + c.size := rfl
    by_cases hcb : c = b
    · rw [hcb] at *
      exact ⟨tagAt_of_agree hagree (by omega), tagAt_of_agree hagree (by omega)⟩
    · have hdisj := h.tiles.disjoint hc hb hcb
      have hbfoot : b.foot = b.addr + 32 + b.size := rfl
      unfold Before Block.extent at hdisj
      exact ⟨tagAt_of_agree hagree (by omega), tagAt_of_agree hagree (by omega)⟩
  have hlayout : ∀ l₁ : List Block, l₁ ⊆ l → ∀ left right, Layout s left l₁ right →
      Layout s' left l₁ right := by
    intro l₁
    induction l₁ with
    | nil => exact fun _ _ _ _ => trivial
    | cons c l₁ ih =>
      intro hsub left right hl
      obtain ⟨hhead, hfoot⟩ := htags c (hsub List.mem_cons_self)
      refine ⟨?_, ih (fun d hd => hsub (List.mem_cons_of_mem c hd)) _ _ hl.2⟩
      rw [Tagged, hhead, hfoot]
      exact hl.1
  exact ⟨by rw [heapEnd, htab]; exact h.tiles, hlayout l (fun _ => id) _ _ h.layout,
    by rw [htab]; exact h.tables⟩

/-- A block is given out, its data is written, and the block `b` is freed. -/
theorem Exchanged.free {s₁ s₂ : HeapMem} {l₁ : List Block}
    (ha : Exchanged s l s₁ l₁ 0 size ret new) (h : HeapOk s l) (hb : b ∈ l)
    (hwrite : ∀ c ∈ l₁, some c ≠ new → ∀ o, c.addr + 32 ≤ o → o < c.foot → s₂.mem o = s₁.mem o)
    (hf : Freed s₂ l₁ s' l' b) : Exchanged s l s' l' (b.addr + 32) size ret new := by
  have hold : ∀ c ∈ l, c.taken = true → c ∈ l₁ := fun c hc htc =>
    (ha.taken c htc).2 (Or.inl ⟨hc, Nat.succ_ne_zero _⟩)
  have hne : ∀ c ∈ l, (c.addr + 32 ≠ b.addr + 32 ↔ c ≠ b) := fun c hc =>
    ⟨fun hca e => hca (e ▸ rfl), fun hca e => hca (h.addr_inj hc hb (Nat.add_right_cancel e))⟩
  have hnew : ∀ c, new = some c → c ∉ l := fun c hc => (ha.isTaken c hc).2.1
  refine ⟨hf.ok, hf.pairs, ha.ret_eq, ha.isTaken, fun c hc => ?_, fun c hc htc hca o h₁ h₂ => ?_⟩
  · rw [hf.taken c hc, ha.taken c hc]
    constructor
    · rintro ⟨⟨hcl, -⟩ | hcn, hcb⟩
      · exact Or.inl ⟨hcl, (hne c hcl).2 hcb⟩
      · exact Or.inr hcn
    · rintro (⟨hcl, hca⟩ | hcn)
      · exact ⟨Or.inl ⟨hcl, Nat.succ_ne_zero _⟩, (hne c hcl).1 hca⟩
      · exact ⟨Or.inr hcn, fun e => hnew c hcn (e ▸ hb)⟩
  · have hmem := hold c hc htc
    rw [hf.data c hmem htc ((hne c hc).1 hca) o h₁ h₂,
      hwrite c hmem (fun e => hnew c e.symm hc) o h₁ h₂]
    exact ha.data c hc htc (Nat.succ_ne_zero _) o h₁ h₂

theorem kfree_exchanged (h : HeapOk s l) (hp : NoFreePair l) (hb : b ∈ l) (ht : b.taken = true) :
    ∃ s' l', kfree s (b.addr + 32) = .ok s' ∧
      Exchanged s l s' l' (b.addr + 32) 0 0 none := by
  obtain ⟨s', l', he, hf⟩ := kfree_spec h hp hb ht
  exact ⟨s', l', he, (Exchanged.refl h hp).free h hb (fun _ _ _ _ _ _ => rfl) hf⟩

theorem HeapOk.headSize (h : HeapOk s l) (hb : b ∈ l) : (s.tagAt b.addr).size = b.size ∧
    (s.tagAt b.addr).magic = HEAP_HEADER_MAGIC := by
  obtain ⟨pre, post, rfl⟩ := List.append_of_mem hb
  exact ⟨h.block.1.headSize, h.block.1.headMagic⟩

/-- Nothing is copied to `NULL` when there is nothing to copy. -/
theorem memcpy_zero (s : HeapMem) (dst src : ℕ) : memcpy s dst src 0 = .ok s := by
  have hmem : s.mem.setRange dst (s.mem.slice src 0) = s.mem := funext fun o =>
    setRange_of_notMem (by rw [length_slice]; omega)
  rw [memcpy, if_neg (fun hn => hn.2 rfl), hmem]

/-- `krealloc` of a block that is held; what it copies is kept. -/
theorem krealloc_spec (h : HeapOk s l) (hp : NoFreePair l) (hb : b ∈ l) (ht : b.taken = true)
    (hsize : size < 0x40000000 ∨ b.size = 0) (aid lineno : ℕ) :
    krealloc s (b.addr + 32) size aid lineno = .error .outOfHeap ∨
      ∃ ret s' l' new, krealloc s (b.addr + 32) size aid lineno = .ok (ret, s') ∧
        Exchanged s l s' l' (b.addr + 32) size ret new ∧
        ∀ i < min b.size size, s'.mem (ret + i) = s.mem (b.addr + 32 + i) := by
  have hexec : krealloc s (b.addr + 32) size aid lineno = (do
      let r ← kmalloc s size aid lineno
      let s₂ ← memcpy r.2 r.1 (b.addr + 32)
        (if size < (r.2.tagAt b.addr).size then size else (r.2.tagAt b.addr).size)
      let s' ← kfree s₂ (b.addr + 32)
      .ok (r.1, s')) := by
    rw [krealloc, if_neg (Nat.succ_ne_zero _)]
    simp only [sizeofHeader, Nat.add_sub_cancel]
    rw [if_neg (not_not_intro (h.headSize hb).2)]
  rw [hexec]
  rcases kmalloc_spec h hp size aid lineno with he | ⟨ret, s₁, l₁, new, he, ha, hnull⟩
  · rw [he]
    exact Or.inl rfl
  · have hb₁ : b ∈ l₁ := (ha.taken b ht).2 (Or.inl ⟨hb, Nat.succ_ne_zero _⟩)
    have hmin : (if size < b.size then size else b.size) = min b.size size := by
      split_ifs <;> omega
    refine Or.inr ?_
    rw [he]
    simp only [bind, Except.bind, (ha.ok.headSize hb₁).1, hmin]
    cases new with
    | none =>
      have hn : min b.size size = 0 := by
        have := hnull rfl
        omega
      obtain ⟨s', l', hfree, hf⟩ := kfree_spec ha.ok ha.pairs hb₁ ht
      rw [hn, memcpy_zero]
      simp only [hfree]
      exact ⟨ret, s', l', none, rfl, ha.free h hb (fun _ _ _ _ _ _ => rfl) hf, by simp⟩
    | some c =>
      obtain ⟨hctaken, hcl, hcsize⟩ := ha.isTaken c rfl
      have hc : c ∈ l₁ := (ha.taken c hctaken).2 (Or.inr rfl)
      have hcfoot : c.foot = c.addr + 32 + c.size := rfl
      obtain rfl : ret = c.addr + 32 := ha.ret_eq
      set n := min b.size size with hn
      set s₂ : HeapMem :=
        { s₁ with mem := s₁.mem.setRange (c.addr + 32) (s₁.mem.slice (b.addr + 32) n) } with hs₂
      have hcopy : memcpy s₁ (c.addr + 32) (b.addr + 32) n = .ok s₂ := if_neg (by simp)
      have hagree : AgreeOutside (c.addr + 32) c.foot s₁.mem s₂.mem := fun o ho =>
        setRange_of_notMem (by rw [length_slice]; omega)
      obtain ⟨s', l', hfree, hf⟩ := kfree_spec (ha.ok.write hc hagree rfl) ha.pairs hb₁ ht
      rw [hcopy]
      simp only [hfree]
      refine ⟨c.addr + 32, s', l', some c, rfl, ha.free h hb (fun d hd hdc o h₁ h₂ => ?_) hf,
        fun i hi => ?_⟩
      · refine hagree o ?_
        have hdisj := ha.ok.tiles.disjoint hd hc fun e => hdc (e ▸ rfl)
        unfold Before Block.extent at hdisj
        unfold Block.foot at h₂
        omega
      · have hcb : c ≠ b := fun e => hcl (e ▸ hb)
        have hlen : c.addr + 32 + i - (c.addr + 32) = i := Nat.add_sub_cancel_left _ _
        have hread : s₂.mem (c.addr + 32 + i) = s₁.mem (b.addr + 32 + i) := by
          refine (setRange_of_mem (by omega) (by rw [length_slice, hlen]; exact hi)).trans ?_
          simp only [slice, hlen, List.getElem_map, List.getElem_range]
        rw [hf.data c hc hctaken hcb _ (by omega) (by omega), hread]
        exact ha.data b hb ht (Nat.succ_ne_zero _) _ (by omega) (by unfold Block.foot; omega)

/-- `krealloc` writes to `NULL` when it copies anything for a request of 1 GB. -/
theorem krealloc_null (h : HeapOk s l) (hb : b ∈ l) (hsize : 0x40000000 ≤ size)
    (hne : b.size ≠ 0) (aid lineno : ℕ) :
    krealloc s (b.addr + 32) size aid lineno = .error .nullPointer := by
  have hmax := (h.bounds hb).2.2
  have hnull : kmalloc s size aid lineno = .ok (0, s) := by
    rw [kmalloc, if_neg (by omega), if_pos hsize]
  rw [krealloc, if_neg (Nat.succ_ne_zero _)]
  simp only [sizeofHeader, Nat.add_sub_cancel]
  rw [if_neg (not_not_intro (h.headSize hb).2), hnull]
  simp only [bind, Except.bind, (h.headSize hb).1]
  rw [if_neg (by omega : ¬ size < b.size), memcpy, if_pos ⟨rfl, hne⟩]

end Calls

/-! ## The blocks that are held -/

/-- The blocks that are held are those that are taken, and have the size that was asked for. -/
structure Held (live : ℕ → Option ℕ) (l : List Block) : Prop where
  block : ∀ a size, live a = some size →
    ∃ b ∈ l, b.taken = true ∧ a = b.addr + 32 ∧ size ≤ b.size
  live : ∀ b ∈ l, b.taken = true → (live (b.addr + 32)).isSome

namespace HeapState

/-- The heap is a sequence of blocks in order, no two free ones next to each other, and the blocks
that are held are among them. -/
def Sound (s : HeapState) : Prop := ∃ l, HeapOk s.heap l ∧ NoFreePair l ∧ Held s.live l

/-- Two blocks that are held do not overlap. -/
def LiveDisjoint (s : HeapState) : Prop :=
  ∀ a b n m, s.live a = some n → s.live b = some m → a ≠ b → a + n ≤ b ∨ b + m ≤ a

/-- The bytes that `krealloc` has to keep. -/
def Keeps (s t : HeapState) (ret : ℕ) : HeapOp → Prop
  | .krealloc block size _ _ => ∀ old, s.live block = some old →
    ∀ i < min old size, t.heap.mem (ret + i) = s.heap.mem (block + i)
  | _ => True

/-- The call does its work, or there is no memory left. -/
def Completes (s : HeapState) (op : HeapOp) : Prop :=
  s.exec op = .error .outOfHeap ∨ ∃ ret t, s.exec op = .ok (ret, t) ∧ s.Keeps t ret op

/-- No block that has any data is reallocated to 1 GB. -/
def StepOk (s : HeapState) : HeapOp → Prop
  | .krealloc block size _ _ =>
    block = 0 ∨ size < 0x40000000 ∨ (s.heap.tagAt (block - sizeofHeader)).size = 0
  | _ => True

variable {s t : HeapState} {heap' : HeapMem} {l l' : List Block} {block size ret : ℕ}
  {new : Option Block}

theorem Sound.liveDisjoint (h : s.Sound) : s.LiveDisjoint := by
  intro a b n m ha hb hne
  obtain ⟨l, hok, -, hheld⟩ := h
  obtain ⟨x, hx, -, rfl, hn⟩ := hheld.block a n ha
  obtain ⟨y, hy, -, rfl, hm⟩ := hheld.block b m hb
  have hdisj := hok.tiles.disjoint hx hy fun e => hne (e ▸ rfl)
  unfold Before Block.extent at hdisj
  omega

theorem held_swap (h : Held s.live l) (he : Exchanged s.heap l heap' l' block size ret new) :
    Held (s.swap heap' block ret size).live l' := by
  have hlive : ∀ a, (s.swap heap' block ret size).live a =
      if a = ret ∧ ret ≠ 0 then some size else if a = block then none else s.live a := by
    intro a
    unfold HeapState.swap
    by_cases hzero : ret = 0
    · simp [hzero, Function.update_apply]
    · simp [hzero, Function.update_apply]
  have hret : ∀ b, new = some b → ret = b.addr + 32 := fun b hb => by rw [he.ret_eq, hb]; rfl
  constructor
  · intro a n ha
    rw [hlive] at ha
    split_ifs at ha with hnew hblock
    · obtain ⟨rfl, hzero⟩ := hnew
      obtain _ | b := new
      · exact absurd he.ret_eq hzero
      · obtain ⟨ht, -, hsize⟩ := he.isTaken b rfl
        obtain rfl : size = n := Option.some.inj ha
        exact ⟨b, (he.taken b ht).2 (Or.inr rfl), ht, hret b rfl, hsize⟩
    · obtain ⟨b, hb, ht, rfl, hsize⟩ := h.block a n ha
      exact ⟨b, (he.taken b ht).2 (Or.inl ⟨hb, hblock⟩), ht, rfl, hsize⟩
  · intro b hb ht
    rw [hlive]
    rcases (he.taken b ht).1 hb with ⟨hbl, hne⟩ | hnew
    · split_ifs
      · rfl
      · exact h.live b hbl ht
    · rw [if_pos ⟨(hret b hnew).symm, by rw [hret b hnew]; omega⟩]
      rfl

theorem sound_swap (hheld : Held s.live l)
    (he : Exchanged s.heap l heap' l' block size ret new) :
    (s.swap heap' block ret size).Sound :=
  ⟨l', he.ok, he.pairs, held_swap hheld he⟩

/-- A legal call that meets the condition. -/
theorem Sound.exec {op : HeapOp} (h : s.Sound) (hl : s.Legal op) (hc : s.StepOk op) :
    s.exec op = .error .outOfHeap ∨
      ∃ ret t, s.exec op = .ok (ret, t) ∧ t.Sound ∧ s.Keeps t ret op := by
  obtain ⟨l, hok, hp, hheld⟩ := h
  have hnull : s.live 0 = none := by
    by_contra hne
    obtain ⟨n, hn⟩ := Option.ne_none_iff_exists'.1 hne
    obtain ⟨b, -, -, hb, -⟩ := hheld.block 0 n hn
    omega
  cases op with
  | kxmallocDynamic size aid lineno =>
    have hmax : size ≤ 2 ^ 64 - 16 := le_trans hl (by decide)
    rcases kxmallocDynamic_spec hok hp hmax aid lineno with he | ⟨heap', l', b, he, ha, hsize⟩
    · exact Or.inl (by simp [HeapState.exec, he, bind, Except.bind])
    · exact Or.inr ⟨_, _, by simp only [HeapState.exec, he]; rfl,
        sound_swap hheld (ha.exchanged hsize), trivial⟩
  | krealloc block size aid lineno =>
    by_cases hblock : block = 0
    · subst hblock
      have hkmalloc : krealloc s.heap 0 size aid lineno = kmalloc s.heap size aid lineno :=
        if_pos rfl
      rcases kmalloc_spec hok hp size aid lineno with he | ⟨ret, heap', l', new, he, ha, -⟩
      · exact Or.inl (by simp [HeapState.exec, hkmalloc, he, bind, Except.bind])
      · refine Or.inr ⟨_, _, by simp only [HeapState.exec, hkmalloc, he]; rfl,
          sound_swap hheld ha, fun old hold => ?_⟩
        rw [hnull] at hold
        cases hold
    · obtain ⟨old, hold⟩ := Option.isSome_iff_exists.1 (hl.1.resolve_left hblock)
      obtain ⟨b, hb, ht, rfl, hle⟩ := hheld.block block old hold
      have hsize : size < 0x40000000 ∨ b.size = 0 := by
        rcases hc with hc | hc | hc
        · exact absurd hc hblock
        · exact Or.inl hc
        · rw [sizeofHeader, Nat.add_sub_cancel, (hok.headSize hb).1] at hc
          exact Or.inr hc
      rcases krealloc_spec hok hp hb ht hsize aid lineno with
        he | ⟨ret, heap', l', new, he, hx, hkeep⟩
      · exact Or.inl (by simp [HeapState.exec, he, bind, Except.bind])
      · refine Or.inr ⟨_, _, by simp only [HeapState.exec, he]; rfl, sound_swap hheld hx,
          fun old' hold' i hi => hkeep i ?_⟩
        obtain rfl : old = old' := Option.some.inj (hold.symm.trans hold')
        omega
  | kfree block =>
    by_cases hblock : block = 0
    · subst hblock
      have hfree : kfree s.heap 0 = .ok s.heap := if_pos rfl
      exact Or.inr ⟨_, _, by simp only [HeapState.exec, hfree]; rfl,
        sound_swap hheld (Exchanged.refl hok hp), trivial⟩
    · obtain ⟨old, hold⟩ := Option.isSome_iff_exists.1 (hl.resolve_left hblock)
      obtain ⟨b, hb, ht, rfl, -⟩ := hheld.block block old hold
      obtain ⟨heap', l', he, hx⟩ := kfree_exchanged hok hp hb ht
      exact Or.inr ⟨_, _, by simp only [HeapState.exec, he]; rfl, sound_swap hheld hx, trivial⟩
  | write block off byte =>
    obtain ⟨size, hsize, hoff⟩ := hl
    obtain ⟨b, hb, ht, rfl, hle⟩ := hheld.block block size hsize
    refine Or.inr ⟨_, _, rfl, ⟨l, hok.write hb ?_ rfl, hp, hheld⟩, trivial⟩
    exact agreeOutside_update (by omega) (by unfold Block.foot; omega)

/-- A step other than by a call that does not return. -/
theorem Sound.stepOk_of_exec {op : HeapOp} (h : s.Sound) (hl : s.Legal op)
    (hx : s.exec op ≠ .error .nullPointer) : s.StepOk op := by
  cases op with
  | krealloc block size aid lineno =>
    by_contra hn
    simp only [StepOk, not_or, Nat.not_lt] at hn
    obtain ⟨hblock, hsize, hne⟩ := hn
    obtain ⟨l, hok, -, hheld⟩ := h
    obtain ⟨old, hold⟩ := Option.isSome_iff_exists.1 (hl.1.resolve_left hblock)
    obtain ⟨b, hb, ht, rfl, -⟩ := hheld.block block old hold
    rw [sizeofHeader, Nat.add_sub_cancel, (hok.headSize hb).1] at hne
    refine hx ?_
    simp only [HeapState.exec, krealloc_null hok hb hsize hne]
    rfl
  | _ => trivial

end HeapState

/-! ## Runs -/

theorem initMemoryPhase2_ok (mem : Bytes) :
    HeapOk (initMemoryPhase2 mem) [⟨HEAP_BASE_ADDR, 0x200000 - 32 - 16, false⟩] := by
  set s₁ := (⟨mem, 1⟩ : HeapMem).setTag HEAP_BASE_ADDR ⟨HEAP_HEADER_MAGIC, 0x200000 - 32 - 16, 0⟩
    with hs₁
  have hhead₁ : s₁.tagAt HEAP_BASE_ADDR = ⟨HEAP_HEADER_MAGIC, 0x200000 - 32 - 16, 0⟩ :=
    tagAt_setTag_self (by decide) (by decide)
  set s₂ := s₁.setTag (HEAP_BASE_ADDR + 0x200000 - 16) ⟨HEAP_FOOTER_MAGIC, 0x200000 - 32 - 16, 0⟩
    with hs₂
  have hexec : initMemoryPhase2 mem = s₂ := by
    simp only [initMemoryPhase2, sizeofHeader, sizeofFooter, ← hs₁, hhead₁, ← hs₂]
  have hhead : s₂.tagAt HEAP_BASE_ADDR = _ := (tagAt_setTag_ne (by decide)).trans hhead₁
  have hfoot : s₂.tagAt (HEAP_BASE_ADDR + 0x200000 - 16) = _ :=
    tagAt_setTag_self (by decide) (by decide)
  rw [hexec]
  refine ⟨⟨rfl, by decide, rfl⟩, ⟨?_, trivial⟩, Nat.one_pos, show 1 ≤ 512 by decide⟩
  show TagsOk (s₂.tagAt HEAP_BASE_ADDR) (s₂.tagAt (HEAP_BASE_ADDR + 0x200000 - 16)) _ _ _
  rw [hhead, hfoot]
  constructor <;> first | rfl | (simp only; decide)

/-- In every state that is reached the heap is in order. -/
theorem sound_of_reachable {s : HeapState} (h : heapSystem.Reachable s) : s.Sound := by
  refine System.ReachesBy.invariant h ?_ fun s op t hs _ ht => ?_
  · rintro s ⟨mem, rfl⟩
    exact ⟨_, initMemoryPhase2_ok mem, List.IsChain.singleton _, by simp, by simp⟩
  · obtain ⟨hl, ret, hexec⟩ := ht
    have hc := hs.stepOk_of_exec hl (by rw [hexec]; exact fun e => nomatch e)
    rcases hs.exec hl hc with he | ⟨ret', t', he, ht', -⟩
    · rw [hexec] at he
      cases he
    · rw [hexec] at he
      cases he
      exact ht'

/-- In every state that is reached the heap is in order, and every legal call does its work, or
finds no memory, exactly when it does not reallocate a block that has data to 1 GB. -/
theorem heap_sound {s : HeapState} (h : heapSystem.Reachable s) :
    s.Sound ∧ s.LiveDisjoint ∧ ∀ op, s.Legal op → (s.Completes op ↔ s.StepOk op) := by
  have hsound := sound_of_reachable h
  refine ⟨hsound, hsound.liveDisjoint, fun op hl => ⟨fun hx => hsound.stepOk_of_exec hl ?_, fun hc => ?_⟩⟩
  · rcases hx with he | ⟨ret, t, he, -⟩
    · rw [he]
      exact fun e => nomatch e
    · rw [he]
      exact fun e => nomatch e
  · rcases hsound.exec hl hc with he | ⟨ret, t, he, -, hkeep⟩
    · exact Or.inl he
    · exact Or.inr ⟨ret, t, he, hkeep⟩

/-- The first block that is given out is the first block of the heap. -/
theorem kxmallocDynamic_first (mem : Bytes) {size : ℕ} (hsize : roundSize size ≤ 0x1FFFD0) : ∃ s,
    kxmallocDynamic (initMemoryPhase2 mem) size 0 0 = .ok (HEAP_BASE_ADDR + 32, s) := by
  have hok := initMemoryPhase2_ok mem
  have hb : HeapOk (initMemoryPhase2 mem) ([] ++ ⟨HEAP_BASE_ADDR, 0x200000 - 32 - 16, false⟩ :: []) :=
    hok
  have htag := hb.block.1
  have hfind : findHead heapRounds (initMemoryPhase2 mem) HEAP_BASE_ADDR (roundSize size) =
      .ok (initMemoryPhase2 mem, HEAP_BASE_ADDR) := by
    rw [heapRounds, show (2 ^ 30 : ℕ) = (2 ^ 30 - 1) + 1 by decide, findHead, if_neg]
    rw [not_or, htag.headSize]
    exact ⟨not_not_intro ((eq_zero_iff htag.headTaken).2 rfl), not_lt.2 hsize⟩
  exact ⟨_, by rw [kxmallocDynamic, hfind]; rfl⟩

/-- A block of 16 bytes has been given out. -/
theorem exists_reachable_held :
    ∃ s, heapSystem.Reachable s ∧ s.live (HEAP_BASE_ADDR + 32) = some 16 := by
  obtain ⟨heap, he⟩ := kxmallocDynamic_first (fun _ => 0) (show roundSize 16 ≤ _ by decide)
  set s : HeapState := ⟨initMemoryPhase2 fun _ => 0, fun _ => none⟩ with hs
  have hexec : s.exec (.kxmallocDynamic 16 0 0) =
      .ok (HEAP_BASE_ADDR + 32, s.swap heap 0 (HEAP_BASE_ADDR + 32) 16) := by
    simp only [HeapState.exec, hs, he]
    rfl
  have hlegal : s.Legal (.kxmallocDynamic 16 0 0) := show 16 ≤ 0x40000000 by decide
  refine ⟨s.swap heap 0 (HEAP_BASE_ADDR + 32) 16,
    .step (.init ⟨fun _ => 0, hs⟩) trivial ⟨hlegal, _, hexec⟩, ?_⟩
  rw [HeapState.swap, if_neg (by decide)]
  exact Function.update_self (HEAP_BASE_ADDR + 32) (some 16) (Function.update s.live 0 none)

/-- The heap when a block of 16 bytes has been given out. -/
theorem heap_sound_held : ∃ s : HeapState, s.live (HEAP_BASE_ADDR + 32) = some 16 ∧ s.Sound ∧
    s.LiveDisjoint ∧ ∀ op, s.Legal op → (s.Completes op ↔ s.StepOk op) := by
  obtain ⟨s, hs, hlive⟩ := exists_reachable_held
  exact ⟨s, hlive, heap_sound hs⟩

/-- `krealloc` of the block of 16 bytes to 1 GB writes to `NULL`. -/
theorem krealloc_writes_null : ¬ ∀ s, heapSystem.Reachable s →
    s.Sound ∧ s.LiveDisjoint ∧ ∀ op, s.Legal op → s.Completes op := by
  intro h
  obtain ⟨s, hs, hlive⟩ := exists_reachable_held
  obtain ⟨⟨l, hok, -, hheld⟩, -, hall⟩ := h s hs
  obtain ⟨b, hb, -, haddr, hsize⟩ := hheld.block _ _ hlive
  have hnull := krealloc_null hok hb (le_refl 0x40000000) (by omega) 0 0
  have hexec : s.exec (.krealloc (HEAP_BASE_ADDR + 32) 0x40000000 0 0) = .error .nullPointer := by
    rw [haddr]
    simp only [HeapState.exec, hnull]
    rfl
  rcases hall _ (show s.Legal (.krealloc (HEAP_BASE_ADDR + 32) 0x40000000 0 0) from
    ⟨Or.inr (by rw [hlive]; rfl), le_rfl⟩) with he | ⟨ret, t, he, -⟩
  · rw [hexec] at he
    cases he
  · rw [hexec] at he
    cases he

/-! ## Room for a request -/

/-- There is a block in the heap at `ret`, taken and of at least `size` bytes. -/
def HasRoom (s : HeapMem) (ret size : ℕ) : Prop :=
  ∃ l, HeapOk s l ∧ ∃ b ∈ l, b.taken = true ∧ ret = b.addr + 32 ∧ size ≤ b.size

theorem Allocated.hasRoom {s s' : HeapMem} {l l' : List Block} {b : Block} {size : ℕ}
    (h : Allocated s l s' l' b) (hsize : size ≤ b.size) : HasRoom s' (b.addr + 32) size :=
  ⟨l', h.ok, b, (h.taken b h.isTaken).2 (Or.inr rfl), h.isTaken, rfl, hsize⟩

/-- A block that is returned has room for the request.  `kmalloc` lets no request through that is too
large to be rounded. -/
theorem kmalloc_hasRoom {s : HeapState} (h : heapSystem.Reachable s) (size aid lineno ret : ℕ)
    (heap : HeapMem) :
    (size ≤ 2 ^ 64 - 16 → kxmallocDynamic s.heap size aid lineno = .ok (ret, heap) →
      HasRoom heap ret size) ∧
    (kmalloc s.heap size aid lineno = .ok (ret, heap) →
      ret = 0 ∧ (size = 0 ∨ size ≥ 0x40000000) ∨ HasRoom heap ret size) := by
  obtain ⟨l, hok, hp, -⟩ := sound_of_reachable h
  have hdynamic (hmax : size ≤ 2 ^ 64 - 16)
      (hexec : kxmallocDynamic s.heap size aid lineno = .ok (ret, heap)) : HasRoom heap ret size := by
    rcases kxmallocDynamic_spec hok hp hmax aid lineno with he | ⟨s', l', b, he, ha, hsize⟩
    · rw [hexec] at he
      cases he
    · rw [hexec] at he
      cases he
      exact ha.hasRoom hsize
  refine ⟨hdynamic, fun hexec => ?_⟩
  unfold kmalloc at hexec
  split_ifs at hexec with hzero hlarge
  · cases hexec
    exact Or.inl ⟨rfl, Or.inl hzero⟩
  · cases hexec
    exact Or.inl ⟨rfl, Or.inr hlarge⟩
  · exact Or.inr (hdynamic (by omega) hexec)

/-- The first block of 100 bytes. -/
theorem kmalloc_hasRoom_first : ∃ heap,
    kxmallocDynamic (initMemoryPhase2 fun _ => 0) 100 0 0 = .ok (HEAP_BASE_ADDR + 32, heap) ∧
      HasRoom heap (HEAP_BASE_ADDR + 32) 100 := by
  obtain ⟨heap, he⟩ := kxmallocDynamic_first (fun _ => 0) (show roundSize 100 ≤ _ by decide)
  have hinit : heapSystem.Reachable ⟨initMemoryPhase2 fun _ => 0, fun _ => none⟩ :=
    .init ⟨fun _ => 0, rfl⟩
  exact ⟨heap, he, (kmalloc_hasRoom hinit 100 0 0 _ heap).1 (by decide) he⟩

/-- The largest request is rounded to nothing. -/
theorem kxmallocDynamic_wraps : ¬ ∀ s, heapSystem.Reachable s → ∀ size < 2 ^ 64,
    ∀ aid lineno ret heap, kxmallocDynamic s.heap size aid lineno = .ok (ret, heap) →
      HasRoom heap ret size := by
  intro h
  obtain ⟨heap, he⟩ :=
    kxmallocDynamic_first (fun _ => 0) (show roundSize (2 ^ 64 - 1) ≤ _ by decide)
  obtain ⟨l, hok, b, hb, -, -, hsize⟩ := h ⟨initMemoryPhase2 fun _ => 0, fun _ => none⟩
    (.init ⟨fun _ => 0, rfl⟩) (2 ^ 64 - 1) (by decide) 0 0 _ heap he
  have hbounds := hok.bounds hb
  have htables := hok.tables
  unfold Block.extent heapEnd HEAP_BASE_ADDR at hbounds
  omega

end Glidix.Util
