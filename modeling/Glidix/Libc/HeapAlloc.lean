import Glidix.Lib.Runs
import Glidix.Lib.Slabs

/-!
# The heap of the C library

`_heap_malloc`, `_heap_realloc`, `_heap_free` and `calloc` divide one mapping of `2 ^ 37` bytes into slabs.
The slabs tile the mapping, every free one is on the list of its bucket, and the live ones have room for what
was asked for, in every run in which no size passes `2 ^ 64` together with the header, and no product of
`calloc` does.
-/

namespace Glidix.Libc.HeapAlloc

open Bytes SlabHeap

/-! ## The code -/

def HEAP_NUM_BUCKETS : ℕ := 33

def ENOMEM : ℕ := 50

structure Heap where
  mem : Bytes
  buckets : ℕ → ℕ
  errno : ℕ

namespace Heap

/-- `errno = ENOMEM; return NULL;` -/
def noMem (h : Heap) : Heap × ℕ := ({ h with errno := ENOMEM }, 0)

/-- `slab_alloc`, with the number of buckets from this one on. -/
def slab_allocFrom (h : Heap) : ℕ → Heap × ℕ
  | 0 => (h, 0)
  | k + 1 =>
    let bucket := HEAP_NUM_BUCKETS - (k + 1)
    let slabSize := 2 ^ (bucket + 5)
    if h.buckets bucket ≠ 0 then
      let slab := h.buckets bucket
      ({ h with buckets := Function.update h.buckets bucket (load 8 h.mem slab) }, slab)
    else
      let (h, up) := slab_allocFrom h k
      if up = 0 then (h, 0)
      else
        let other := up + slabSize
        let h := { h with mem := store 8 h.mem other 0 }
        ({ h with buckets := Function.update h.buckets bucket other }, up)

def slab_alloc (h : Heap) (bucket : ℕ) : Heap × ℕ := h.slab_allocFrom (HEAP_NUM_BUCKETS - bucket)

/-- `slab_alloc` as it calls itself. -/
theorem slab_alloc_eq (h : Heap) (bucket : ℕ) :
    h.slab_alloc bucket =
      if bucket ≥ HEAP_NUM_BUCKETS then (h, 0)
      else if h.buckets bucket ≠ 0 then
        ({ h with buckets := Function.update h.buckets bucket (load 8 h.mem (h.buckets bucket)) }, h.buckets bucket)
      else
        let (h, up) := h.slab_alloc (bucket + 1)
        if up = 0 then (h, 0)
        else
          ({ h with
              mem := store 8 h.mem (up + 2 ^ (bucket + 5)) 0
              buckets := Function.update h.buckets bucket (up + 2 ^ (bucket + 5)) }, up) := by
  unfold slab_alloc
  by_cases hb : bucket ≥ HEAP_NUM_BUCKETS
  · rw [if_pos hb, Nat.sub_eq_zero_of_le hb]
    rfl
  · rw [if_neg hb]
    obtain ⟨k, hk⟩ := Nat.exists_eq_succ_of_ne_zero (Nat.sub_ne_zero_of_lt (Nat.lt_of_not_le hb))
    have hbucket : HEAP_NUM_BUCKETS - (k + 1) = bucket := by omega
    have hnext : HEAP_NUM_BUCKETS - (bucket + 1) = k := by omega
    rw [hk, hnext]
    simp only [slab_allocFrom, hbucket]

def setRealSize (h : Heap) (slab realSize : ℕ) : Heap := { h with mem := store 8 h.mem (slab + 8) realSize }

def heap_malloc (h : Heap) (len : ℕ) : Heap × ℕ :=
  if len = 0 then h.noMem
  else
    let len := withHeader len
    let bucket := bucketFor HEAP_NUM_BUCKETS len
    if bucket = HEAP_NUM_BUCKETS then h.noMem
    else
      let (h, slab) := h.slab_alloc bucket
      if slab = 0 then h.noMem
      else
        let h := { h with mem := store 8 h.mem slab bucket }
        (h.setRealSize slab (withoutHeader len), slab + 16)

/-- `_heap_free`; the bucket is converted to `int`. -/
def heap_free (h : Heap) (block : ℕ) : Heap :=
  if block = 0 then h
  else
    let slab := block - 16
    let bucket := load 8 h.mem slab % 2 ^ 32
    let h := { h with mem := store 8 h.mem slab (h.buckets bucket) }
    { h with buckets := Function.update h.buckets bucket slab }

def memcpy (h : Heap) (dst src n : ℕ) : Heap := { h with mem := setRange h.mem dst (slice h.mem src n) }

/-- What `_heap_realloc` does with a block; `newsize` is the size with the header, and `len` is `newsize - 16`. -/
def reallocBlock (h : Heap) (block newsize len : ℕ) : Heap × ℕ :=
  let slab := block - 16
  let bucket := load 8 h.mem slab
  if bucket ≠ 0 ∧ newsize ≤ 2 ^ (bucket - 1 + 5) then
    let h := { h with mem := store 8 h.mem slab (bucket - 1) }
    let fslab := slab + 2 ^ (bucket - 1 + 5)
    let h := { h with mem := store 8 h.mem fslab (h.buckets (load 8 h.mem slab)) }
    let h := { h with buckets := Function.update h.buckets (load 8 h.mem slab) fslab }
    (h.setRealSize slab len, block)
  else if newsize ≤ 2 ^ (bucket + 5) then (h.setRealSize slab len, block)
  else
    let (h, newblock) := h.heap_malloc len
    if newblock = 0 then h.noMem
    else
      let toCopy := load 8 h.mem (slab + 8)
      let toCopy := if toCopy > len then len else toCopy
      ((h.memcpy newblock block toCopy).heap_free block, newblock)

def heap_realloc (h : Heap) (block newsize : ℕ) : Heap × ℕ :=
  if newsize = 0 then (h.heap_free block).noMem
  else if block = 0 then h.heap_malloc newsize
  else h.reallocBlock block (withHeader newsize) (withoutHeader (withHeader newsize))

/-- `calloc` does not look at what `malloc` returns; a store to the null page ends the program. -/
def calloc (h : Heap) (nitems size : ℕ) : Option (Heap × ℕ) :=
  let totalSize := nitems * size % 2 ^ 64
  let (h, ret) := h.heap_malloc totalSize
  if ret = 0 ∧ totalSize ≠ 0 then none
  else some ({ h with mem := setRange h.mem ret (List.replicate totalSize 0) }, ret)

end Heap

/-- `_heap_init` with the mapping at `heap`. -/
def heap_init (mem : Bytes) (heap : ℕ) : Heap :=
  ⟨mem, Function.update (fun _ => 0) (HEAP_NUM_BUCKETS - 1) heap, 0⟩

/-! ## Runs -/

/-- The heap with the blocks that its callers hold: the size that was asked for at each address. -/
structure HeapState where
  heap : Heap
  live : ℕ → Option ℕ

inductive HeapOp where
  | malloc (len : ℕ)
  | calloc (nitems size : ℕ)
  | realloc (block newsize : ℕ)
  | free (block : ℕ)
  /-- The program writes into a block. -/
  | write (block off : ℕ) (byte : UInt8)

namespace HeapState

/-- What a call leaves that gives back `block` and returns `ret`. -/
def exchange (s : HeapState) (heap : Heap) (block ret size : ℕ) : HeapState :=
  ⟨heap, SlabHeap.exchange s.live block ret size⟩

/-- What a call returns and leaves; a call of `_heap_realloc` that fails keeps the block. -/
def exec (s : HeapState) : HeapOp → Option (ℕ × HeapState)
  | .malloc len =>
    let (heap, ret) := s.heap.heap_malloc len
    some (ret, s.exchange heap 0 ret len)
  | .calloc nitems size =>
    (s.heap.calloc nitems size).map fun (heap, ret) => (ret, s.exchange heap 0 ret (nitems * size))
  | .realloc block newsize =>
    let (heap, ret) := s.heap.heap_realloc block newsize
    some (ret, s.exchange heap (if ret = 0 ∧ newsize ≠ 0 then 0 else block) ret newsize)
  | .free block => some (0, s.exchange (s.heap.heap_free block) block 0 0)
  | .write block off byte =>
    some (0, { s with heap.mem := Function.update s.heap.mem (block + off) byte })

/-- Only live blocks are freed, resized and written; the arguments are of type `size_t`. -/
def Legal (s : HeapState) : HeapOp → Prop
  | .malloc len => len < 2 ^ 64
  | .calloc nitems size => nitems < 2 ^ 64 ∧ size < 2 ^ 64
  | .realloc block newsize => (block = 0 ∨ (s.live block).isSome) ∧ newsize < 2 ^ 64
  | .free block => block = 0 ∨ (s.live block).isSome
  | .write block off _ => ∃ size ∈ s.live block, off < size

instance (s : HeapState) : DecidablePred s.Legal := fun op => by
  unfold Legal
  split
  all_goals infer_instance

end HeapState

/-- The runs of the heap that `mmap` puts at `heap`. -/
def heapSystem (heap : ℕ) : System HeapState HeapOp where
  init s := ∃ mem, 0 < heap ∧ heap + 2 ^ 37 ≤ 2 ^ 64 ∧ (∀ o, heap ≤ o → o < heap + 2 ^ 37 → mem o = 0) ∧
    s = ⟨heap_init mem heap, fun _ => none⟩
  step s op t := s.Legal op ∧ ∃ ret, s.exec op = some (ret, t)

/-! ## The calls -/

/-- The slabs of the heap are in order. -/
abbrev InOrder (base : ℕ) (h : Heap) (slabs : List Slab) : Prop :=
  SlabHeap (fun _ => True) HEAP_NUM_BUCKETS base h.mem h.buckets slabs

/-- A call that gives back the slab `old` and gives out `new`. -/
abbrev Exchanges (base : ℕ) (slabs : List Slab) (h : Heap) (slabs' : List Slab) (h' : Heap) (size : ℕ)
    (old new : Option Slab) : Prop :=
  Called (fun _ => True) HEAP_NUM_BUCKETS base slabs h.mem slabs' h'.mem h'.buckets size old new

namespace Heap

section Calls

variable {h : Heap} {base k len bucket block : ℕ} {slabs : List Slab}

/-- The lists of smaller slabs are as before. -/
theorem slab_allocFrom_buckets {c : ℕ} (hk : k ≤ HEAP_NUM_BUCKETS) (hc : c + k < HEAP_NUM_BUCKETS) :
    (h.slab_allocFrom k).1.buckets c = h.buckets c := by
  induction k with
  | zero => rfl
  | succ k ih =>
    have hne : c ≠ HEAP_NUM_BUCKETS - (k + 1) := by omega
    have hkept := ih (by omega) (by omega)
    simp only [slab_allocFrom]
    split_ifs
    · exact Function.update_of_ne hne _ _
    · exact hkept
    · exact (Function.update_of_ne hne _ _).trans hkept

theorem slab_allocFrom_null (hr : (h.slab_allocFrom k).2 = 0) : (h.slab_allocFrom k).1 = h := by
  induction k with
  | zero => rfl
  | succ k ih =>
    simp only [slab_allocFrom] at hr ⊢
    split_ifs at hr ⊢ with hhead hup
    · exact absurd hr hhead
    · exact ih hup
    · exact absurd hr hup

theorem slab_allocFrom_spec (hk : k ≤ HEAP_NUM_BUCKETS) (hs : InOrder base h slabs)
    (hsettled : ∀ x ∈ slabs, x.use ≠ .out) (hr : (h.slab_allocFrom k).2 ≠ 0) :
    ∃ slabs', InOrder base (h.slab_allocFrom k).1 slabs' ∧
      Taken slabs h.mem slabs' (h.slab_allocFrom k).1.mem
        ⟨(h.slab_allocFrom k).2, HEAP_NUM_BUCKETS - k, .out⟩ := by
  induction k with
  | zero => exact absurd rfl hr
  | succ k ih =>
    have hbucket : HEAP_NUM_BUCKETS - k = HEAP_NUM_BUCKETS - (k + 1) + 1 := by omega
    have hlt : HEAP_NUM_BUCKETS - (k + 1) < 33 := by
      unfold HEAP_NUM_BUCKETS
      omega
    have hkept := @slab_allocFrom_buckets h k (HEAP_NUM_BUCKETS - (k + 1)) (by omega) (by omega)
    simp only [slab_allocFrom] at hr ⊢
    split_ifs at hr ⊢ with hhead hup
    · exact hs.take hsettled hlt hhead
    · exact absurd rfl hr
    · obtain ⟨slabs', hs', ht⟩ := ih (by omega) hup
      rw [hbucket] at ht
      have hhalf := ht.half hs' trivial
      rwa [hkept, not_not.1 hhead] at hhalf

theorem slab_alloc_spec (hb : bucket ≤ HEAP_NUM_BUCKETS) (hs : InOrder base h slabs)
    (hsettled : ∀ x ∈ slabs, x.use ≠ .out) (hr : (h.slab_alloc bucket).2 ≠ 0) :
    ∃ slabs', InOrder base (h.slab_alloc bucket).1 slabs' ∧
      Taken slabs h.mem slabs' (h.slab_alloc bucket).1.mem ⟨(h.slab_alloc bucket).2, bucket, .out⟩ := by
  have hspec := slab_allocFrom_spec (Nat.sub_le _ _) hs hsettled hr
  rwa [Nat.sub_sub_self hb] at hspec

/-- A call that does not find memory changes `errno` alone; otherwise it gives out a block of `len` bytes. -/
theorem heap_malloc_spec (hs : InOrder base h slabs) (hsettled : ∀ x ∈ slabs, x.use ≠ .out)
    (hlen : len + 16 < 2 ^ 64) :
    h.heap_malloc len = h.noMem ∨
      ∃ slabs' y, (h.heap_malloc len).2 = y.data ∧
        Exchanges base slabs h slabs' (h.heap_malloc len).1 len none
          (some y) := by
  by_cases hzero : len = 0
  · exact .inl (if_pos hzero)
  by_cases hbucket : bucketFor HEAP_NUM_BUCKETS (withHeader len) = HEAP_NUM_BUCKETS
  · exact .inl ((if_neg hzero).trans (if_pos hbucket))
  obtain ⟨hlt, hle, -⟩ := bucketFor_spec hbucket
  have hfits : len + 16 ≤ 2 ^ (bucketFor HEAP_NUM_BUCKETS (withHeader len) + 5) := (withHeader_eq hlen).ge.trans hle
  by_cases hr : (h.slab_alloc (bucketFor HEAP_NUM_BUCKETS (withHeader len))).2 = 0
  · have hnull : h.heap_malloc len = (h.slab_alloc (bucketFor HEAP_NUM_BUCKETS (withHeader len))).1.noMem :=
      (if_neg hzero).trans ((if_neg hbucket).trans (if_pos hr))
    have hkept : (h.slab_alloc (bucketFor HEAP_NUM_BUCKETS (withHeader len))).1 = h := slab_allocFrom_null hr
    exact .inl (hnull.trans (congrArg noMem hkept))
  · obtain ⟨slabs₁, hs₁, ht⟩ := slab_alloc_spec hlt.le hs hsettled hr
    obtain ⟨slabs', hcall⟩ := ht.enter hs₁ (k := len) (by omega)
    have hgot : h.heap_malloc len =
        ({ (h.slab_alloc (bucketFor HEAP_NUM_BUCKETS (withHeader len))).1 with
            mem := store 8 (store 8 (h.slab_alloc (bucketFor HEAP_NUM_BUCKETS (withHeader len))).1.mem
              (h.slab_alloc (bucketFor HEAP_NUM_BUCKETS (withHeader len))).2 (bucketFor HEAP_NUM_BUCKETS (withHeader len)))
              ((h.slab_alloc (bucketFor HEAP_NUM_BUCKETS (withHeader len))).2 + 8) (withoutHeader (withHeader len)) },
          (h.slab_alloc (bucketFor HEAP_NUM_BUCKETS (withHeader len))).2 + 16) :=
      (if_neg hzero).trans ((if_neg hbucket).trans (if_neg hr))
    rw [hgot, withoutHeader_withHeader (by omega)]
    exact .inr ⟨slabs', _, rfl, hcall⟩

/-- The header of a live block. -/
theorem header (hs : InOrder base h slabs) {x : Slab} (hx : x ∈ slabs) (hlive : x.use = .live k) :
    x.data ≠ 0 ∧ x.data - 16 = x.addr ∧ load 8 h.mem x.addr = x.bucket ∧ x.bucket < 33 ∧
      load 8 h.mem (x.addr + 8) = k ∧ 16 + k ≤ 2 ^ (x.bucket + 5) := by
  obtain ⟨hbucket, hsize, hle⟩ := hs.live x hx k hlive
  exact ⟨Nat.succ_ne_zero _, Nat.add_sub_cancel _ _, hbucket, hs.bucket_lt hx, hsize, hle⟩

theorem heap_free_spec (hs : InOrder base h slabs) (hsettled : ∀ x ∈ slabs, x.use ≠ .out)
    {x : Slab} (hx : x ∈ slabs) (hlive : x.use = .live k) (size : ℕ) :
    ∃ slabs', Exchanges base slabs h slabs' (h.heap_free x.data) size
      (some x) none := by
  obtain ⟨hdata, haddr, hbucket, hlt, -⟩ := header hs hx hlive
  obtain ⟨a, b, u⟩ := x
  obtain rfl : u = .live k := hlive
  obtain ⟨slabs', hcall⟩ := hs.release hsettled hx size
  have hgot : h.heap_free (Slab.data ⟨a, b, .live k⟩) =
      { h with
        mem := store 8 h.mem a (h.buckets b)
        buckets := Function.update h.buckets b a } := by
    simp only [heap_free, if_neg hdata, haddr, hbucket, Nat.mod_eq_of_lt (hlt.trans (by decide : 33 < 2 ^ 32))]
  rw [hgot]
  exact ⟨slabs', hcall⟩

/-- What `_heap_realloc` does with a live block. -/
theorem reallocBlock_eq {a b newsize : ℕ} (hs : InOrder base h slabs)
    (hx : ⟨a, b, .live k⟩ ∈ slabs) : h.reallocBlock (a + 16) newsize len =
    if b ≠ 0 ∧ newsize ≤ 2 ^ (b - 1 + 5) then
      ({ h with
          mem := store 8 (store 8 (store 8 h.mem a (b - 1)) (a + 2 ^ (b - 1 + 5)) (h.buckets (b - 1))) (a + 8) len
          buckets := Function.update h.buckets (b - 1) (a + 2 ^ (b - 1 + 5)) }, a + 16)
    else if newsize ≤ 2 ^ (b + 5) then ({ h with mem := store 8 h.mem (a + 8) len }, a + 16)
    else
      let (h, newblock) := h.heap_malloc len
      if newblock = 0 then h.noMem
      else
        let toCopy := load 8 h.mem (a + 8)
        ((h.memcpy newblock (a + 16) (if toCopy > len then len else toCopy)).heap_free (a + 16), newblock) := by
  obtain ⟨-, haddr, hbucket, -⟩ := header hs hx rfl
  obtain ⟨-, hlt⟩ := hs.lt_of_mem hx
  have hprev : load 8 (store 8 h.mem a (b - 1)) a = b - 1 := by
    exact load_store_quad (by simp only at hlt; omega)
  have hprev' : load 8 (store 8 (store 8 h.mem a (b - 1)) (a + 2 ^ (b - 1 + 5)) (h.buckets (b - 1))) a = b - 1 := by
    rw [load_store_ne, hprev]
    have : 2 ^ 5 ≤ 2 ^ (b - 1 + 5) := Nat.pow_le_pow_right (by decide) (Nat.le_add_left _ _)
    omega
  have haddr : a + 16 - 16 = a := haddr
  have hbucket : load 8 h.mem a = b := hbucket
  simp only [reallocBlock, haddr, hbucket, hprev, hprev', setRealSize]

section Resize

variable {a b : ℕ} (hs : InOrder base h slabs) (hsettled : ∀ x ∈ slabs, x.use ≠ .out)
  (hx : ⟨a, b, .live k⟩ ∈ slabs)

include hs hsettled hx

/-- The block is cut in half. -/
theorem reallocBlock_half (hb : b ≠ 0) (hfits : len + 16 ≤ 2 ^ (b - 1 + 5)) :
    ∃ slabs', Exchanges base slabs h slabs' (h.reallocBlock (a + 16) (len + 16) len).1 len
        (some ⟨a, b, .live k⟩) (some ⟨a, b - 1, .live len⟩) ∧
      (h.reallocBlock (a + 16) (len + 16) len).2 = a + 16 ∧
      KeepsFirst (min k len) h.mem (a + 16) (h.reallocBlock (a + 16) (len + 16) len).1.mem (a + 16) := by
  obtain ⟨c, rfl⟩ := Nat.exists_eq_succ_of_ne_zero hb
  have heq := @reallocBlock_eq _ _ _ len _ _ _ (len + 16) hs hx
  rw [if_pos ⟨hb, hfits⟩] at heq
  rw [heq]
  obtain ⟨hsize, hbucket⟩ := hs.lt_of_mem hx
  have hpow : 2 ^ (c + 6) = 2 ^ (c + 5) + 2 ^ (c + 5) := Slab.size_succ a c .out .out
  have hsize : 2 ^ (c + 6) ≤ 2 ^ 64 := hsize
  have hge : 32 ≤ 2 ^ (c + 5) := Slab.size_ge ⟨a, c, .out⟩
  have hlt : c < 33 := (Nat.lt_succ_self c).trans (hs.bucket_lt hx)
  simp only [Nat.succ_eq_add_one, Nat.add_sub_cancel] at hfits ⊢
  set mem' := store 8 (store 8 (store 8 h.mem a c) (a + 2 ^ (c + 5)) (h.buckets c)) (a + 8) len with hmem'
  have hmem : AgreeOutside a (a + 2 ^ (c + 6)) h.mem mem' :=
    ((agreeOutside_store (by omega) (by omega)).trans (agreeOutside_store (by omega) (by omega))).trans
      (agreeOutside_store (by omega) (by omega))
  have hnext : load 8 mem' (a + 2 ^ (c + 5)) = h.buckets c := by
    rw [hmem', load_store_ne (.inr (by omega)), hs.load_store_head hlt]
  have hlive : load 8 mem' a = c ∧ load 8 mem' (a + 8) = len ∧ 16 + len ≤ 2 ^ (c + 5) := by
    have hc : c < 2 ^ 64 := (Nat.lt_succ_self c).trans hbucket
    rw [hmem', load_store_ne (.inl le_rfl), load_store_ne (.inl (by omega)), load_store_quad hc,
      load_store_quad (by omega)]
    exact ⟨rfl, rfl, by omega⟩
  obtain ⟨slabs', hcall⟩ := hs.shrink hsettled trivial hx hmem hnext hlive
  refine ⟨slabs', hcall, trivial, fun i hi => ?_⟩
  rw [hmem', store_of_notMem (.inr (by omega)), store_of_notMem (.inl (by omega)), store_of_notMem (.inr (by omega))]

/-- The block stays where it is. -/
theorem reallocBlock_same (hhalf : ¬(b ≠ 0 ∧ len + 16 ≤ 2 ^ (b - 1 + 5))) (hfits : len + 16 ≤ 2 ^ (b + 5)) :
    ∃ slabs', Exchanges base slabs h slabs' (h.reallocBlock (a + 16) (len + 16) len).1 len
        (some ⟨a, b, .live k⟩) (some ⟨a, b, .live len⟩) ∧
      (h.reallocBlock (a + 16) (len + 16) len).2 = a + 16 ∧
      KeepsFirst (min k len) h.mem (a + 16) (h.reallocBlock (a + 16) (len + 16) len).1.mem (a + 16) := by
  have heq := @reallocBlock_eq _ _ _ len _ _ _ (len + 16) hs hx
  rw [if_neg hhalf, if_pos hfits] at heq
  rw [heq]
  obtain ⟨slabs', hcall⟩ := hs.resize hsettled hx (k := len) (by omega)
  exact ⟨slabs', hcall, rfl, fun i hi => store_of_notMem (.inr (by omega))⟩

/-- The data go to a new block, if there is one. -/
theorem reallocBlock_move (hhalf : ¬(b ≠ 0 ∧ len + 16 ≤ 2 ^ (b - 1 + 5))) (hfits : ¬len + 16 ≤ 2 ^ (b + 5))
    (hlen : len + 16 < 2 ^ 64) :
    h.reallocBlock (a + 16) (len + 16) len = h.noMem ∨
      ∃ slabs' y, Exchanges base slabs h slabs' (h.reallocBlock (a + 16) (len + 16) len).1 len
          (some ⟨a, b, .live k⟩) (some y) ∧
        (h.reallocBlock (a + 16) (len + 16) len).2 = y.data ∧
        KeepsFirst (min k len) h.mem (a + 16) (h.reallocBlock (a + 16) (len + 16) len).1.mem y.data := by
  have heq := @reallocBlock_eq _ _ _ len _ _ _ (len + 16) hs hx
  rw [if_neg hhalf, if_neg hfits] at heq
  rw [heq]
  rcases heap_malloc_spec hs hsettled hlen with hnull | ⟨slabs₁, y, hret, hcall⟩
  · rw [hnull]
    exact .inl rfl
  · generalize h.heap_malloc len = r at hret hcall ⊢
    obtain ⟨h₁, ret⟩ := r
    obtain rfl : ret = y.data := hret
    have hy := hcall.new_live y rfl
    have hmem_y : y ∈ slabs₁ := (hcall.exchanged.iff y len hy).2 (.inr rfl)
    have hmem_x : ⟨a, b, .live k⟩ ∈ slabs₁ := (hcall.exchanged.iff _ k rfl).2 (.inl ⟨hx, nofun⟩)
    obtain ⟨-, -, -, -, -, hroom⟩ := header hcall.heap hmem_y hy
    have hbytes := hcall.exchanged.bytes _ hx k rfl nofun
    obtain ⟨-, -, -, -, hsize, hle⟩ := header hcall.heap hmem_x rfl
    have hsize : load 8 h₁.mem (a + 8) = k := hsize
    simp only [Nat.succ_ne_zero, if_false, Slab.data, hsize, ite_gt_eq_min]
    set n := min k len with hn
    set mem₂ := setRange h₁.mem (y.addr + 16) (slice h₁.mem (a + 16) n) with hmem₂
    have hagree : AgreeOutside (y.addr + 16) (y.addr + y.size) h₁.mem mem₂ := fun o ho => by
      refine setRange_of_notMem ?_
      rw [length_slice]
      have : y.size = 2 ^ (y.bucket + 5) := rfl
      omega
    have hcall₂ := hcall.write hagree
    obtain ⟨slabs', hfree⟩ :=
      @heap_free_spec { h₁ with mem := mem₂ } _ k _ hcall₂.heap hcall₂.settled _ hmem_x rfl len
    refine .inr ⟨slabs', y, hcall₂.swap hx rfl hfree, rfl, fun i hi => ?_⟩
    have hne : some ⟨a, b, .live k⟩ ≠ some y := by
      rintro ⟨⟩
      exact nomatch hcall.exchanged.fresh _ rfl hx
    have hysize : y.size = 2 ^ (y.bucket + 5) := rfl
    have hxsize : Slab.size ⟨a, b, .live k⟩ = 2 ^ (b + 5) := rfl
    simp only at hle
    calc _ = mem₂ (y.addr + 16 + i) := hfree.exchanged.bytes y hmem_y len hy hne _ (by omega) (by omega)
      _ = h₁.mem (a + 16 + i) := by
        rw [hmem₂, setRange_of_mem (by omega) (by rw [length_slice]; omega)]
        simp [slice]
      _ = h.mem (a + 16 + i) := hbytes _ (by simp only; omega) (by simp only [hxsize]; omega)

end Resize

/-- A block that is resized: without memory it stays as it is; otherwise what fits of its data is in the block
that is returned. -/
theorem heap_realloc_spec (hs : InOrder base h slabs) (hsettled : ∀ x ∈ slabs, x.use ≠ .out)
    {x : Slab} (hx : x ∈ slabs) (hlive : x.use = .live k) (hzero : len ≠ 0) (hlen : len + 16 < 2 ^ 64) :
    h.heap_realloc x.data len = h.noMem ∨
      ∃ slabs' y, Exchanges base slabs h slabs' (h.heap_realloc x.data len).1 len (some x) (some y) ∧
        (h.heap_realloc x.data len).2 = y.data ∧
        KeepsFirst (min k len) h.mem x.data (h.heap_realloc x.data len).1.mem y.data := by
  obtain ⟨a, b, u⟩ := x
  obtain rfl : u = .live k := hlive
  have heq : h.heap_realloc (a + 16) len = h.reallocBlock (a + 16) (len + 16) len := by
    have hblock : h.heap_realloc (a + 16) len =
        h.reallocBlock (a + 16) (withHeader len) (withoutHeader (withHeader len)) :=
      (if_neg hzero).trans (if_neg (Nat.succ_ne_zero _))
    rw [hblock, withoutHeader_withHeader (by omega), withHeader_eq hlen]
  show h.heap_realloc (a + 16) len = h.noMem ∨
    ∃ slabs' y, Exchanges base slabs h slabs' (h.heap_realloc (a + 16) len).1 len _ _ ∧
    (h.heap_realloc (a + 16) len).2 = _ ∧ KeepsFirst _ _ _ (h.heap_realloc (a + 16) len).1.mem _
  rw [heq]
  by_cases hhalf : b ≠ 0 ∧ len + 16 ≤ 2 ^ (b - 1 + 5)
  · obtain ⟨slabs', hspec⟩ := reallocBlock_half hs hsettled hx hhalf.1 hhalf.2
    exact .inr ⟨slabs', _, hspec⟩
  · by_cases hfits : len + 16 ≤ 2 ^ (b + 5)
    · obtain ⟨slabs', hspec⟩ := reallocBlock_same hs hsettled hx hhalf hfits
      exact .inr ⟨slabs', _, hspec⟩
    · exact reallocBlock_move hs hsettled hx hhalf hfits hlen

/-- What `calloc` gives out is zero; it does not return without memory. -/
theorem calloc_spec (hs : InOrder base h slabs) (hsettled : ∀ x ∈ slabs, x.use ≠ .out)
    {nitems size : ℕ} (hlen : nitems * size + 16 < 2 ^ 64) {h' : Heap} {ret : ℕ}
    (hret : h.calloc nitems size = some (h', ret)) :
    (h', ret) = h.noMem ∨
      ∃ slabs' y, Exchanges base slabs h slabs' h' (nitems * size) none (some y) ∧
        ret = y.data ∧ ∀ i < nitems * size, h'.mem (ret + i) = 0 := by
  have hmod : nitems * size % 2 ^ 64 = nitems * size := Nat.mod_eq_of_lt (by omega)
  simp only [calloc, hmod] at hret
  obtain ⟨hne, hret⟩ := Option.ite_none_left_eq_some.1 hret
  have hret := Option.some.inj hret
  rcases heap_malloc_spec hs hsettled hlen with hnull | ⟨slabs', y, hdata, hcall⟩
  · rw [hnull] at hne hret
    have hzero : nitems * size = 0 := by
      by_contra hpos
      exact hne ⟨rfl, hpos⟩
    rw [← hret, hzero]
    have hkept : setRange h.mem 0 [] = h.mem := funext fun o => setRange_of_notMem (by simp)
    simp only [noMem, List.replicate_zero, hkept, true_or]
  · generalize h.heap_malloc (nitems * size) = r at hdata hcall hret
    obtain ⟨h₁, p⟩ := r
    obtain rfl : p = y.data := hdata
    obtain ⟨rfl, rfl⟩ := Prod.mk.inj hret
    have hy := hcall.new_live y rfl
    have hmem_y : y ∈ slabs' := (hcall.exchanged.iff y _ hy).2 (.inr rfl)
    obtain ⟨-, -, -, -, -, hroom⟩ := header hcall.heap hmem_y hy
    refine .inr ⟨slabs', y, hcall.write fun o ho => setRange_of_notMem ?_, rfl, fun i hi => ?_⟩
    · rw [List.length_replicate]
      have : y.size = 2 ^ (y.bucket + 5) := rfl
      unfold Slab.data
      omega
    · show setRange h₁.mem y.data (List.replicate (nitems * size) 0) (y.data + i) = 0
      rw [setRange_of_mem (by omega) (by rw [List.length_replicate]; omega), List.getElem_replicate]

end Calls

end Heap

end Glidix.Libc.HeapAlloc
