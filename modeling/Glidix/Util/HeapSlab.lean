import Glidix.Lib.Runs
import Glidix.Lib.Slabs

/-!
# The slab heap of the kernel

With `__CONFIG_HEAP_SLAB` the kernel divides 1 GB into slabs.  A page of it is mapped when it is first needed:
the first page of a slab when the slab is cut off, and the others when the slab is given out or resized.  A
page that is mapped stays so, and what was in its frame is the initial memory.
-/

namespace Glidix.Util.HeapSlab

open Bytes SlabHeap

/-! ## Page tables -/

/-- Which entries of the four levels are present. -/
structure PageTables where
  pml4 : ℕ → Bool
  pdpt : ℕ → Bool
  pd : ℕ → Bool
  pt : ℕ → Bool

namespace PageTables

/-- An entry that is not present becomes so. -/
def setPresent (table : ℕ → Bool) (i : ℕ) : ℕ → Bool := if table i then table else Function.update table i true

def mapPage (p : PageTables) (addr : ℕ) : PageTables where
  pml4 := setPresent p.pml4 (addr / 0x1000 / 2 ^ 27)
  pdpt := setPresent p.pdpt (addr / 0x1000 / 2 ^ 18)
  pd := setPresent p.pd (addr / 0x1000 / 2 ^ 9)
  pt := setPresent p.pt (addr / 0x1000)

/-- The loop goes in steps of a page from `ptr` on. -/
def mapPages (p : PageTables) (ptr size : ℕ) : PageTables :=
  (List.range ((size + 0xFFF) / 0x1000)).foldl (fun p i => p.mapPage (ptr + i * 0x1000)) p

def mapped (p : PageTables) (addr : ℕ) : Prop :=
  p.pml4 (addr / 0x1000 / 2 ^ 27) ∧ p.pdpt (addr / 0x1000 / 2 ^ 18) ∧ p.pd (addr / 0x1000 / 2 ^ 9) ∧
    p.pt (addr / 0x1000)

end PageTables

/-! ## The code -/

def HEAP_BASE_ADDR : ℕ := 0xFFFF810000000000

def NUM_BUCKETS : ℕ := 26

structure Heap where
  mem : Bytes
  buckets : ℕ → ℕ
  tables : PageTables

namespace Heap

def mapPages (h : Heap) (ptr size : ℕ) : Heap := { h with tables := h.tables.mapPages ptr size }

/-- `slabAlloc`, with the number of buckets from this one on. -/
def slabAllocFrom (h : Heap) : ℕ → Heap × ℕ
  | 0 => (h, 0)
  | k + 1 =>
    let bucket := NUM_BUCKETS - (k + 1)
    let slabSize := 2 ^ (bucket + 5)
    if h.buckets bucket ≠ 0 then
      let front := h.buckets bucket
      ({ h with buckets := Function.update h.buckets bucket (load 8 h.mem front) }, front)
    else
      let (h, higher) := slabAllocFrom h k
      if higher = 0 then (h, 0)
      else
        let other := higher + slabSize
        let h := h.mapPages other 1
        let h := { h with mem := store 8 h.mem other 0 }
        ({ h with buckets := Function.update h.buckets bucket other }, higher)

def slabAlloc (h : Heap) (bucket : ℕ) : Heap × ℕ := h.slabAllocFrom (NUM_BUCKETS - bucket)

/-- `slabAlloc` as it calls itself. -/
theorem slabAlloc_eq (h : Heap) (bucket : ℕ) :
    h.slabAlloc bucket =
      if bucket ≥ NUM_BUCKETS then (h, 0)
      else if h.buckets bucket ≠ 0 then
        ({ h with buckets := Function.update h.buckets bucket (load 8 h.mem (h.buckets bucket)) }, h.buckets bucket)
      else
        let (h, higher) := h.slabAlloc (bucket + 1)
        if higher = 0 then (h, 0)
        else
          let h := h.mapPages (higher + 2 ^ (bucket + 5)) 1
          ({ h with
              mem := store 8 h.mem (higher + 2 ^ (bucket + 5)) 0
              buckets := Function.update h.buckets bucket (higher + 2 ^ (bucket + 5)) }, higher) := by
  unfold slabAlloc
  by_cases hb : bucket ≥ NUM_BUCKETS
  · rw [if_pos hb, Nat.sub_eq_zero_of_le hb]
    rfl
  · rw [if_neg hb]
    obtain ⟨k, hk⟩ := Nat.exists_eq_succ_of_ne_zero (Nat.sub_ne_zero_of_lt (Nat.lt_of_not_le hb))
    have hbucket : NUM_BUCKETS - (k + 1) = bucket := by omega
    have hnext : NUM_BUCKETS - (bucket + 1) = k := by omega
    rw [hk, hnext]
    simp only [slabAllocFrom, hbucket]

def setRealSize (h : Heap) (slab realSize : ℕ) : Heap := { h with mem := store 8 h.mem (slab + 8) realSize }

def kxmallocDynamic (h : Heap) (size : ℕ) : Heap × ℕ :=
  if size = 0 then (h, 0)
  else
    let size := withHeader size
    let bucket := bucketFor NUM_BUCKETS size
    if bucket = NUM_BUCKETS then (h, 0)
    else
      let (h, slab) := h.slabAlloc bucket
      if slab = 0 then (h, 0)
      else
        let h := h.mapPages slab size
        let h := { h with mem := store 8 h.mem slab bucket }
        (h.setRealSize slab (withoutHeader size), slab + 16)

/-- `_kxmalloc` once the heap is ready. -/
def kmalloc (h : Heap) (size : ℕ) : Heap × ℕ :=
  if size = 0 then (h, 0) else if size ≥ 0x40000000 then (h, 0) else h.kxmallocDynamic size

/-- The bucket is converted to `int`. -/
def kfree (h : Heap) (block : ℕ) : Heap :=
  if block = 0 then h
  else
    let slab := block - 16
    let bucket := load 8 h.mem slab % 2 ^ 32
    let h := { h with mem := store 8 h.mem slab (h.buckets bucket) }
    { h with buckets := Function.update h.buckets bucket slab }

def memcpy (h : Heap) (dst src n : ℕ) : Heap := { h with mem := setRange h.mem dst (slice h.mem src n) }

/-- What `krealloc` does with a block; `size` is the size with the header, and `len` is `size - 16`. -/
def kreallocBlock (h : Heap) (block size len : ℕ) : Heap × ℕ :=
  let slab := block - 16
  let bucket := load 8 h.mem slab
  let currentSize := 2 ^ (bucket + 5)
  if bucket ≠ 0 ∧ size < currentSize / 2 then
    let h := { h with mem := store 8 h.mem slab (bucket - 1) }
    let h := h.setRealSize slab len
    let newBucketSize := 2 ^ (load 8 h.mem slab + 5)
    let second := slab + newBucketSize
    let h := h.mapPages second 1
    let h := { h with mem := store 8 h.mem second (h.buckets (load 8 h.mem slab)) }
    ({ h with buckets := Function.update h.buckets (load 8 h.mem slab) second }, block)
  else if size ≤ currentSize then ((h.setRealSize slab len).mapPages slab size, block)
  else
    let (h, newblock) := h.kmalloc len
    if newblock = 0 then (h, 0)
    else
      let toCopy := load 8 h.mem (slab + 8)
      let toCopy := if toCopy > len then len else toCopy
      ((h.memcpy newblock block toCopy).kfree block, newblock)

def krealloc (h : Heap) (block size : ℕ) : Heap × ℕ :=
  if size = 0 then (h.kfree block, 0)
  else if block = 0 then h.kmalloc size
  else h.kreallocBlock block (withHeader size) (withoutHeader (withHeader size))

end Heap

/-- One slab, with its first page. -/
def initMemoryPhase2 (mem : Bytes) (tables : PageTables) : Heap :=
  { mem := store 8 mem HEAP_BASE_ADDR 0
    buckets := Function.update (fun _ => 0) (NUM_BUCKETS - 1) HEAP_BASE_ADDR
    tables := tables.mapPages HEAP_BASE_ADDR 1 }

/-! ## Runs -/

/-- The heap with the blocks that its callers hold: the size that was asked for at each address. -/
structure HeapState where
  heap : Heap
  live : ℕ → Option ℕ

inductive HeapOp where
  | kxmallocDynamic (size : ℕ)
  | krealloc (block size : ℕ)
  | kfree (block : ℕ)
  /-- The kernel writes into a block. -/
  | write (block off : ℕ) (byte : UInt8)

namespace HeapState

/-- What a call leaves that gives back `block` and returns `ret`. -/
def exchange (s : HeapState) (heap : Heap) (block ret size : ℕ) : HeapState :=
  ⟨heap, SlabHeap.exchange s.live block ret size⟩

/-- What a call returns and leaves; a call of `krealloc` that finds no memory keeps the block. -/
def exec (s : HeapState) : HeapOp → ℕ × HeapState
  | .kxmallocDynamic size =>
    let (heap, ret) := s.heap.kxmallocDynamic size
    (ret, s.exchange heap 0 ret size)
  | .krealloc block size =>
    let (heap, ret) := s.heap.krealloc block size
    (ret, s.exchange heap (if ret = 0 ∧ size ≠ 0 then 0 else block) ret size)
  | .kfree block => (0, s.exchange (s.heap.kfree block) block 0 0)
  | .write block off byte => (0, { s with heap.mem := Function.update s.heap.mem (block + off) byte })

/-- Only live blocks are freed, resized and written; the sizes are of type `size_t`. -/
def Legal (s : HeapState) : HeapOp → Prop
  | .kxmallocDynamic size => size < 2 ^ 64
  | .krealloc block size => (block = 0 ∨ (s.live block).isSome) ∧ size < 2 ^ 64
  | .kfree block => block = 0 ∨ (s.live block).isSome
  | .write block off _ => ∃ size ∈ s.live block, off < size

instance (s : HeapState) : DecidablePred s.Legal := fun op => by
  unfold Legal
  split
  all_goals infer_instance

end HeapState

/-- The runs of the heap, with any memory under it and any tables before. -/
def heapSystem : System HeapState HeapOp where
  init s := ∃ mem tables, s = ⟨initMemoryPhase2 mem tables, fun _ => none⟩
  step s op t := s.Legal op ∧ (s.exec op).2 = t

/-! ## Pages -/

namespace PageTables

variable {p : PageTables} {a o ptr size : ℕ} {table : ℕ → Bool} {i j : ℕ}

theorem setPresent_mono (h : table j) : setPresent table i j := by
  unfold setPresent
  split_ifs
  · exact h
  · by_cases hj : j = i
    · rw [hj, Function.update_self]
    · rwa [Function.update_of_ne hj]

theorem setPresent_self (table : ℕ → Bool) (i : ℕ) : setPresent table i i := by
  unfold setPresent
  split_ifs with h
  · exact h
  · rw [Function.update_self]

theorem mapPage_mono (h : p.mapped o) : (p.mapPage a).mapped o :=
  ⟨setPresent_mono h.1, setPresent_mono h.2.1, setPresent_mono h.2.2.1, setPresent_mono h.2.2.2⟩

theorem mapPage_mapped (h : o / 0x1000 = a / 0x1000) : (p.mapPage a).mapped o := by
  unfold mapped mapPage
  rw [h]
  exact ⟨setPresent_self _ _, setPresent_self _ _, setPresent_self _ _, setPresent_self _ _⟩

theorem foldl_mono {l : List ℕ} (h : p.mapped o) :
    (l.foldl (fun p i => p.mapPage (ptr + i * 0x1000)) p).mapped o := by
  induction l generalizing p with
  | nil => exact h
  | cons i l ih => exact ih (mapPage_mono h)

theorem foldl_mapped {l : List ℕ} (hi : i ∈ l) (h : o / 0x1000 = (ptr + i * 0x1000) / 0x1000) :
    (l.foldl (fun p i => p.mapPage (ptr + i * 0x1000)) p).mapped o := by
  induction l generalizing p with
  | nil => cases hi
  | cons j l ih =>
    rcases List.mem_cons.1 hi with rfl | hi
    · rw [List.foldl_cons]
      exact foldl_mono (mapPage_mapped h)
    · exact ih hi

theorem mapPages_mono (h : p.mapped o) : (p.mapPages ptr size).mapped o := foldl_mono h

/-- The pages of an area that begins with a page, or lies in one. -/
theorem mapPages_mapped (hpage : ptr % 0x1000 = 0 ∨ ptr % 0x1000 + size ≤ 0x1000) (h₁ : ptr ≤ o)
    (h₂ : o < ptr + size) : (p.mapPages ptr size).mapped o := by
  refine foldl_mapped (i := (o - ptr) / 0x1000) (List.mem_range.2 ?_) ?_
  · omega
  · omega

end PageTables

/-- The pages of a slab. -/
theorem slab_page {ok : ℕ → Prop} {n : ℕ} {mem : Bytes} {heads : ℕ → ℕ} {slabs : List Slab} {x : Slab} {size : ℕ}
    (h : SlabHeap ok n HEAP_BASE_ADDR mem heads slabs) (hx : x ∈ slabs) (hsize : size ≤ x.size) :
    x.addr % 0x1000 = 0 ∨ x.addr % 0x1000 + size ≤ 0x1000 := by
  obtain ⟨q, hq⟩ := h.aligned x hx
  have hbase := (h.bounds hx).1
  have haddr : x.addr = HEAP_BASE_ADDR + x.size * q := by omega
  have hpage : x.addr % 0x1000 = (x.size * q) % 0x1000 := by
    rw [haddr, HEAP_BASE_ADDR]
    omega
  by_cases hbucket : 7 ≤ x.bucket
  · left
    have hdvd : 0x1000 ∣ x.size := Nat.pow_dvd_pow 2 (by omega : 12 ≤ x.bucket + 5)
    rw [hpage]
    exact Nat.mod_eq_zero_of_dvd (hdvd.mul_right q)
  · right
    obtain ⟨t, ht⟩ : x.size ∣ 0x1000 := Nat.pow_dvd_pow 2 (by omega : x.bucket + 5 ≤ 12)
    have htpos : 0 < t := Nat.pos_of_ne_zero (by rintro rfl; omega)
    rw [hpage, ht, Nat.mul_mod_mul_left]
    calc x.size * (q % t) + size ≤ x.size * (q % t) + x.size := Nat.add_le_add_left hsize _
      _ = x.size * (q % t + 1) := (Nat.mul_succ _ _).symm
      _ ≤ x.size * t := Nat.mul_le_mul_left _ (Nat.mod_lt q htpos)

/-! ## The calls -/

/-- The slabs of the heap are in order, each with its first page. -/
abbrev InOrder (h : Heap) (slabs : List Slab) : Prop :=
  SlabHeap h.tables.mapped NUM_BUCKETS HEAP_BASE_ADDR h.mem h.buckets slabs

/-- All pages of the live slabs that are used are mapped, and the first half of the slabs. -/
def Backed (p : PageTables) (slabs : List Slab) : Prop :=
  ∀ x ∈ slabs, ∀ k, x.use = .live k → ∀ o, x.addr ≤ o → o < x.addr + max (16 + k) (x.size / 2) → p.mapped o

/-- A call that gives back the slab `old` and gives out `new`. -/
structure Exchanges (slabs : List Slab) (h : Heap) (slabs' : List Slab) (h' : Heap) (size : ℕ)
    (old new : Option Slab) : Prop where
  called : Called h'.tables.mapped NUM_BUCKETS HEAP_BASE_ADDR slabs h.mem slabs' h'.mem h'.buckets size old new
  grows : ∀ o, h.tables.mapped o → h'.tables.mapped o
  backed : ∀ x, new = some x → ∀ o, x.addr ≤ o → o < x.addr + max (16 + size) (x.size / 2) → h'.tables.mapped o

theorem Exchanges.refl {slabs : List Slab} {h : Heap} (hs : InOrder h slabs) (hsettled : ∀ x ∈ slabs, x.use ≠ .out)
    (size : ℕ) : Exchanges slabs h slabs h size none none :=
  ⟨.refl hs hsettled size, fun _ => id, nofun⟩

theorem Exchanges.allBacked {slabs slabs' : List Slab} {h h' : Heap} {size : ℕ} {old new : Option Slab}
    (hex : Exchanges slabs h slabs' h' size old new) (hb : Backed h.tables slabs) : Backed h'.tables slabs' := by
  intro x hx k hk o h₁ h₂
  rcases (hex.called.exchanged.iff x k hk).1 hx with ⟨hx, -⟩ | hnew
  · exact hex.grows o (hb x hx k hk o h₁ h₂)
  · have hsize := hex.called.new_live x hnew
    rw [hk, SlabUse.live.injEq] at hsize
    subst hsize
    exact hex.backed x hnew o h₁ h₂

namespace Heap

section Calls

variable {h : Heap} {k len bucket block : ℕ} {slabs : List Slab}

/-- The lists of smaller slabs are as before. -/
theorem slabAllocFrom_buckets {c : ℕ} (hc : c + k < NUM_BUCKETS) : (h.slabAllocFrom k).1.buckets c = h.buckets c := by
  induction k with
  | zero => rfl
  | succ k ih =>
    have hne : c ≠ NUM_BUCKETS - (k + 1) := by omega
    have hkept := ih (by omega)
    simp only [slabAllocFrom]
    split_ifs
    · exact Function.update_of_ne hne _ _
    · exact hkept
    · exact (Function.update_of_ne hne _ _).trans hkept

theorem slabAllocFrom_null (hr : (h.slabAllocFrom k).2 = 0) : (h.slabAllocFrom k).1 = h := by
  induction k with
  | zero => rfl
  | succ k ih =>
    simp only [slabAllocFrom] at hr ⊢
    split_ifs at hr ⊢ with hhead hup
    · exact absurd hr hhead
    · exact ih hup
    · exact absurd hr hup

theorem slabAllocFrom_grows {o : ℕ} (ho : h.tables.mapped o) : (h.slabAllocFrom k).1.tables.mapped o := by
  induction k with
  | zero => exact ho
  | succ k ih =>
    simp only [slabAllocFrom]
    split_ifs
    · exact ho
    · exact ih
    · exact PageTables.mapPages_mono ih

theorem slabAllocFrom_spec (hk : k ≤ NUM_BUCKETS) (hs : InOrder h slabs) (hsettled : ∀ x ∈ slabs, x.use ≠ .out)
    (hr : (h.slabAllocFrom k).2 ≠ 0) :
    ∃ slabs', InOrder (h.slabAllocFrom k).1 slabs' ∧
      Taken slabs h.mem slabs' (h.slabAllocFrom k).1.mem ⟨(h.slabAllocFrom k).2, NUM_BUCKETS - k, .out⟩ := by
  induction k with
  | zero => exact absurd rfl hr
  | succ k ih =>
    have hbucket : NUM_BUCKETS - k = NUM_BUCKETS - (k + 1) + 1 := by omega
    have hlt : NUM_BUCKETS - (k + 1) < NUM_BUCKETS := by omega
    have hkept := @slabAllocFrom_buckets h k (NUM_BUCKETS - (k + 1)) (by omega)
    simp only [slabAllocFrom] at hr ⊢
    split_ifs at hr ⊢ with hhead hup
    · exact hs.take hsettled hlt hhead
    · exact absurd rfl hr
    · obtain ⟨slabs', hs', ht⟩ := ih (by omega) hup
      rw [hbucket] at ht
      -- the page of the second half is mapped before it is linked
      have hmapped := fun o => @PageTables.mapPages_mono (h.slabAllocFrom k).1.tables o
        ((h.slabAllocFrom k).2 + 2 ^ (NUM_BUCKETS - (k + 1) + 5)) 1
      have hother := @PageTables.mapPages_mapped (h.slabAllocFrom k).1.tables _
        ((h.slabAllocFrom k).2 + 2 ^ (NUM_BUCKETS - (k + 1) + 5)) 1 (by omega) le_rfl (Nat.lt_succ_self _)
      have hhalf := ht.half (hs'.mono hmapped) hother
      rwa [hkept, not_not.1 hhead] at hhalf

theorem slabAlloc_spec (hb : bucket ≤ NUM_BUCKETS) (hs : InOrder h slabs) (hsettled : ∀ x ∈ slabs, x.use ≠ .out)
    (hr : (h.slabAlloc bucket).2 ≠ 0) :
    ∃ slabs', InOrder (h.slabAlloc bucket).1 slabs' ∧
      Taken slabs h.mem slabs' (h.slabAlloc bucket).1.mem ⟨(h.slabAlloc bucket).2, bucket, .out⟩ := by
  have hspec := slabAllocFrom_spec (Nat.sub_le _ _) hs hsettled hr
  rwa [Nat.sub_sub_self hb] at hspec

theorem tables_mapPages (h : Heap) (ptr size : ℕ) : (h.mapPages ptr size).tables = h.tables.mapPages ptr size := rfl

/-- The slab that was taken becomes live; its pages are mapped. -/
theorem enter_spec {h₁ : Heap} {slabs₁ : List Slab} {r : ℕ} (hs : InOrder h₁ slabs₁)
    (ht : Taken slabs h.mem slabs₁ h₁.mem ⟨r, bucket, .out⟩) (hgrows : ∀ o, h.tables.mapped o → h₁.tables.mapped o)
    (hfits : len + 16 ≤ 2 ^ (bucket + 5)) (hsmaller : ∀ c < bucket, 2 ^ (c + 5) < len + 16)
    {tables : PageTables} (htables : tables = h₁.tables.mapPages r (len + 16)) :
    ∃ slabs', Exchanges slabs h slabs' ⟨store 8 (store 8 h₁.mem r bucket) (r + 8) len, h₁.buckets, tables⟩ len none
      (some ⟨r, bucket, .live len⟩) := by
  have hmono : ∀ o, h₁.tables.mapped o → tables.mapped o := fun o ho => by
    rw [htables]
    exact PageTables.mapPages_mono ho
  obtain ⟨slabs', hcall⟩ := ht.enter (hs.mono hmono) (k := len) (by omega)
  refine ⟨slabs', hcall, fun o ho => hmono o (hgrows o ho), fun x hx o h₁ h₂ => ?_⟩
  obtain rfl := Option.some.inj hx
  simp only [htables]
  refine PageTables.mapPages_mapped (slab_page hs ht.mem hfits) h₁ ?_
  have hhalf : 2 ^ (bucket + 5) / 2 ≤ len + 16 := by
    cases bucket with
    | zero => exact Nat.le_add_left _ _
    | succ c =>
      have := hsmaller c (Nat.lt_succ_self c)
      rw [Nat.add_right_comm, Nat.pow_succ]
      omega
  have hsize : Slab.size ⟨r, bucket, .live len⟩ = 2 ^ (bucket + 5) := rfl
  rw [hsize] at h₂
  simp only at h₂ ⊢
  omega

/-- A call that does not find memory changes nothing; otherwise it gives out a block of `len` bytes. -/
theorem kxmallocDynamic_spec (hs : InOrder h slabs) (hsettled : ∀ x ∈ slabs, x.use ≠ .out)
    (hlen : len + 16 < 2 ^ 64) :
    h.kxmallocDynamic len = (h, 0) ∨
      ∃ slabs' y, (h.kxmallocDynamic len).2 = y.data ∧
        Exchanges slabs h slabs' (h.kxmallocDynamic len).1 len none (some y) := by
  by_cases hzero : len = 0
  · exact .inl (if_pos hzero)
  by_cases hbucket : bucketFor NUM_BUCKETS (withHeader len) = NUM_BUCKETS
  · exact .inl ((if_neg hzero).trans (if_pos hbucket))
  obtain ⟨hlt, hle, hsmaller⟩ := bucketFor_spec hbucket
  by_cases hr : (h.slabAlloc (bucketFor NUM_BUCKETS (withHeader len))).2 = 0
  · have hnull : h.kxmallocDynamic len = ((h.slabAlloc (bucketFor NUM_BUCKETS (withHeader len))).1, 0) :=
      (if_neg hzero).trans ((if_neg hbucket).trans (if_pos hr))
    have hkept : (h.slabAlloc (bucketFor NUM_BUCKETS (withHeader len))).1 = h := slabAllocFrom_null hr
    exact .inl (hnull.trans (congrArg (·, 0) hkept))
  have hgot : h.kxmallocDynamic len =
      (⟨store 8 (store 8 (h.slabAlloc (bucketFor NUM_BUCKETS (withHeader len))).1.mem
            (h.slabAlloc (bucketFor NUM_BUCKETS (withHeader len))).2 (bucketFor NUM_BUCKETS (withHeader len)))
            ((h.slabAlloc (bucketFor NUM_BUCKETS (withHeader len))).2 + 8) (withoutHeader (withHeader len)),
          (h.slabAlloc (bucketFor NUM_BUCKETS (withHeader len))).1.buckets,
          ((h.slabAlloc (bucketFor NUM_BUCKETS (withHeader len))).1.mapPages
            (h.slabAlloc (bucketFor NUM_BUCKETS (withHeader len))).2 (withHeader len)).tables⟩,
        (h.slabAlloc (bucketFor NUM_BUCKETS (withHeader len))).2 + 16) :=
    (if_neg hzero).trans ((if_neg hbucket).trans (if_neg hr))
  rw [hgot, withoutHeader_withHeader (by omega)]
  have hspec := slabAlloc_spec hlt.le hs hsettled hr
  have hgrows := fun o => @slabAllocFrom_grows h (NUM_BUCKETS - bucketFor NUM_BUCKETS (withHeader len)) o
  have hwith := withHeader_eq hlen
  generalize bucketFor NUM_BUCKETS (withHeader len) = bucket at *
  rw [tables_mapPages, hwith]
  rw [hwith] at hle hsmaller
  obtain ⟨slabs₁, hs₁, ht⟩ := hspec
  obtain ⟨slabs', hex⟩ := enter_spec hs₁ ht hgrows hle hsmaller rfl
  exact .inr ⟨slabs', _, rfl, hex⟩

theorem kmalloc_spec (hs : InOrder h slabs) (hsettled : ∀ x ∈ slabs, x.use ≠ .out) :
    h.kmalloc len = (h, 0) ∨
      ∃ slabs' y, (h.kmalloc len).2 = y.data ∧ Exchanges slabs h slabs' (h.kmalloc len).1 len none (some y) := by
  by_cases hzero : len = 0
  · exact .inl (if_pos hzero)
  by_cases hlarge : len ≥ 0x40000000
  · exact .inl ((if_neg hzero).trans (if_pos hlarge))
  have heq : h.kmalloc len = h.kxmallocDynamic len := (if_neg hzero).trans (if_neg hlarge)
  rw [heq]
  exact kxmallocDynamic_spec hs hsettled (by omega)

/-- The header of a live block. -/
theorem header (hs : InOrder h slabs) {x : Slab} (hx : x ∈ slabs) (hlive : x.use = .live k) :
    x.data ≠ 0 ∧ x.data - 16 = x.addr ∧ load 8 h.mem x.addr = x.bucket ∧ x.bucket < NUM_BUCKETS ∧
      load 8 h.mem (x.addr + 8) = k ∧ 16 + k ≤ 2 ^ (x.bucket + 5) := by
  obtain ⟨hbucket, hsize, hle⟩ := hs.live x hx k hlive
  exact ⟨Nat.succ_ne_zero _, Nat.add_sub_cancel _ _, hbucket, hs.bucket_lt hx, hsize, hle⟩

theorem kfree_spec (hs : InOrder h slabs) (hsettled : ∀ x ∈ slabs, x.use ≠ .out) {x : Slab} (hx : x ∈ slabs)
    (hlive : x.use = .live k) (size : ℕ) : ∃ slabs', Exchanges slabs h slabs' (h.kfree x.data) size (some x) none := by
  obtain ⟨hdata, haddr, hbucket, hlt, -⟩ := header hs hx hlive
  have hint : x.bucket < 2 ^ 32 := hlt.trans (by decide)
  obtain ⟨a, b, u⟩ := x
  obtain rfl : u = .live k := hlive
  obtain ⟨slabs', hcall⟩ := hs.release hsettled hx size
  have hgot : h.kfree (Slab.data ⟨a, b, .live k⟩) =
      { h with
        mem := store 8 h.mem a (h.buckets b)
        buckets := Function.update h.buckets b a } := by
    simp only [kfree, if_neg hdata, haddr, hbucket, Nat.mod_eq_of_lt hint]
  rw [hgot]
  exact ⟨slabs', hcall, fun _ => id, nofun⟩

/-- What `krealloc` does with a live block. -/
theorem kreallocBlock_eq {a b size : ℕ} (hs : InOrder h slabs) (hx : ⟨a, b, .live k⟩ ∈ slabs) :
    h.kreallocBlock (a + 16) size len =
      if b ≠ 0 ∧ size < 2 ^ (b + 5) / 2 then
        (⟨store 8 (store 8 (store 8 h.mem a (b - 1)) (a + 8) len) (a + 2 ^ (b - 1 + 5)) (h.buckets (b - 1)),
          Function.update h.buckets (b - 1) (a + 2 ^ (b - 1 + 5)), h.tables.mapPages (a + 2 ^ (b - 1 + 5)) 1⟩, a + 16)
      else if size ≤ 2 ^ (b + 5) then
        (⟨store 8 h.mem (a + 8) len, h.buckets, h.tables.mapPages a size⟩, a + 16)
      else
        let (h, newblock) := h.kmalloc len
        if newblock = 0 then (h, 0)
        else
          let toCopy := load 8 h.mem (a + 8)
          ((h.memcpy newblock (a + 16) (if toCopy > len then len else toCopy)).kfree (a + 16), newblock) := by
  obtain ⟨-, haddr, hbucket, -⟩ := header hs hx rfl
  obtain ⟨-, hlt⟩ := hs.lt_of_mem hx
  have hprev : load 8 (store 8 (store 8 h.mem a (b - 1)) (a + 8) len) a = b - 1 := by
    rw [load_store_ne (.inl le_rfl), load_store_quad]
    exact (Nat.sub_le _ _).trans_lt hlt
  have hprev' : load 8 (store 8 (store 8 (store 8 h.mem a (b - 1)) (a + 8) len) (a + 2 ^ (b - 1 + 5))
      (h.buckets (b - 1))) a = b - 1 := by
    rw [load_store_ne, hprev]
    have : 2 ^ 5 ≤ 2 ^ (b - 1 + 5) := Nat.pow_le_pow_right (by decide) (Nat.le_add_left _ _)
    omega
  have haddr : a + 16 - 16 = a := haddr
  have hbucket : load 8 h.mem a = b := hbucket
  simp only [kreallocBlock, haddr, hbucket, setRealSize, mapPages, hprev, hprev']

section Resize

variable {a b : ℕ} (hs : InOrder h slabs) (hsettled : ∀ x ∈ slabs, x.use ≠ .out) (hback : Backed h.tables slabs)
  (hx : ⟨a, b, .live k⟩ ∈ slabs)

include hs hsettled hx

/-- The data go to a new block, if there is one. -/
theorem kreallocBlock_move (hhalf : ¬(b ≠ 0 ∧ len + 16 < 2 ^ (b + 5) / 2)) (hfits : ¬len + 16 ≤ 2 ^ (b + 5)) :
    h.kreallocBlock (a + 16) (len + 16) len = (h, 0) ∨
      ∃ slabs' y, Exchanges slabs h slabs' (h.kreallocBlock (a + 16) (len + 16) len).1 len
          (some ⟨a, b, .live k⟩) (some y) ∧
        (h.kreallocBlock (a + 16) (len + 16) len).2 = y.data ∧
        KeepsFirst (min k len) h.mem (a + 16) (h.kreallocBlock (a + 16) (len + 16) len).1.mem y.data := by
  have heq := @kreallocBlock_eq h k len slabs a b (len + 16) hs hx
  rw [if_neg hhalf, if_neg hfits] at heq
  rw [heq]
  rcases @kmalloc_spec h len slabs hs hsettled with hnull | ⟨slabs₁, y, hret, hex⟩
  · rw [hnull]
    exact .inl rfl
  · generalize h.kmalloc len = r at hret hex ⊢
    obtain ⟨h₁, ret⟩ := r
    obtain rfl : ret = y.data := hret
    obtain ⟨hcall, hgrows, hbacked⟩ := hex
    have hy := hcall.new_live y rfl
    have hmem_y : y ∈ slabs₁ := (hcall.exchanged.iff y len hy).2 (.inr rfl)
    have hmem_x : ⟨a, b, .live k⟩ ∈ slabs₁ := (hcall.exchanged.iff _ k rfl).2 (.inl ⟨hx, nofun⟩)
    obtain ⟨-, -, -, -, -, hroom⟩ := header hcall.heap hmem_y hy
    have hbytes := hcall.exchanged.bytes _ hx k rfl nofun
    obtain ⟨-, -, -, -, hsize, hle⟩ := header hcall.heap hmem_x rfl
    have hsize : load 8 h₁.mem (a + 8) = k := hsize
    simp only [Nat.succ_ne_zero, if_false, Slab.data, hsize, ite_gt_eq_min]
    set n := min k len with hn
    set mem₂ := setRange h₁.mem (y.addr + 16) (slice h₁.mem (a + 16) n) with hmem₂
    have hagree : AgreeOutside (y.addr + 16) (y.addr + y.size) h₁.mem mem₂ := fun o ho => by
      refine setRange_of_notMem ?_
      rw [length_slice]
      have : y.size = 2 ^ (y.bucket + 5) := rfl
      omega
    have hcall₂ := hcall.write hagree
    obtain ⟨slabs', hfree⟩ := @kfree_spec { h₁ with mem := mem₂ } k _ hcall₂.heap hcall₂.settled _ hmem_x rfl len
    refine .inr ⟨slabs', y, ⟨hcall₂.swap hx rfl hfree.called, fun o ho => hfree.grows o (hgrows o ho),
      fun x hx o h₁ h₂ => hfree.grows o (hbacked x hx o h₁ h₂)⟩, rfl, fun i hi => ?_⟩
    have hne : some ⟨a, b, .live k⟩ ≠ some y := by
      rintro ⟨⟩
      exact nomatch hcall.exchanged.fresh _ rfl hx
    have hysize : y.size = 2 ^ (y.bucket + 5) := rfl
    have hxsize : Slab.size ⟨a, b, .live k⟩ = 2 ^ (b + 5) := rfl
    simp only at hle
    calc _ = mem₂ (y.addr + 16 + i) :=
          hfree.called.exchanged.bytes y hmem_y len hy hne _ (by omega) (by omega)
      _ = h₁.mem (a + 16 + i) := by
        rw [hmem₂, setRange_of_mem (by omega) (by rw [length_slice]; omega)]
        simp [slice]
      _ = h.mem (a + 16 + i) := hbytes _ (by simp only; omega) (by simp only [hxsize]; omega)

include hback

/-- The block is cut in half. -/
theorem kreallocBlock_half (hb : b ≠ 0) (hfits : len + 16 < 2 ^ (b + 5) / 2) :
    ∃ slabs', Exchanges slabs h slabs' (h.kreallocBlock (a + 16) (len + 16) len).1 len
        (some ⟨a, b, .live k⟩) (some ⟨a, b - 1, .live len⟩) ∧
      (h.kreallocBlock (a + 16) (len + 16) len).2 = a + 16 ∧
      KeepsFirst (min k len) h.mem (a + 16) (h.kreallocBlock (a + 16) (len + 16) len).1.mem (a + 16) := by
  have heq := @kreallocBlock_eq h k len slabs a b (len + 16) hs hx
  rw [if_pos ⟨hb, hfits⟩] at heq
  rw [heq]
  obtain ⟨c, rfl⟩ := Nat.exists_eq_succ_of_ne_zero hb
  obtain ⟨hsize, hbucket⟩ := hs.lt_of_mem hx
  have hpow : 2 ^ (c + 6) = 2 ^ (c + 5) + 2 ^ (c + 5) := Slab.size_succ a c .out .out
  have hsize : 2 ^ (c + 6) ≤ 2 ^ 64 := hsize
  have hge : 32 ≤ 2 ^ (c + 5) := Slab.size_ge ⟨a, c, .out⟩
  have hlt : c < NUM_BUCKETS := (Nat.lt_succ_self c).trans (hs.bucket_lt hx)
  have hhalf : 2 ^ (c + 6) / 2 = 2 ^ (c + 5) := by omega
  have hfits : len + 16 < 2 ^ (c + 5) := hhalf ▸ hfits
  simp only [Nat.succ_eq_add_one, Nat.add_sub_cancel]
  set mem' := store 8 (store 8 (store 8 h.mem a c) (a + 8) len) (a + 2 ^ (c + 5)) (h.buckets c) with hmem'
  have hmem : AgreeOutside a (a + 2 ^ (c + 6)) h.mem mem' :=
    ((agreeOutside_store (by omega) (by omega)).trans (agreeOutside_store (by omega) (by omega))).trans
      (agreeOutside_store (by omega) (by omega))
  have hnext : load 8 mem' (a + 2 ^ (c + 5)) = h.buckets c := hs.load_store_head hlt
  have hlive : load 8 mem' a = c ∧ load 8 mem' (a + 8) = len ∧ 16 + len ≤ 2 ^ (c + 5) := by
    have hc : c < 2 ^ 64 := (Nat.lt_succ_self c).trans hbucket
    rw [hmem', load_store_ne (.inl (by omega)), load_store_ne (.inl le_rfl), load_store_quad hc,
      load_store_ne (.inl (by omega)), load_store_quad (by omega)]
    exact ⟨rfl, rfl, by omega⟩
  have hother := @PageTables.mapPages_mapped h.tables _ (a + 2 ^ (c + 5)) 1 (by omega) le_rfl (Nat.lt_succ_self _)
  have hmono := fun o => @PageTables.mapPages_mono h.tables o (a + 2 ^ (c + 5)) 1
  obtain ⟨slabs', hcall⟩ := (hs.mono hmono).shrink hsettled hother hx hmem hnext hlive
  refine ⟨slabs', ⟨hcall, hmono, fun x hx' o h₁ h₂ => ?_⟩, trivial, fun i hi => ?_⟩
  · obtain rfl := Option.some.inj hx'
    refine hmono o (hback _ hx k rfl o h₁ ?_)
    have hnew : Slab.size ⟨a, c, .live len⟩ = 2 ^ (c + 5) := rfl
    have hold : Slab.size ⟨a, c.succ, .live k⟩ = 2 ^ (c + 6) := rfl
    rw [hnew] at h₂
    rw [hold, hhalf]
    simp only at h₂ ⊢
    omega
  · rw [hmem', store_of_notMem (.inl (by omega)), store_of_notMem (.inr (by omega)), store_of_notMem (.inr (by omega))]

/-- The block stays where it is. -/
theorem kreallocBlock_same (hhalf : ¬(b ≠ 0 ∧ len + 16 < 2 ^ (b + 5) / 2)) (hfits : len + 16 ≤ 2 ^ (b + 5)) :
    ∃ slabs', Exchanges slabs h slabs' (h.kreallocBlock (a + 16) (len + 16) len).1 len
        (some ⟨a, b, .live k⟩) (some ⟨a, b, .live len⟩) ∧
      (h.kreallocBlock (a + 16) (len + 16) len).2 = a + 16 ∧
      KeepsFirst (min k len) h.mem (a + 16) (h.kreallocBlock (a + 16) (len + 16) len).1.mem (a + 16) := by
  have heq := @kreallocBlock_eq h k len slabs a b (len + 16) hs hx
  rw [if_neg hhalf, if_pos hfits] at heq
  rw [heq]
  have hpage := slab_page hs hx hfits
  have hmapped := fun o => @PageTables.mapPages_mapped h.tables o a (len + 16) hpage
  have hmono := fun o => @PageTables.mapPages_mono h.tables o a (len + 16)
  generalize h.tables.mapPages a (len + 16) = tables at hmapped hmono ⊢
  obtain ⟨slabs', hcall⟩ := (hs.mono hmono).resize hsettled hx (k := len) (by omega)
  refine ⟨slabs', ⟨hcall, hmono, fun x hx' o h₁ h₂ => ?_⟩, rfl, fun i hi => store_of_notMem (.inr (by omega))⟩
  obtain rfl := Option.some.inj hx'
  by_cases ho : o < a + (len + 16)
  · exact hmapped o h₁ ho
  · refine hmono o (hback _ hx k rfl o h₁ ?_)
    have hsize : Slab.size ⟨a, b, .live len⟩ = Slab.size ⟨a, b, .live k⟩ := rfl
    rw [hsize] at h₂
    simp only at h₁ h₂ ⊢
    omega

end Resize

/-- A block that is resized: without memory it stays as it is; otherwise what fits of its data is in the block
that is returned. -/
theorem krealloc_spec (hs : InOrder h slabs) (hsettled : ∀ x ∈ slabs, x.use ≠ .out) (hback : Backed h.tables slabs)
    {x : Slab} (hx : x ∈ slabs) (hlive : x.use = .live k) (hzero : len ≠ 0) (hlen : len + 16 < 2 ^ 64) :
    h.krealloc x.data len = (h, 0) ∨
      ∃ slabs' y, Exchanges slabs h slabs' (h.krealloc x.data len).1 len (some x) (some y) ∧
        (h.krealloc x.data len).2 = y.data ∧
        KeepsFirst (min k len) h.mem x.data (h.krealloc x.data len).1.mem y.data := by
  obtain ⟨a, b, u⟩ := x
  obtain rfl : u = .live k := hlive
  have heq : h.krealloc (a + 16) len = h.kreallocBlock (a + 16) (len + 16) len := by
    have hblock : h.krealloc (a + 16) len =
        h.kreallocBlock (a + 16) (withHeader len) (withoutHeader (withHeader len)) :=
      (if_neg hzero).trans (if_neg (Nat.succ_ne_zero _))
    rw [hblock, withoutHeader_withHeader (by omega), withHeader_eq hlen]
  show h.krealloc (a + 16) len = (h, 0) ∨
    ∃ slabs' y, Exchanges slabs h slabs' (h.krealloc (a + 16) len).1 len _ _ ∧
    (h.krealloc (a + 16) len).2 = _ ∧ KeepsFirst _ _ _ (h.krealloc (a + 16) len).1.mem _
  rw [heq]
  by_cases hhalf : b ≠ 0 ∧ len + 16 < 2 ^ (b + 5) / 2
  · obtain ⟨slabs', hspec⟩ := kreallocBlock_half hs hsettled hback hx hhalf.1 hhalf.2
    exact .inr ⟨slabs', _, hspec⟩
  · by_cases hfits : len + 16 ≤ 2 ^ (b + 5)
    · obtain ⟨slabs', hspec⟩ := kreallocBlock_same hs hsettled hback hx hhalf hfits
      exact .inr ⟨slabs', _, hspec⟩
    · exact kreallocBlock_move hs hsettled hx hhalf hfits

end Calls

end Heap

end Glidix.Util.HeapSlab
