import Glidix.Lib.Linked
import Glidix.Lib.Memory
import Glidix.Lib.Tiling

/-!
# Slabs whose sizes are powers of two

An area of memory is divided into slabs.  A slab of bucket `b` has `2 ^ (b + 5)` bytes and is free, live, or
out of both.  A free slab has the link of the list of its bucket in its first word; a live one has its bucket
and the size that it is used for in its first two words (`SlabHeap`).  Slabs are taken from the lists
(`pop`), put on them (`push`), cut in half (`split`), and become live (`enter`).
-/

open Bytes

inductive SlabUse where
  | free
  | out
  | live (size : ℕ)
  deriving DecidableEq

structure Slab where
  addr : ℕ
  bucket : ℕ
  use : SlabUse
  deriving DecidableEq

def Slab.size (x : Slab) : ℕ := 2 ^ (x.bucket + 5)

/-- Where the data of a live slab begin. -/
def Slab.data (x : Slab) : ℕ := x.addr + 16

/-! ## Sizes with the header -/

/-- `len += 16` in 64 bits, which makes space for the header. -/
def withHeader (len : ℕ) : ℕ := (len + 16) % 2 ^ 64

/-- `len - 16` in 64 bits. -/
def withoutHeader (len : ℕ) : ℕ := (len + 2 ^ 64 - 16) % 2 ^ 64

/-- The first of `n` buckets whose slabs have `len` bytes, or `n`. -/
def bucketFor (n len : ℕ) : ℕ := ((List.range n).find? fun b => len ≤ 2 ^ (b + 5)).getD n

/-- The first `n` bytes from one address on are those from another one on before. -/
def KeepsFirst (n : ℕ) (mem : Bytes) (block : ℕ) (mem' : Bytes) (ret : ℕ) : Prop :=
  ∀ i < n, mem' (ret + i) = mem (block + i)

theorem ite_gt_eq_min (n m : ℕ) : (if n > m then m else n) = min n m := by
  split_ifs with h
  · exact (Nat.min_eq_right h.le).symm
  · exact (Nat.min_eq_left (Nat.le_of_not_lt h)).symm

theorem withoutHeader_withHeader {len : ℕ} (h : len < 2 ^ 64) : withoutHeader (withHeader len) = len := by
  unfold withoutHeader withHeader
  omega

theorem withHeader_eq {len : ℕ} (h : len + 16 < 2 ^ 64) : withHeader len = len + 16 := Nat.mod_eq_of_lt h

theorem bucketFor_spec {n len : ℕ} (hb : bucketFor n len ≠ n) :
    bucketFor n len < n ∧ len ≤ 2 ^ (bucketFor n len + 5) ∧ ∀ c < bucketFor n len, 2 ^ (c + 5) < len := by
  unfold bucketFor at hb ⊢
  cases hfind : (List.range n).find? fun b => decide (len ≤ 2 ^ (b + 5)) with
  | none =>
    rw [hfind] at hb
    exact absurd rfl hb
  | some b =>
    obtain ⟨hfits, hmem, hbefore⟩ := List.find?_range_eq_some.1 hfind
    refine ⟨List.mem_range.1 hmem, of_decide_eq_true hfits, fun c hc => ?_⟩
    have hc' := hbefore c hc
    rw [Bool.not_eq_true', decide_eq_false_iff_not] at hc'
    exact Nat.lt_of_not_le hc'

/-! ## The heap -/

/-- The slabs of the area of `2 ^ (n + 4)` bytes from `base` on, with the heads of the lists of `n` buckets; `ok`
says where a slab may begin. -/
structure SlabHeap (ok : ℕ → Prop) (n base : ℕ) (mem : Bytes) (heads : ℕ → ℕ) (slabs : List Slab) : Prop where
  base_pos : 0 < base
  end_le : base + 2 ^ (n + 4) ≤ 2 ^ 64
  tiles : Tiles Slab.addr Slab.size base slabs (base + 2 ^ (n + 4))
  aligned : ∀ x ∈ slabs, x.size ∣ x.addr - base
  starts : ∀ x ∈ slabs, ok x.addr
  lists : ∀ b < n, ∃ l, Linked (load 8 mem) (heads b) l ∧ l.Nodup ∧ ∀ a, a ∈ l ↔ ⟨a, b, .free⟩ ∈ slabs
  live : ∀ x ∈ slabs, ∀ k, x.use = .live k →
    load 8 mem x.addr = x.bucket ∧ load 8 mem (x.addr + 8) = k ∧ 16 + k ≤ x.size

namespace Slab

theorem size_ge (x : Slab) : 32 ≤ x.size := by
  calc 32 = 2 ^ 5 := by norm_num
    _ ≤ 2 ^ (x.bucket + 5) := Nat.pow_le_pow_right (by decide) (by omega)

theorem size_pos (x : Slab) : 0 < x.size := Nat.two_pow_pos _

theorem size_succ (a b : ℕ) (u v : SlabUse) : size ⟨a, b + 1, u⟩ = size ⟨a, b, v⟩ + size ⟨a, b, v⟩ := by
  simp only [size, Nat.add_right_comm b 1 5, Nat.pow_succ]
  omega

end Slab

namespace SlabHeap

variable {ok : ℕ → Prop} {n base : ℕ} {mem mem' : Bytes} {heads heads' : ℕ → ℕ} {slabs mid : List Slab} {x y : Slab}
  {a b k : ℕ} {u : SlabUse}

/-! ## Where the slabs are -/

theorem bounds (h : SlabHeap ok n base mem heads slabs) (hx : x ∈ slabs) :
    base ≤ x.addr ∧ x.addr + x.size ≤ base + 2 ^ (n + 4) := h.tiles.bounds hx

theorem bucket_lt (h : SlabHeap ok n base mem heads slabs) (hx : x ∈ slabs) : x.bucket < n := by
  have hle : 2 ^ (x.bucket + 5) ≤ 2 ^ (n + 4) := by
    have := h.bounds hx
    simp only [Slab.size] at this
    omega
  have := (Nat.pow_le_pow_iff_right (by decide)).1 hle
  omega

theorem disjoint (h : SlabHeap ok n base mem heads slabs) (hx : x ∈ slabs) (hy : y ∈ slabs) (hne : x ≠ y) :
    x.addr + x.size ≤ y.addr ∨ y.addr + y.size ≤ x.addr := h.tiles.disjoint hx hy hne

/-- A slab is determined by its address. -/
theorem eq_of_addr (h : SlabHeap ok n base mem heads slabs) (hx : x ∈ slabs) (hy : y ∈ slabs)
    (hxy : x.addr = y.addr) : x = y := by
  by_contra hne
  have hdisj := h.disjoint hx hy hne
  have := x.size_pos
  have := y.size_pos
  omega

/-- The words of other slabs are as before. -/
theorem load_other (h : SlabHeap ok n base mem heads slabs) (hx : x ∈ slabs) (hy : y ∈ slabs) (hne : y ≠ x)
    (hmem : AgreeOutside x.addr (x.addr + x.size) mem mem') {o : ℕ} (ho : o + 8 ≤ y.size) :
    load 8 mem' (y.addr + o) = load 8 mem (y.addr + o) := by
  have hdisj := h.disjoint hy hx hne
  exact load_congr fun i _ _ => hmem i (by omega)

theorem load_other_zero (h : SlabHeap ok n base mem heads slabs) (hx : x ∈ slabs) (hy : y ∈ slabs) (hne : y ≠ x)
    (hmem : AgreeOutside x.addr (x.addr + x.size) mem mem') : load 8 mem' y.addr = load 8 mem y.addr := by
  have := y.size_ge
  exact h.load_other hx hy hne hmem (o := 0) (by omega)

/-! ## Replacing a slab -/

/-- Other slabs in the place of one, whose bytes alone change. -/
theorem replace (h : SlabHeap ok n base mem heads slabs) (hx : x ∈ slabs)
    (hmid : Tiles Slab.addr Slab.size x.addr mid (x.addr + x.size)) (haligned : ∀ y ∈ mid, y.size ∣ y.addr - base)
    (hok : ∀ y ∈ mid, ok y.addr)
    (hmem : AgreeOutside x.addr (x.addr + x.size) mem mem')
    (hlists : ∀ b < n, ∃ l, Linked (load 8 mem') (heads' b) l ∧ l.Nodup ∧
      ∀ a, a ∈ l ↔ ⟨a, b, .free⟩ ∈ mid ∨ (⟨a, b, .free⟩ ∈ slabs ∧ (⟨a, b, .free⟩ : Slab) ≠ x))
    (hlive : ∀ y ∈ mid, ∀ k, y.use = .live k →
      load 8 mem' y.addr = y.bucket ∧ load 8 mem' (y.addr + 8) = k ∧ 16 + k ≤ y.size) :
    ∃ slabs', SlabHeap ok n base mem' heads' slabs' ∧ ∀ y, y ∈ slabs' ↔ y ∈ mid ∨ y ∈ slabs ∧ y ≠ x := by
  obtain ⟨slabs', htiles, hiff⟩ := h.tiles.exists_replace hx hmid
  refine ⟨slabs', ⟨h.base_pos, h.end_le, htiles, fun y hy => ?_, fun y hy => ?_, fun b hb => ?_,
    fun y hy k hk => ?_⟩, hiff⟩
  · rcases (hiff y).1 hy with hy | ⟨hy, -⟩
    · exact haligned y hy
    · exact h.aligned y hy
  · rcases (hiff y).1 hy with hy | ⟨hy, -⟩
    · exact hok y hy
    · exact h.starts y hy
  · obtain ⟨l, hl, hnodup, hmem⟩ := hlists b hb
    exact ⟨l, hl, hnodup, fun a => (hmem a).trans (hiff _).symm⟩
  · rcases (hiff y).1 hy with hy | ⟨hy, hne⟩
    · exact hlive y hy k hk
    · have := y.size_ge
      rw [h.load_other_zero hx hy hne hmem, h.load_other hx hy hne hmem (by omega)]
      exact h.live y hy k hk

theorem mono {ok' : ℕ → Prop} (h : SlabHeap ok n base mem heads slabs) (hok : ∀ a, ok a → ok' a) :
    SlabHeap ok' n base mem heads slabs where
  base_pos := h.base_pos
  end_le := h.end_le
  tiles := h.tiles
  aligned := h.aligned
  starts := fun x hx => hok _ (h.starts x hx)
  lists := h.lists
  live := h.live

/-- The list of a bucket of which no slab changes. -/
theorem list_kept (h : SlabHeap ok n base mem heads slabs) (hx : x ∈ slabs)
    (hmem : AgreeOutside x.addr (x.addr + x.size) mem mem') (hhead : heads' b = heads b) (hb : b < n)
    (hfree : ∀ a, (⟨a, b, .free⟩ : Slab) ≠ x ∧ (⟨a, b, .free⟩ : Slab) ∉ mid) :
    ∃ l, Linked (load 8 mem') (heads' b) l ∧ l.Nodup ∧
      ∀ a, a ∈ l ↔ ⟨a, b, .free⟩ ∈ mid ∨ (⟨a, b, .free⟩ ∈ slabs ∧ (⟨a, b, .free⟩ : Slab) ≠ x) := by
  obtain ⟨l, hl, hnodup, hiff⟩ := h.lists b hb
  refine ⟨l, ?_, hnodup, fun a => ?_⟩
  · rw [hhead]
    refine hl.congr fun a ha => ?_
    have hword := h.load_other_zero hx ((hiff a).1 ha) (hfree a).1 hmem
    exact hword
  · rw [hiff]
    exact ⟨fun ha => .inr ⟨ha, (hfree a).1⟩, fun ha => ha.elim (fun ha => absurd ha (hfree a).2) And.left⟩

/-- The list of a bucket on which a slab is put. -/
theorem list_push (h : SlabHeap ok n base mem heads slabs) (hx : x ∈ slabs) (hfree : x.use ≠ .free)
    (hmem : AgreeOutside x.addr (x.addr + x.size) mem mem') (hin : x.addr ≤ a ∧ a < x.addr + x.size)
    (hnext : load 8 mem' a = heads b) (hb : b < n) (hmid : ∀ c, (⟨c, b, .free⟩ : Slab) ∈ mid ↔ c = a) :
    ∃ l, Linked (load 8 mem') (Function.update heads b a b) l ∧ l.Nodup ∧
      ∀ c, c ∈ l ↔ ⟨c, b, .free⟩ ∈ mid ∨ (⟨c, b, .free⟩ ∈ slabs ∧ (⟨c, b, .free⟩ : Slab) ≠ x) := by
  obtain ⟨l, hl, hnodup, hiff⟩ := h.lists b hb
  have hne : ∀ c, (⟨c, b, .free⟩ : Slab) ≠ x := by
    rintro c rfl
    exact hfree rfl
  have hnot : a ∉ l := fun ha => by
    have hdisj := h.disjoint ((hiff a).1 ha) hx (hne a)
    have := Slab.size_pos ⟨a, b, .free⟩
    simp only at hdisj
    omega
  have hbase := (h.bounds hx).1
  have hpos := h.base_pos
  refine ⟨a :: l, ⟨Function.update_self .., by omega, ?_⟩, List.nodup_cons.2 ⟨hnot, hnodup⟩, fun c => ?_⟩
  · rw [hnext]
    refine hl.congr fun c hc => ?_
    have hword := h.load_other_zero hx ((hiff c).1 hc) (hne c) hmem
    exact hword
  · rw [List.mem_cons, hmid, hiff]
    exact or_congr_right ⟨fun hc => ⟨hc, hne c⟩, And.left⟩

theorem head_lt (h : SlabHeap ok n base mem heads slabs) (hb : b < n) : heads b < 2 ^ 64 := by
  obtain ⟨l, hl, -, hiff⟩ := h.lists b hb
  by_cases hhead : heads b = 0
  · omega
  · obtain ⟨l', rfl, -⟩ := hl.exists_cons hhead
    have hbounds := h.bounds ((hiff _).1 List.mem_cons_self)
    have := Slab.size_pos ⟨heads b, b, .free⟩
    have := h.end_le
    simp only at hbounds
    omega

theorem load_store_head (h : SlabHeap ok n base mem heads slabs) (hb : b < n) :
    load 8 (store 8 mem' a (heads b)) a = heads b := load_store_quad (h.head_lt hb)

/-! ## Taking and putting slabs -/

/-- The first slab of a list is taken from it. -/
theorem pop (h : SlabHeap ok n base mem heads slabs) (hb : b < n) (hhead : heads b ≠ 0) :
    ⟨heads b, b, .free⟩ ∈ slabs ∧
      ∃ slabs', SlabHeap ok n base mem (Function.update heads b (load 8 mem (heads b))) slabs' ∧
        ∀ y, y ∈ slabs' ↔ y ∈ [⟨heads b, b, .out⟩] ∨ y ∈ slabs ∧ y ≠ ⟨heads b, b, .free⟩ := by
  obtain ⟨l, hl, hnodup, hiff⟩ := h.lists b hb
  obtain ⟨l', rfl, hl'⟩ := hl.exists_cons hhead
  have hx : (⟨heads b, b, .free⟩ : Slab) ∈ slabs := (hiff _).1 List.mem_cons_self
  refine ⟨hx, h.replace hx ⟨rfl, Slab.size_pos _, rfl⟩ ?_ ?_ (AgreeOutside.refl _ _ _) (fun c hc => ?_) ?_⟩
  · have haligned := h.aligned _ hx
    exact List.forall_mem_singleton.2 haligned
  · have hstart := h.starts _ hx
    exact List.forall_mem_singleton.2 hstart
  · by_cases hcb : c = b
    · subst hcb
      obtain ⟨hnot, hnodup⟩ := List.nodup_cons.1 hnodup
      refine ⟨l', by rw [Function.update_self]; exact hl', hnodup, fun a => ?_⟩
      have hmem := hiff a
      rw [List.mem_cons] at hmem
      simp only [List.mem_singleton, Slab.mk.injEq, reduceCtorEq, and_false, false_or, and_true, ne_eq]
      rw [← hmem]
      constructor
      · exact fun ha => ⟨.inr ha, fun e => hnot (e ▸ ha)⟩
      · exact fun ha => ha.1.resolve_left ha.2
    · refine h.list_kept hx (AgreeOutside.refl _ _ _) (Function.update_of_ne hcb _ _) hc fun a => ?_
      simp [hcb]
  · simp

/-- A slab is put on the list of its bucket. -/
theorem push (h : SlabHeap ok n base mem heads slabs) (hx : ⟨a, b, u⟩ ∈ slabs) (hu : u ≠ .free) :
    ∃ slabs', SlabHeap ok n base (store 8 mem a (heads b)) (Function.update heads b a) slabs' ∧
      ∀ y, y ∈ slabs' ↔ y ∈ [⟨a, b, .free⟩] ∨ y ∈ slabs ∧ y ≠ ⟨a, b, u⟩ := by
  have hsize := Slab.size_ge ⟨a, b, u⟩
  have hmem : AgreeOutside a (a + Slab.size ⟨a, b, u⟩) mem (store 8 mem a (heads b)) :=
    agreeOutside_store le_rfl (by omega)
  refine h.replace hx ⟨rfl, Slab.size_pos _, rfl⟩ ?_ ?_ hmem (fun c hc => ?_) ?_
  · have haligned := h.aligned _ hx
    exact List.forall_mem_singleton.2 haligned
  · have hstart := h.starts _ hx
    exact List.forall_mem_singleton.2 hstart
  · by_cases hcb : c = b
    · subst hcb
      have hin : a ≤ a ∧ a < a + Slab.size ⟨a, c, u⟩ := by omega
      exact h.list_push hx hu hmem hin (h.load_store_head hc) hc (by simp)
    · refine h.list_kept hx hmem (Function.update_of_ne hcb _ _) hc fun a => ?_
      simp [hcb]
  · simp

/-- A slab is cut in half, and its second half put on the list of its bucket. -/
theorem split {v : SlabUse} (hok : ok (a + 2 ^ (b + 5))) (h : SlabHeap ok n base mem heads slabs) (hx : ⟨a, b + 1, u⟩ ∈ slabs) (hu : u ≠ .free)
    (hv : v ≠ .free) (hmem : AgreeOutside a (a + 2 ^ (b + 6)) mem mem')
    (hnext : load 8 mem' (a + 2 ^ (b + 5)) = heads b)
    (hlive : ∀ k, v = .live k → load 8 mem' a = b ∧ load 8 mem' (a + 8) = k ∧ 16 + k ≤ 2 ^ (b + 5)) :
    ∃ slabs', SlabHeap ok n base mem' (Function.update heads b (a + 2 ^ (b + 5))) slabs' ∧
      ∀ y, y ∈ slabs' ↔
        y ∈ [⟨a, b, v⟩, ⟨a + 2 ^ (b + 5), b, .free⟩] ∨ y ∈ slabs ∧ y ≠ ⟨a, b + 1, u⟩ := by
  have hpos : 0 < 2 ^ (b + 5) := Nat.two_pow_pos _
  have hsize : Slab.size ⟨a, b + 1, u⟩ = 2 ^ (b + 5) + 2 ^ (b + 5) := Slab.size_succ a b u v
  have hbase : base ≤ a := (h.bounds hx).1
  refine h.replace hx ⟨rfl, Slab.size_pos _, rfl, Slab.size_pos _, ?_⟩ ?_ ?_ hmem (fun c hc => ?_) ?_
  · show a + 2 ^ (b + 5) + 2 ^ (b + 5) = a + Slab.size ⟨a, b + 1, u⟩
    omega
  · have hwhole := h.aligned _ hx
    have hdvd : 2 ^ (b + 5) ∣ a - base := (Nat.pow_dvd_pow 2 (by omega : b + 5 ≤ b + 1 + 5)).trans hwhole
    refine List.forall_mem_cons.2 ⟨hdvd, List.forall_mem_singleton.2 ?_⟩
    show 2 ^ (b + 5) ∣ a + 2 ^ (b + 5) - base
    rw [Nat.sub_add_comm hbase]
    exact Nat.dvd_add hdvd (Nat.dvd_refl _)
  · have hstart := h.starts _ hx
    exact List.forall_mem_cons.2 ⟨hstart, List.forall_mem_singleton.2 hok⟩
  · by_cases hcb : c = b
    · subst hcb
      have hin : a ≤ a + 2 ^ (c + 5) ∧ a + 2 ^ (c + 5) < a + Slab.size ⟨a, c + 1, u⟩ := by omega
      refine h.list_push hx hu hmem hin hnext hc fun d => ?_
      simp [hv.symm]
    · refine h.list_kept hx hmem (Function.update_of_ne hcb _ _) hc fun d => ⟨?_, ?_⟩
      · rintro ⟨⟩
        exact hu rfl
      · simp [hcb]
  · intro y hy k hk
    rcases List.mem_cons.1 hy with rfl | hy
    · exact hlive k hk
    · rw [List.mem_singleton.1 hy] at hk
      exact nomatch hk

/-- A slab that is not free gets another use, and other contents. -/
theorem setUse {v : SlabUse} (h : SlabHeap ok n base mem heads slabs) (hx : ⟨a, b, u⟩ ∈ slabs) (hu : u ≠ .free)
    (hv : v ≠ .free) (hmem : AgreeOutside a (a + 2 ^ (b + 5)) mem mem')
    (hlive : ∀ k, v = .live k → load 8 mem' a = b ∧ load 8 mem' (a + 8) = k ∧ 16 + k ≤ 2 ^ (b + 5)) :
    ∃ slabs', SlabHeap ok n base mem' heads slabs' ∧
      ∀ y, y ∈ slabs' ↔ y ∈ [⟨a, b, v⟩] ∨ y ∈ slabs ∧ y ≠ ⟨a, b, u⟩ := by
  refine h.replace hx ⟨rfl, Slab.size_pos _, rfl⟩ ?_ ?_ hmem (fun c hc => ?_) ?_
  · have haligned := h.aligned _ hx
    exact List.forall_mem_singleton.2 haligned
  · have hstart := h.starts _ hx
    exact List.forall_mem_singleton.2 hstart
  · refine h.list_kept hx hmem rfl hc fun a => ⟨?_, ?_⟩
    · rintro ⟨⟩
      exact hu rfl
    · intro ha
      cases List.mem_singleton.1 ha
      exact hv rfl
  · exact List.forall_mem_singleton.2 hlive

theorem lt_of_mem (h : SlabHeap ok n base mem heads slabs) (hx : x ∈ slabs) : x.size ≤ 2 ^ 64 ∧ x.bucket < 2 ^ 64 := by
  have hbounds := h.bounds hx
  have hend := h.end_le
  have hle : x.size ≤ 2 ^ 64 := by omega
  have hlt : x.bucket < 2 ^ (x.bucket + 5) :=
    Nat.lt_two_pow_self.trans_le (Nat.pow_le_pow_right (by decide) (Nat.le_add_right _ _))
  exact ⟨hle, hlt.trans_le hle⟩

/-- One free slab. -/
theorem single (hok : ok base) (hpos : 0 < base) (hend : base + 2 ^ (n + 5) ≤ 2 ^ 64) (hnext : load 8 mem base = 0) :
    SlabHeap ok (n + 1) base mem (Function.update (fun _ => 0) n base) [⟨base, n, .free⟩] := by
  have hsize : Slab.size ⟨base, n, .free⟩ = 2 ^ (n + 1 + 4) := rfl
  refine ⟨hpos, hend, ⟨rfl, Slab.size_pos _, rfl⟩, ?_, List.forall_mem_singleton.2 hok, fun b hb => ?_, ?_⟩
  · exact List.forall_mem_singleton.2 (by rw [Nat.sub_self]; exact Nat.dvd_zero _)
  · by_cases hbn : b = n
    · subst hbn
      refine ⟨[base], ⟨Function.update_self .., by omega, hnext⟩, List.nodup_singleton _, fun a => ?_⟩
      simp
    · refine ⟨[], Function.update_of_ne hbn _ _, List.nodup_nil, fun a => ?_⟩
      simp [hbn]
  · exact List.forall_mem_singleton.2 nofun

/-- The data of a live slab change. -/
theorem write (h : SlabHeap ok n base mem heads slabs) (hx : x ∈ slabs) (hlive : x.use = .live k)
    (hmem : AgreeOutside (x.addr + 16) (x.addr + x.size) mem mem') : SlabHeap ok n base mem' heads slabs := by
  have hslab : AgreeOutside x.addr (x.addr + x.size) mem mem' := hmem.mono (by omega) le_rfl
  refine ⟨h.base_pos, h.end_le, h.tiles, h.aligned, h.starts, fun b hb => ?_, fun y hy j hj => ?_⟩
  · obtain ⟨l, hl, hnodup, hiff⟩ := h.lists b hb
    refine ⟨l, hl.congr fun a ha => ?_, hnodup, hiff⟩
    have hne : (⟨a, b, .free⟩ : Slab) ≠ x := by
      rintro rfl
      exact nomatch hlive
    have hword := h.load_other_zero hx ((hiff a).1 ha) hne hslab
    exact hword
  · by_cases hyx : y = x
    · subst hyx
      have hword : ∀ o, o + 8 ≤ 16 → load 8 mem' (y.addr + o) = load 8 mem (y.addr + o) := fun o ho =>
        load_congr fun i _ _ => hmem i (by omega)
      have h0 := hword 0 (by omega)
      rw [Nat.add_zero] at h0
      rw [h0, hword 8 (by omega)]
      exact h.live y hy j hj
    · have := y.size_ge
      rw [h.load_other_zero hx hy hyx hslab, h.load_other hx hy hyx hslab (by omega)]
      exact h.live y hy j hj

/-! ## The live slabs -/

/-- The live slab `old` is gone, `new` has come, and the others are as before, with their bytes. -/
structure Exchanged (slabs : List Slab) (mem : Bytes) (slabs' : List Slab) (mem' : Bytes)
    (old new : Option Slab) : Prop where
  iff : ∀ x k, x.use = .live k → (x ∈ slabs' ↔ x ∈ slabs ∧ old ≠ some x ∨ new = some x)
  bytes : ∀ x ∈ slabs, ∀ k, x.use = .live k → old ≠ some x →
    ∀ o, x.addr ≤ o → o < x.addr + x.size → mem' o = mem o
  live : ∀ x, new = some x → ∃ k, x.use = .live k
  fresh : ∀ x, new = some x → x ∈ slabs → old = some x

section Exchange

variable {slabs' slabs₃ : List Slab} {mem₃ : Bytes} {old new old' new' : Option Slab}

theorem Exchanged.refl (slabs : List Slab) (mem : Bytes) : Exchanged slabs mem slabs mem none none :=
  ⟨fun _ _ _ => by simp, fun _ _ _ _ _ _ _ _ => rfl, nofun, nofun⟩

/-- A call that gives back the slab `old` and gives out `new`, with `size` bytes. -/
structure Called (ok : ℕ → Prop) (n base : ℕ) (slabs : List Slab) (mem : Bytes) (slabs' : List Slab) (mem' : Bytes)
    (heads' : ℕ → ℕ) (size : ℕ) (old new : Option Slab) : Prop where
  heap : SlabHeap ok n base mem' heads' slabs'
  settled : ∀ x ∈ slabs', x.use ≠ .out
  exchanged : Exchanged slabs mem slabs' mem' old new
  old_mem : ∀ x, old = some x → x ∈ slabs
  new_live : ∀ x, new = some x → x.use = .live size

theorem Called.refl (h : SlabHeap ok n base mem heads slabs) (hsettled : ∀ x ∈ slabs, x.use ≠ .out) (size : ℕ) :
    Called ok n base slabs mem slabs mem heads size none none :=
  ⟨h, hsettled, .refl _ _, nofun, nofun⟩

theorem Exchanged.trans (h : Exchanged slabs mem slabs' mem' old new)
    (h' : Exchanged slabs' mem' slabs₃ mem₃ old' new') (hold : old = none ∨ old' = none)
    (hnew : new = none ∨ new' = none) (hdiff : ∀ x, new = some x → old' ≠ some x) :
    Exchanged slabs mem slabs₃ mem₃ (old.or old') (new.or new') := by
  have hor : ∀ x, old.or old' ≠ some x ↔ old ≠ some x ∧ old' ≠ some x := fun x => by
    rcases hold with rfl | rfl
    · simp
    · simp
  have hor' : ∀ x, new.or new' = some x ↔ new = some x ∨ new' = some x := fun x => by
    rcases hnew with rfl | rfl
    · simp
    · simp
  refine ⟨fun x k hk => ?_, fun x hx k hk hne o ho₁ ho₂ => ?_, fun x hx => ?_, fun x hx hmem => ?_⟩
  · rw [h'.iff x k hk, h.iff x k hk, hor, hor']
    have := hdiff x
    tauto
  · obtain ⟨hne, hne'⟩ := (hor x).1 hne
    rw [h'.bytes x ((h.iff x k hk).2 (.inl ⟨hx, hne⟩)) k hk hne' o ho₁ ho₂, h.bytes x hx k hk hne o ho₁ ho₂]
  · exact ((hor' x).1 hx).elim (h.live x) (h'.live x)
  · by_contra hne
    obtain ⟨hne, hne'⟩ := (hor x).1 hne
    rcases (hor' x).1 hx with hx | hx
    · exact hne (h.fresh x hx hmem)
    · obtain ⟨k, hk⟩ := h'.live x hx
      exact hne' (h'.fresh x hx ((h.iff x k hk).2 (.inl ⟨hmem, hne⟩)))

/-- What is exchanged when a slab is replaced. -/
theorem exchanged_of_replace (h : SlabHeap ok n base mem heads slabs) (hx : x ∈ slabs)
    (hiff : ∀ y, y ∈ slabs' ↔ y ∈ mid ∨ y ∈ slabs ∧ y ≠ x)
    (hmem : AgreeOutside x.addr (x.addr + x.size) mem mem')
    (hold : ∀ k, x.use = .live k → old = some x) (hold' : ∀ y, old = some y → y = x)
    (hfresh : ∀ y, new = some y → y.addr = x.addr ∧ ∃ k, y.use = .live k)
    (hnew : ∀ y k, y.use = .live k → (y ∈ mid ↔ new = some y)) :
    Exchanged slabs mem slabs' mem' old new := by
  refine ⟨fun y k hk => ?_, fun y hy k hk hne o ho₁ ho₂ => ?_, fun y hy => (hfresh y hy).2, fun y hy hmem => ?_⟩
  · have hyx : old ≠ some y ↔ y ≠ x := by
      constructor
      · rintro hne rfl
        exact hne (hold k hk)
      · exact fun hne hy => hne (hold' y hy)
    rw [hiff, hnew y k hk, hyx]
    exact or_comm
  · have hyx : y ≠ x := by
      rintro rfl
      exact hne (hold k hk)
    have hdisj := h.disjoint hy hx hyx
    exact hmem o (by omega)
  · obtain ⟨haddr, k, hk⟩ := hfresh y hy
    obtain rfl := h.eq_of_addr hmem hx haddr
    exact hold k hk

/-- The live slabs by their data. -/
def Held (live : ℕ → Option ℕ) (slabs : List Slab) : Prop :=
  ∀ p k, live p = some k ↔ ∃ x ∈ slabs, x.data = p ∧ x.use = .live k

/-- The block at `block` is given back, and, unless `ret` is null, one is given out there. -/
def exchange (live : ℕ → Option ℕ) (block ret size : ℕ) : ℕ → Option ℕ :=
  let live := Function.update live block none
  if ret = 0 then live else Function.update live ret (some size)

/-- The slab `x` is out of the free slabs and no other one is; the live slabs are as before. -/
structure Taken (slabs : List Slab) (mem : Bytes) (slabs' : List Slab) (mem' : Bytes) (x : Slab) : Prop where
  exchanged : Exchanged slabs mem slabs' mem' none none
  mem : x ∈ slabs'
  out : ∀ y ∈ slabs', y.use = .out → y = x

theorem take (h : SlabHeap ok n base mem heads slabs) (hsettled : ∀ x ∈ slabs, x.use ≠ .out) (hb : b < n)
    (hhead : heads b ≠ 0) :
    ∃ slabs', SlabHeap ok n base mem (Function.update heads b (load 8 mem (heads b))) slabs' ∧
      Taken slabs mem slabs' mem ⟨heads b, b, .out⟩ := by
  obtain ⟨hx, slabs', h', hiff⟩ := h.pop hb hhead
  refine ⟨slabs', h', ?_, (hiff _).2 (.inl List.mem_cons_self), fun y hy hout => ?_⟩
  · refine exchanged_of_replace h hx hiff (AgreeOutside.refl _ _ _) nofun nofun nofun fun y k hk => ?_
    refine iff_of_false (fun hy => ?_) nofun
    rw [List.mem_singleton.1 hy] at hk
    exact nomatch hk
  · rcases (hiff y).1 hy with hy | ⟨hy, -⟩
    · exact List.mem_singleton.1 hy
    · exact absurd hout (hsettled y hy)

/-- The second half of the slab that is out becomes free. -/
theorem Taken.half (ht : Taken slabs₃ mem₃ slabs mem ⟨a, b + 1, .out⟩) (h : SlabHeap ok n base mem heads slabs)
    (hok : ok (a + 2 ^ (b + 5))) :
    ∃ slabs', SlabHeap ok n base (store 8 mem (a + 2 ^ (b + 5)) (heads b))
        (Function.update heads b (a + 2 ^ (b + 5))) slabs' ∧
      Taken slabs₃ mem₃ slabs' (store 8 mem (a + 2 ^ (b + 5)) (heads b)) ⟨a, b, .out⟩ := by
  have hge := Slab.size_ge ⟨a, b, .out⟩
  have hsize : Slab.size ⟨a, b, .out⟩ = 2 ^ (b + 5) := rfl
  have hdouble : Slab.size ⟨a, b + 1, .out⟩ = 2 ^ (b + 5) + 2 ^ (b + 5) := Slab.size_succ a b .out .out
  have hmem : AgreeOutside a (a + Slab.size ⟨a, b + 1, .out⟩) mem (store 8 mem (a + 2 ^ (b + 5)) (heads b)) :=
    agreeOutside_store (by omega) (by omega)
  have hb : b < n := (Nat.lt_succ_self b).trans (h.bucket_lt ht.mem)
  obtain ⟨slabs', h', hiff⟩ := split (v := .out) hok h ht.mem nofun nofun hmem (h.load_store_head hb) nofun
  refine ⟨slabs', h', ?_, (hiff _).2 (.inl List.mem_cons_self), fun y hy hout => ?_⟩
  · refine ht.exchanged.trans ?_ (.inl rfl) (.inl rfl) nofun
    refine exchanged_of_replace h ht.mem hiff hmem nofun nofun nofun fun y k hk => ?_
    refine iff_of_false (fun hy => ?_) nofun
    rcases List.mem_cons.1 hy with rfl | hy
    · exact nomatch hk
    · rw [List.mem_singleton.1 hy] at hk
      exact nomatch hk
  · rcases (hiff y).1 hy with hy | ⟨hy, hne⟩
    · rcases List.mem_cons.1 hy with rfl | hy
      · rfl
      · rw [List.mem_singleton.1 hy] at hout
        exact nomatch hout
    · exact absurd (ht.out y hy hout) hne

/-- The slab that is out becomes live, with its header. -/
theorem Taken.enter (ht : Taken slabs₃ mem₃ slabs mem ⟨a, b, .out⟩) (h : SlabHeap ok n base mem heads slabs)
    (hk : 16 + k ≤ 2 ^ (b + 5)) :
    ∃ slabs', Called ok n base slabs₃ mem₃ slabs' (store 8 (store 8 mem a b) (a + 8) k) heads k none
      (some ⟨a, b, .live k⟩) := by
  obtain ⟨hsize, hbucket⟩ := h.lt_of_mem ht.mem
  have hsize : 2 ^ (b + 5) ≤ 2 ^ 64 := hsize
  have hmem : AgreeOutside a (a + 2 ^ (b + 5)) mem (store 8 (store 8 mem a b) (a + 8) k) :=
    (agreeOutside_store le_rfl (by omega)).trans (agreeOutside_store (by omega) (by omega))
  have hlive : ∀ j, SlabUse.live k = .live j → load 8 (store 8 (store 8 mem a b) (a + 8) k) a = b ∧
      load 8 (store 8 (store 8 mem a b) (a + 8) k) (a + 8) = j ∧ 16 + j ≤ 2 ^ (b + 5) := by
    rintro _ ⟨⟩
    rw [load_store_ne (.inl le_rfl), load_store_quad hbucket, load_store_quad (by omega)]
    exact ⟨rfl, rfl, hk⟩
  have hv : SlabUse.live k ≠ .free := nofun
  obtain ⟨slabs', h', hiff⟩ := h.setUse ht.mem nofun hv hmem hlive
  refine ⟨slabs', h', fun y hy hout => ?_, ?_, nofun, fun x hx => Option.some.inj hx ▸ rfl⟩
  · rcases (hiff y).1 hy with hy | ⟨hy, hne⟩
    · rw [List.mem_singleton.1 hy] at hout
      exact nomatch hout
    · exact hne (ht.out y hy hout)
  · refine ht.exchanged.trans ?_ (.inl rfl) (.inl rfl) nofun
    refine exchanged_of_replace h ht.mem hiff hmem nofun nofun (fun y hy => ?_) fun y j _ => ?_
    · exact Option.some.inj hy ▸ ⟨rfl, k, rfl⟩
    rw [List.mem_singleton, Option.some.injEq, eq_comm]

section Calls

variable {j : ℕ} (h : SlabHeap ok n base mem heads slabs) (hsettled : ∀ x ∈ slabs, x.use ≠ .out)

include h hsettled

/-- A live slab becomes free. -/
theorem release (hx : ⟨a, b, .live j⟩ ∈ slabs) (size : ℕ) :
    ∃ slabs', Called ok n base slabs mem slabs' (store 8 mem a (heads b)) (Function.update heads b a) size
      (some ⟨a, b, .live j⟩) none := by
  have hge := Slab.size_ge ⟨a, b, .live j⟩
  obtain ⟨slabs', h', hiff⟩ := h.push hx nofun
  refine ⟨slabs', h', fun y hy => ?_, ?_, fun x hx' => Option.some.inj hx' ▸ hx, nofun⟩
  · rcases (hiff y).1 hy with hy | ⟨hy, -⟩
    · rw [List.mem_singleton.1 hy]
      exact nofun
    · exact hsettled y hy
  · refine exchanged_of_replace h hx hiff (agreeOutside_store le_rfl (by simp only; omega)) (fun _ _ => rfl)
      (fun y hy => (Option.some.inj hy).symm) nofun fun y k hk => iff_of_false (fun hy => ?_) nofun
    rw [List.mem_singleton.1 hy] at hk
    exact nomatch hk

/-- A live slab gets another size. -/
theorem resize (hx : ⟨a, b, .live j⟩ ∈ slabs) (hk : 16 + k ≤ 2 ^ (b + 5)) :
    ∃ slabs', Called ok n base slabs mem slabs' (store 8 mem (a + 8) k) heads k (some ⟨a, b, .live j⟩)
      (some ⟨a, b, .live k⟩) := by
  have hsize : 2 ^ (b + 5) ≤ 2 ^ 64 := (h.lt_of_mem hx).1
  have hmem : AgreeOutside a (a + 2 ^ (b + 5)) mem (store 8 mem (a + 8) k) :=
    agreeOutside_store (by omega) (by omega)
  have hlive : ∀ i, SlabUse.live k = .live i → load 8 (store 8 mem (a + 8) k) a = b ∧
      load 8 (store 8 mem (a + 8) k) (a + 8) = i ∧ 16 + i ≤ 2 ^ (b + 5) := by
    rintro _ ⟨⟩
    rw [load_store_ne (.inl le_rfl), load_store_quad (by omega)]
    exact ⟨(h.live _ hx j rfl).1, rfl, hk⟩
  have hv : SlabUse.live k ≠ .free := nofun
  obtain ⟨slabs', h', hiff⟩ := h.setUse hx nofun hv hmem hlive
  refine ⟨slabs', h', fun y hy => ?_, ?_, fun x hx' => Option.some.inj hx' ▸ hx,
    fun x hx' => Option.some.inj hx' ▸ rfl⟩
  · rcases (hiff y).1 hy with hy | ⟨hy, -⟩
    · rw [List.mem_singleton.1 hy]
      exact nofun
    · exact hsettled y hy
  · refine exchanged_of_replace h hx hiff hmem (fun _ _ => rfl) (fun y hy => (Option.some.inj hy).symm)
      (fun y hy => Option.some.inj hy ▸ ⟨rfl, k, rfl⟩) fun y i _ => ?_
    rw [List.mem_singleton, Option.some.injEq, eq_comm]

/-- The second half of a live slab becomes free. -/
theorem shrink (hok : ok (a + 2 ^ (b + 5))) (hx : ⟨a, b + 1, .live j⟩ ∈ slabs)
    (hmem : AgreeOutside a (a + 2 ^ (b + 6)) mem mem')
    (hnext : load 8 mem' (a + 2 ^ (b + 5)) = heads b)
    (hlive : load 8 mem' a = b ∧ load 8 mem' (a + 8) = k ∧ 16 + k ≤ 2 ^ (b + 5)) :
    ∃ slabs', Called ok n base slabs mem slabs' mem' (Function.update heads b (a + 2 ^ (b + 5))) k
      (some ⟨a, b + 1, .live j⟩) (some ⟨a, b, .live k⟩) := by
  obtain ⟨slabs', h', hiff⟩ := split (v := .live k) hok h hx nofun nofun hmem hnext (by rintro _ ⟨⟩; exact hlive)
  refine ⟨slabs', h', fun y hy => ?_, ?_, fun x hx' => Option.some.inj hx' ▸ hx,
    fun x hx' => Option.some.inj hx' ▸ rfl⟩
  · rcases (hiff y).1 hy with hy | ⟨hy, -⟩
    · rcases List.mem_cons.1 hy with rfl | hy
      · exact nofun
      · rw [List.mem_singleton.1 hy]
        exact nofun
    · exact hsettled y hy
  · refine exchanged_of_replace h hx hiff hmem (fun _ _ => rfl) (fun y hy => (Option.some.inj hy).symm)
      (fun y hy => Option.some.inj hy ▸ ⟨rfl, k, rfl⟩) fun y i hi => ?_
    rw [List.mem_cons, List.mem_singleton, Option.some.injEq, eq_comm]
    refine or_iff_left ?_
    rintro rfl
    exact nomatch hi

end Calls

/-- The data of the block that is given out are written. -/
theorem Called.write (h : Called ok n base slabs mem slabs' mem' heads' k old (some x))
    (hmem : AgreeOutside (x.addr + 16) (x.addr + x.size) mem' mem₃) :
    Called ok n base slabs mem slabs' mem₃ heads' k old (some x) := by
  have hx : x ∈ slabs' := (h.exchanged.iff x k (h.new_live x rfl)).2 (.inr rfl)
  refine ⟨h.heap.write hx (h.new_live x rfl) hmem, h.settled, ?_, h.old_mem, h.new_live⟩
  refine ⟨h.exchanged.iff, fun y hy j hj hne o ho₁ ho₂ => ?_, h.exchanged.live, h.exchanged.fresh⟩
  have hy' : y ∈ slabs' := (h.exchanged.iff y j hj).2 (.inl ⟨hy, hne⟩)
  have hyx : y ≠ x := by
    rintro rfl
    exact hne (h.exchanged.fresh y rfl hy)
  have hdisj := h.heap.disjoint hy' hx hyx
  rw [hmem o (by omega), h.exchanged.bytes y hy j hj hne o ho₁ ho₂]

/-- A block is given out, and another one given back then. -/
theorem Called.swap {j : ℕ} (h : Called ok n base slabs mem slabs' mem' heads' k none (some x))
    (hy : y ∈ slabs) (hlive : y.use = .live j)
    (h' : Called ok n base slabs' mem' slabs₃ mem₃ heads k (some y) none) :
    Called ok n base slabs mem slabs₃ mem₃ heads k (some y) (some x) := by
  refine ⟨h'.heap, h'.settled, ?_, fun z hz => Option.some.inj hz ▸ hy, h.new_live⟩
  refine h.exchanged.trans h'.exchanged (.inl rfl) (.inr rfl) ?_
  rintro z ⟨⟩ ⟨⟩
  exact nomatch h.exchanged.fresh x rfl hy

theorem Held.exchange {ok' : ℕ → Prop} {live : ℕ → Option ℕ} {size : ℕ} (hheld : Held live slabs)
    (h : SlabHeap ok n base mem heads slabs) (hcall : Called ok' n base slabs mem slabs' mem' heads' size old new) :
    Held (exchange live (old.elim 0 Slab.data) (new.elim 0 Slab.data) size) slabs' := by
  have hdata : ∀ {x y : Slab}, x.data = y.data → x.addr = y.addr := fun {x y} hxy => by
    unfold Slab.data at hxy
    omega
  obtain ⟨h', -, hex, hold, hnew⟩ := hcall
  intro p k
  have hlive : SlabHeap.exchange live (old.elim 0 Slab.data) (new.elim 0 Slab.data) size p =
      if p = new.elim 0 Slab.data ∧ new.elim 0 Slab.data ≠ 0 then some size
      else if p = old.elim 0 Slab.data then none else live p := by
    unfold SlabHeap.exchange
    by_cases hzero : new.elim 0 Slab.data = 0
    · simp [hzero, Function.update_apply]
    · simp [hzero, Function.update_apply]
  rw [hlive]
  split_ifs with hret hblock
  · obtain ⟨rfl, hzero⟩ := hret
    obtain _ | y := new
    · exact absurd rfl hzero
    have hy : y ∈ slabs' := (hex.iff y size (hnew y rfl)).2 (.inr rfl)
    constructor
    · rintro ⟨⟩
      exact ⟨y, hy, rfl, hnew y rfl⟩
    · rintro ⟨x, hx, hxy, hk⟩
      obtain rfl := h'.eq_of_addr hx hy (hdata hxy)
      rw [hnew x rfl] at hk
      cases hk
      rfl
  · refine iff_of_false nofun ?_
    rintro ⟨x, hx, hxp, hk⟩
    rcases (hex.iff x k hk).1 hx with ⟨hx, hne⟩ | rfl
    · obtain _ | z := old
      · unfold Slab.data at hxp
        exact absurd (hxp.trans hblock) (Nat.succ_ne_zero _)
      · exact hne (congrArg some (h.eq_of_addr (hold z rfl) hx (hdata (hxp.trans hblock).symm)))
    · exact hret ⟨hxp.symm, Nat.succ_ne_zero _⟩
  · rw [hheld]
    refine exists_congr fun x => ?_
    constructor
    · rintro ⟨hx, hxp, hk⟩
      refine ⟨(hex.iff x k hk).2 (.inl ⟨hx, ?_⟩), hxp, hk⟩
      rintro rfl
      exact hblock hxp.symm
    · rintro ⟨hx, hxp, hk⟩
      refine ⟨?_, hxp, hk⟩
      rcases (hex.iff x k hk).1 hx with ⟨hx, -⟩ | rfl
      · exact hx
      · exact absurd ⟨hxp.symm, Nat.succ_ne_zero _⟩ hret

/-- The slab of a live block. -/
theorem Held.slab {live : ℕ → Option ℕ} {p : ℕ} (hheld : Held live slabs) (hp : live p = some k) :
    ∃ x ∈ slabs, x.data = p ∧ x.use = .live k := (hheld p k).1 hp

section Blocks

variable {ok' : ℕ → Prop} {live : ℕ → Option ℕ} {p q j size : ℕ}

theorem Held.zero (hheld : Held live slabs) : live 0 = none := by
  by_contra hne
  obtain ⟨k, hk⟩ := Option.ne_none_iff_exists'.1 hne
  obtain ⟨x, -, hx, -⟩ := hheld.slab hk
  exact Nat.succ_ne_zero _ hx

theorem Held.inside (hheld : Held live slabs) (h : SlabHeap ok n base mem heads slabs) (hp : live p = some k) :
    base ≤ p ∧ p + k ≤ base + 2 ^ (n + 4) := by
  obtain ⟨x, hx, rfl, hlive⟩ := hheld.slab hp
  have hbounds := h.bounds hx
  have hroom := (h.live x hx k hlive).2.2
  unfold Slab.data
  omega

theorem Held.disjoint (hheld : Held live slabs) (h : SlabHeap ok n base mem heads slabs) (hp : live p = some j)
    (hq : live q = some k) (hne : p ≠ q) : p + j ≤ q ∨ q + k ≤ p := by
  obtain ⟨x, hx, rfl, hlive⟩ := hheld.slab hp
  obtain ⟨y, hy, rfl, hlive'⟩ := hheld.slab hq
  have hdisj := h.disjoint hx hy fun e => hne (congrArg Slab.data e)
  have hroom := (h.live x hx j hlive).2.2
  have hroom' := (h.live y hy k hlive').2.2
  unfold Slab.data
  omega

/-- The other blocks stay, with their data. -/
theorem Held.others (hheld : Held live slabs) (h : SlabHeap ok n base mem heads slabs)
    (hcall : Called ok' n base slabs mem slabs' mem' heads' size old new) (hq : live q = some k)
    (hne : q ≠ old.elim 0 Slab.data) :
    SlabHeap.exchange live (old.elim 0 Slab.data) (new.elim 0 Slab.data) size q = some k ∧
      ∀ i < k, mem' (q + i) = mem (q + i) := by
  obtain ⟨x, hx, rfl, hlive⟩ := hheld.slab hq
  have hold : old ≠ some x := by
    rintro rfl
    exact hne rfl
  have hx' : x ∈ slabs' := (hcall.exchanged.iff x k hlive).2 (.inl ⟨hx, hold⟩)
  refine ⟨(hheld.exchange h hcall _ _).2 ⟨x, hx', rfl, hlive⟩, fun i hi => ?_⟩
  have hroom := (h.live x hx k hlive).2.2
  exact hcall.exchanged.bytes x hx k hlive hold _ (by unfold Slab.data; omega) (by unfold Slab.data; omega)

/-- The block that is given out. -/
theorem Held.given (hheld : Held live slabs) (h : SlabHeap ok n base mem heads slabs)
    (hcall : Called ok' n base slabs mem slabs' mem' heads' size old (some x)) :
    SlabHeap.exchange live (old.elim 0 Slab.data) x.data size x.data = some size := by
  have hx := hcall.new_live x rfl
  exact (hheld.exchange h hcall _ _).2 ⟨x, (hcall.exchanged.iff x _ hx).2 (.inr rfl), rfl, hx⟩

end Blocks

end Exchange

end SlabHeap
