import Glidix.Lib.Tiling
import Glidix.Net.Reassembly

/-!
# Reassembly in any order

The fragments of one datagram, with intervals that tile it, are put in their place whatever the order
in which they arrive (`placeFragment_spec`); the thread of the reassembler leaves them alone until
all are there and then delivers the datagram (`ReasmInv`).
-/

namespace Glidix.Net

open Bytes

/-- The fragment `x` lies before the fragment `y`. -/
abbrev FragBefore : IPFragment → IPFragment → Prop :=
  Before IPFragment.fragOffset IPFragment.fragSize

/-! ## Placing -/

section Place

variable {frag first : IPFragment} {l rest : List IPFragment}

/-- The scan puts the fragment behind those before it. -/
theorem scanFragments_spec (hl : (first :: rest).Pairwise FragBefore)
    (hpos : ∀ x ∈ first :: rest, 0 < x.fragSize) (hfrag : 0 < frag.fragSize)
    (hlt : ∀ x ∈ first :: rest, x.fragOffset + x.fragSize < 2 ^ 32)
    (hfirst : FragBefore first frag)
    (hsep : ∀ x ∈ rest, FragBefore x frag ∨ FragBefore frag x) :
    ∃ l', scanFragments frag (first :: rest) = some l' ∧ l'.Perm (frag :: first :: rest) ∧
      l'.Pairwise FragBefore := by
  unfold FragBefore Before at *
  induction rest generalizing first with
  | nil =>
    have h₀ := hpos first List.mem_cons_self
    have hmod := Nat.mod_eq_of_lt (hlt first List.mem_cons_self)
    refine ⟨[first, frag], ?_, List.Perm.swap _ _ _, by simpa using hfirst⟩
    rw [scanFragments, if_neg (by omega), if_pos (by omega), hmod, if_neg (by omega)]
  | cons next rest ih =>
    have h₀ := hpos first List.mem_cons_self
    have h₁ := hpos next (by simp)
    have hmod := Nat.mod_eq_of_lt (hlt first List.mem_cons_self)
    obtain ⟨hfirstAll, hrest⟩ := List.pairwise_cons.1 hl
    rcases hsep next List.mem_cons_self with hbefore | hafter
    · obtain ⟨l', e, hperm, hsorted⟩ := ih hrest (fun x hx => hpos x (List.mem_cons_of_mem _ hx))
        (fun x hx => hlt x (List.mem_cons_of_mem _ hx)) hbefore
        fun x hx => hsep x (List.mem_cons_of_mem _ hx)
      refine ⟨first :: l', ?_, (hperm.cons first).trans (List.Perm.swap _ _ _), ?_⟩
      · rw [scanFragments, if_neg (by omega), if_neg (by omega), e]
        rfl
      · refine List.pairwise_cons.2 ⟨fun x hx => ?_, hsorted⟩
        rcases List.mem_cons.1 (hperm.subset hx) with rfl | hx
        · exact hfirst
        · exact hfirstAll x hx
    · refine ⟨first :: frag :: next :: rest, ?_, List.Perm.swap _ _ _, ?_⟩
      · rw [scanFragments, if_neg (by omega), if_pos (by omega), hmod, if_neg (by omega),
          if_neg (by omega)]
      · have hfragAll : ∀ x ∈ next :: rest,
            frag.fragOffset + frag.fragSize ≤ x.fragOffset := fun x hx => by
          rcases List.mem_cons.1 hx with rfl | hx
          · exact hafter
          · have := (List.pairwise_cons.1 hrest).1 x hx
            omega
        refine List.pairwise_cons.2 ⟨fun x hx => ?_, List.pairwise_cons.2 ⟨hfragAll, hrest⟩⟩
        rcases List.mem_cons.1 hx with rfl | hx
        · exact hfirst
        · exact hfirstAll x hx

/-- A fragment that overlaps no other is put in its place. -/
theorem placeFragment_spec (hne : l ≠ []) (hl : l.Pairwise FragBefore)
    (hpos : ∀ x ∈ l, 0 < x.fragSize) (hfrag : 0 < frag.fragSize)
    (hlt : ∀ x ∈ l, x.fragOffset + x.fragSize < 2 ^ 32)
    (hsep : ∀ x ∈ l, FragBefore x frag ∨ FragBefore frag x) :
    ∃ l', placeFragment frag l = some l' ∧ l'.Perm (frag :: l) ∧ l'.Pairwise FragBefore := by
  cases l with
  | nil => exact absurd rfl hne
  | cons first rest =>
    have h₀ := hpos first List.mem_cons_self
    rcases hsep first List.mem_cons_self with hbefore | hafter
    · have hnot : ¬ first.fragOffset > frag.fragOffset := by
        unfold FragBefore Before at hbefore
        omega
      rw [placeFragment, if_neg hnot]
      exact scanFragments_spec hl hpos hfrag hlt hbefore
        fun x hx => hsep x (List.mem_cons_of_mem _ hx)
    · have hall : ∀ x ∈ first :: rest, FragBefore frag x := fun x hx => by
        rcases List.mem_cons.1 hx with rfl | hx
        · exact hafter
        · have := (List.pairwise_cons.1 hl).1 x hx
          unfold FragBefore Before at *
          omega
      refine ⟨frag :: first :: rest, ?_, List.Perm.refl _, List.pairwise_cons.2 ⟨hall, hl⟩⟩
      unfold FragBefore Before at hafter
      rw [placeFragment, if_pos (by omega), if_neg (by omega)]

/-- A fragment with the offset of another one is rejected. -/
theorem scanFragments_of_mem (hl : l.Pairwise FragBefore) (hpos : ∀ x ∈ l, 0 < x.fragSize)
    {x : IPFragment} (hx : x ∈ l) (hoff : x.fragOffset = frag.fragOffset) :
    scanFragments frag l = none := by
  induction l with
  | nil => cases hx
  | cons scan rest ih =>
    obtain ⟨hscan, hrest⟩ := List.pairwise_cons.1 hl
    have hpos' : ∀ x ∈ rest, 0 < x.fragSize := fun x hx => hpos x (List.mem_cons_of_mem _ hx)
    cases rest with
    | nil =>
      obtain rfl := List.mem_singleton.1 hx
      rw [scanFragments, if_pos hoff]
    | cons next rest =>
      rw [scanFragments]
      by_cases heq : scan.fragOffset = frag.fragOffset
      · rw [if_pos heq]
      · have hx' : x ∈ next :: rest := (List.mem_cons.1 hx).resolve_left fun h => heq (h ▸ hoff)
        have hnext : next.fragOffset ≤ x.fragOffset := by
          rcases List.mem_cons.1 hx' with rfl | hmem
          · exact le_rfl
          · have := (List.pairwise_cons.1 hrest).1 x hmem
            unfold FragBefore Before at this
            omega
        rw [if_neg heq, if_neg (by omega), ih hrest hpos' hx']
        rfl

theorem placeFragment_of_mem (hl : l.Pairwise FragBefore) (hpos : ∀ x ∈ l, 0 < x.fragSize)
    {x : IPFragment} (hx : x ∈ l) (hoff : x.fragOffset = frag.fragOffset) :
    placeFragment frag l = none := by
  cases l with
  | nil => cases hx
  | cons first rest =>
    have hfirst : ¬ first.fragOffset > frag.fragOffset := by
      rcases List.mem_cons.1 hx with rfl | hmem
      · omega
      · have := (List.pairwise_cons.1 hl).1 x hmem
        unfold FragBefore Before at this
        omega
    rw [placeFragment, if_neg hfirst]
    exact scanFragments_of_mem hl hpos hx hoff

end Place

/-! ## Completeness -/

section Complete

variable {l : List IPFragment} {a b : ℕ}

/-- The fragments of a datagram of `len` bytes: they tile it, and only the last one is marked. -/
structure Fragments (l : List IPFragment) (len : ℕ) : Prop where
  tiles : Tiles IPFragment.fragOffset IPFragment.fragSize 0 l len
  last : ∀ x ∈ l, x.lastFragment = true ↔ x.fragOffset + x.fragSize = len
  len_lt : len < 2 ^ 32
  ne_nil : l ≠ []

theorem isFragmentListComplete_of_tiles
    (h : Tiles IPFragment.fragOffset IPFragment.fragSize a l b) (hb : b < 2 ^ 32)
    (hlast : ∀ x ∈ l, x.lastFragment = true ↔ x.fragOffset + x.fragSize = b) (hne : l ≠ []) :
    isFragmentListComplete a l = .complete := by
  induction l generalizing a with
  | nil => exact absurd rfl hne
  | cons x rest ih =>
    have hx := hlast x List.mem_cons_self
    obtain ⟨rfl, hpos, h⟩ := h
    have hle := h.le
    rw [isFragmentListComplete, if_neg (not_not.2 rfl)]
    cases rest with
    | nil => rw [if_pos (hx.2 h), if_neg (not_not.2 rfl)]
    | cons y rest =>
      have hmore : ¬ x.lastFragment = true := fun hl => by
        have hy := h.size_pos List.mem_cons_self
        have hbound := h.bounds (x := y) List.mem_cons_self
        have := hx.1 hl
        omega
      rw [if_neg hmore, Nat.mod_eq_of_lt (by omega)]
      exact ih h (fun z hz => hlast z (List.mem_cons_of_mem x hz)) (List.cons_ne_nil y rest)

/-- A list of some of the fragments that is taken to be complete or invalid covers the whole
datagram. -/
theorem sum_of_not_incomplete (hl : l.Pairwise FragBefore) (hpos : ∀ x ∈ l, 0 < x.fragSize)
    (hlast : ∀ x ∈ l, x.lastFragment = true → x.fragOffset + x.fragSize = b)
    (hbound : ∀ x ∈ l, x.fragOffset + x.fragSize ≤ b) (hb : b < 2 ^ 32)
    (hc : isFragmentListComplete a l ≠ .incomplete) :
    isFragmentListComplete a l = .complete ∧ a + calculatePacketSize l = b := by
  induction l generalizing a with
  | nil => exact absurd rfl hc
  | cons x rest ih =>
    rw [isFragmentListComplete] at hc ⊢
    obtain ⟨hx, hrest⟩ := List.pairwise_cons.1 hl
    by_cases hoff : x.fragOffset = a
    · rw [if_neg (not_not.2 hoff)] at hc ⊢
      by_cases hmark : x.lastFragment = true
      · have hend := hlast x List.mem_cons_self hmark
        have hnil : rest = [] := by
          by_contra hne
          obtain ⟨y, rest, rfl⟩ := List.exists_cons_of_ne_nil hne
          have h₁ := hx y List.mem_cons_self
          have h₂ := hbound y (by simp)
          have h₃ := hpos y (by simp)
          unfold FragBefore Before at h₁
          omega
        rw [if_pos hmark, if_neg (not_not.2 hnil)]
        refine ⟨rfl, ?_⟩
        rw [hnil, calculatePacketSize, List.map_singleton, List.sum_singleton]
        omega
      · have hle := hbound x List.mem_cons_self
        rw [if_neg hmark, Nat.mod_eq_of_lt (by omega)] at hc ⊢
        obtain ⟨h₁, h₂⟩ := ih hrest (fun y hy => hpos y (List.mem_cons_of_mem x hy))
          (fun y hy => hlast y (List.mem_cons_of_mem x hy))
          (fun y hy => hbound y (List.mem_cons_of_mem x hy)) hc
        refine ⟨h₁, ?_⟩
        rw [calculatePacketSize, List.map_cons, List.sum_cons, ← Nat.add_assoc]
        exact h₂
    · exact absurd (if_pos hoff) hc

/-- The buffer holds the payload wherever a fragment of it was copied. -/
theorem copyFragments_spec {payload : List UInt8} {buffer : Bytes} {i : ℕ} {c : UInt8}
    (hc : payload[i]? = some c)
    (hdata : ∀ x ∈ l, x.data = (payload.drop x.fragOffset).take x.fragSize ∧
      x.fragOffset + x.fragSize ≤ payload.length)
    (hcover : buffer i = c ∨ ∃ x ∈ l, x.fragOffset ≤ i ∧ i < x.fragOffset + x.fragSize) :
    copyFragments buffer l i = c := by
  induction l generalizing buffer with
  | nil => exact hcover.elim id fun ⟨x, hx, _⟩ => absurd hx List.not_mem_nil
  | cons x rest ih =>
    obtain ⟨hx, hfit⟩ := hdata x List.mem_cons_self
    have hlen : x.data.length = x.fragSize := by
      rw [hx, List.length_take, List.length_drop]
      omega
    show copyFragments (buffer.setRange x.fragOffset x.data) rest i = c
    refine ih (fun y hy => hdata y (List.mem_cons_of_mem _ hy)) ?_
    by_cases hin : x.fragOffset ≤ i ∧ i - x.fragOffset < x.data.length
    · left
      rw [setRange_of_mem hin.1 hin.2]
      have hget : x.data[i - x.fragOffset]? = some c := by
        rw [hx, List.getElem?_take_of_lt (by omega), List.getElem?_drop,
          Nat.add_sub_cancel' hin.1, hc]
      exact (List.getElem?_eq_some_iff.1 hget).2
    · rw [setRange_of_notMem hin]
      refine hcover.imp id ?_
      rintro ⟨y, hy, hcov⟩
      rcases List.mem_cons.1 hy with rfl | hy
      · exact absurd ⟨hcov.1, by omega⟩ hin
      · exact ⟨y, hy, hcov⟩

/-- The fragments of a payload give it back. -/
theorem Fragments.reassemble_packet {payload : List UInt8} (h : Fragments l payload.length)
    (hdata : ∀ x ∈ l, x.data = (payload.drop x.fragOffset).take x.fragSize)
    {list : IPFragmentList} (hlist : list.fragList = l) : (reassemble list).packet = payload := by
  have hsum : calculatePacketSize l = payload.length := by
    have := h.tiles.sum_size
    rwa [Nat.zero_add] at this
  have hbound := fun x hx => (h.tiles.bounds (x := x) hx).2
  refine List.ext_getElem? fun i => ?_
  rw [reassemble, hlist, hsum, List.getElem?_map]
  by_cases hi : i < payload.length
  · rw [List.getElem?_range hi, Option.map_some, List.getElem?_eq_getElem hi, Option.some_inj]
    exact copyFragments_spec (List.getElem?_eq_getElem hi) (fun x hx => ⟨hdata x hx, hbound x hx⟩)
      (Or.inr (h.tiles.covers (Nat.zero_le i) hi))
  · rw [List.getElem?_eq_none (by simpa using hi), List.getElem?_eq_none (by simpa using hi)]
    rfl

end Complete

/-! ## Arrival -/

section Arrival

variable {family : Family} {srcaddr dstaddr : List UInt8} {id proto T len : ℕ}
  {ds recv rem : List IPFragment} {frag : IPFragment} {lists : List IPFragmentList}

/-- The reassembler has the fragments `recv` of a datagram, and nothing else; they are kept until the
time `T` at least. -/
def ReasmInv (family : Family) (srcaddr dstaddr : List UInt8) (id proto T : ℕ)
    (recv : List IPFragment) (lists : List IPFragmentList) : Prop :=
  recv = [] ∧ lists = [] ∨ recv ≠ [] ∧ ∃ deadlineTicks fragList,
    lists = [⟨family, deadlineTicks, srcaddr, dstaddr, id, proto, fragList⟩] ∧
      fragList.Perm recv ∧ fragList.Pairwise FragBefore ∧ T ≤ readDeadline deadlineTicks

theorem Fragments.lt (h : Fragments ds len) {x : IPFragment} (hx : x ∈ ds) :
    x.fragOffset + x.fragSize < 2 ^ 32 :=
  lt_of_le_of_lt (h.tiles.bounds hx).2 h.len_lt

/-- A fragment that is still missing arrives. -/
theorem ReasmInv.pass (hds : Fragments ds len) (hperm : (recv ++ frag :: rem).Perm ds)
    (h : ReasmInv family srcaddr dstaddr id proto T recv lists) {ticks : ℕ}
    (hticks : recv = [] → T ≤ readDeadline (newDeadline ticks)) {data : List UInt8}
    (hdata : data.take frag.fragSize = frag.data) :
    ReasmInv family srcaddr dstaddr id proto T (frag :: recv)
      (ipreasmPass family srcaddr dstaddr id lists ticks proto frag.fragOffset data frag.fragSize
        (!frag.lastFragment)) := by
  have hfrag : (⟨!!frag.lastFragment, frag.fragOffset, frag.fragSize,
      data.take frag.fragSize⟩ : IPFragment) = frag := by
    rw [hdata, Bool.not_not]
  refine Or.inr ⟨List.cons_ne_nil _ _, ?_⟩
  rcases h with ⟨rfl, rfl⟩ | ⟨hne, deadline, fragList, rfl, hfl, hsorted, hdeadline⟩
  · refine ⟨_, [frag], ?_, List.Perm.refl _, List.pairwise_singleton _ _, hticks rfl⟩
    simp only [ipreasmPass, hfrag, passToLists]
    rfl
  · have hmem : ∀ x ∈ fragList, x ∈ ds := fun x hx =>
      hperm.subset (List.mem_append_left _ (hfl.subset hx))
    have hsep : ∀ x ∈ fragList, FragBefore x frag ∨ FragBefore frag x := by
      have hsym : ds.Pairwise fun x y => FragBefore x y ∨ FragBefore y x :=
        hds.tiles.pairwise.imp Or.inl
      have hall := hperm.symm.pairwise hsym fun hxy => hxy.symm
      exact fun x hx => (List.pairwise_append.1 hall).2.2 x (hfl.subset hx) frag List.mem_cons_self
    have hfragMem : frag ∈ ds := hperm.subset (by simp)
    obtain ⟨l', e, hp, hs⟩ := placeFragment_spec (fun hnil => hne (by simpa [hnil] using hfl))
      hsorted (fun x hx => hds.tiles.size_pos (hmem x hx)) (hds.tiles.size_pos hfragMem)
      (fun x hx => hds.lt (hmem x hx)) hsep
    refine ⟨deadline, l', ?_, hp.trans (hfl.cons frag), hs, hdeadline⟩
    have hmatch : isMatchingFragmentList family srcaddr dstaddr id
        ⟨family, deadline, srcaddr, dstaddr, id, proto, fragList⟩ = true := by
      simp [isMatchingFragmentList]
    simp only [ipreasmPass, hfrag, passToLists, hmatch, if_true, ne_eq, not_true_eq_false, if_false,
      e]

/-- A fragment arrives again. -/
theorem ReasmInv.pass_again (hds : Fragments ds len) (hperm : (recv ++ rem).Perm ds)
    (h : ReasmInv family srcaddr dstaddr id proto T recv lists) (hfrag : frag ∈ recv) {ticks : ℕ}
    {data : List UInt8} {moreFrags : Bool} :
    ipreasmPass family srcaddr dstaddr id lists ticks proto frag.fragOffset data frag.fragSize
      moreFrags = lists := by
  rcases h with ⟨rfl, -⟩ | ⟨-, deadline, fragList, rfl, hfl, hsorted, -⟩
  · cases hfrag
  · have hnone : placeFragment ⟨!moreFrags, frag.fragOffset, frag.fragSize,
        data.take frag.fragSize⟩ fragList = none :=
      placeFragment_of_mem hsorted
        (fun x hx => hds.tiles.size_pos (hperm.subset (List.mem_append_left _ (hfl.subset hx))))
        (hfl.symm.subset hfrag) rfl
    have hmatch : isMatchingFragmentList family srcaddr dstaddr id
        ⟨family, deadline, srcaddr, dstaddr, id, proto, fragList⟩ = true := by
      simp [isMatchingFragmentList]
    simp only [ipreasmPass, passToLists, hmatch, if_true, ne_eq, not_true_eq_false, if_false,
      hnone]

/-- The thread runs before all fragments are there. -/
theorem ReasmInv.thread_incomplete (hds : Fragments ds len) (hperm : (recv ++ rem).Perm ds)
    (hrem : rem ≠ []) (h : ReasmInv family srcaddr dstaddr id proto T recv lists) {ticks : ℕ}
    (hticks : ticks < T) : ipreasmThread ticks lists = (lists, []) := by
  rcases h with ⟨rfl, rfl⟩ | ⟨hne, deadline, fragList, rfl, hfl, hsorted, hdeadline⟩
  · rfl
  · have hmem : ∀ x ∈ fragList, x ∈ ds := fun x hx =>
      hperm.subset (List.mem_append_left _ (hfl.subset hx))
    have hinc : isFragmentListComplete 0 fragList = .incomplete := by
      by_contra hc
      obtain ⟨-, hsum⟩ := sum_of_not_incomplete hsorted
        (fun x hx => hds.tiles.size_pos (hmem x hx))
        (fun x hx => (hds.last x (hmem x hx)).1) (fun x hx => (hds.tiles.bounds (hmem x hx)).2)
        hds.len_lt hc
      have htotal := hds.tiles.sum_size
      have hsplit : (recv.map IPFragment.fragSize).sum + (rem.map IPFragment.fragSize).sum =
          (ds.map IPFragment.fragSize).sum := by
        rw [← (hperm.map IPFragment.fragSize).sum_eq, List.map_append, List.sum_append]
      have hrecv : calculatePacketSize fragList = (recv.map IPFragment.fragSize).sum :=
        (hfl.map IPFragment.fragSize).sum_eq
      obtain ⟨x, rest, rfl⟩ := List.exists_cons_of_ne_nil hrem
      have hx := hds.tiles.size_pos (x := x) (hperm.subset (by simp))
      rw [List.map_cons, List.sum_cons] at hsplit
      omega
    rw [ipreasmThread, ipreasmThread]
    simp only [hinc]
    exact if_neg (show ¬ ticks ≥ readDeadline deadline by omega)

/-- What `onTransportPacket` is to get of a datagram. -/
def deliveryOf (family : Family) (srcaddr dstaddr : List UInt8) (proto : ℕ)
    (payload : List UInt8) : Delivery where
  family := family
  src := if family = .inet then srcaddr.take 4 else srcaddr
  dest := if family = .inet then dstaddr.take 4 else dstaddr
  proto := proto
  packet := payload

/-- The thread runs when all fragments are there. -/
theorem ReasmInv.thread_complete {payload : List UInt8} (hds : Fragments ds payload.length)
    (hdata : ∀ x ∈ ds, x.data = (payload.drop x.fragOffset).take x.fragSize)
    (hperm : recv.Perm ds) (h : ReasmInv family srcaddr dstaddr id proto T recv lists) {ticks : ℕ}
    (hticks : ticks < T) :
    ipreasmThread ticks lists = ([], [deliveryOf family srcaddr dstaddr proto payload]) := by
  rcases h with ⟨rfl, rfl⟩ | ⟨hne, deadline, fragList, rfl, hfl, hsorted, hdeadline⟩
  · exact absurd hperm.symm.eq_nil hds.ne_nil
  · obtain rfl : ds = fragList := eq_of_perm_of_before (fun x hx => hds.tiles.size_pos hx)
      hds.tiles.pairwise hsorted (hperm.symm.trans hfl.symm)
    have hc := isFragmentListComplete_of_tiles hds.tiles hds.len_lt hds.last hds.ne_nil
    have hpacket := hds.reassemble_packet hdata
      (show IPFragmentList.fragList ⟨family, deadline, srcaddr, dstaddr, id, proto, ds⟩ = ds from rfl)
    rw [ipreasmThread, ipreasmThread]
    simp only [hc, deliveryOf, ← hpacket]
    exact if_neg (show ¬ ticks ≥ readDeadline deadline by omega)

theorem ipreasmThread_nil {ticks : ℕ} : ipreasmThread ticks [] = ([], []) := rfl

/-- A turn of the thread. -/
theorem runEvents_turn {e : ReasmEvent} {events : List ReasmEvent} {lists₁ : List IPFragmentList}
    {d : List Delivery} (hp : e.packet = none) (h : ipreasmThread e.ticks lists = (lists₁, d)) :
    runEvents family lists (e :: events) =
      ((runEvents family lists₁ events).1, d ++ (runEvents family lists₁ events).2) := by
  rw [runEvents, hp]
  simp only [h]

/-- A packet from the network. -/
theorem runEvents_packet {e : ReasmEvent} {events : List ReasmEvent} {lists₁ : List IPFragmentList}
    {d : List Delivery} {packet : List UInt8} (hp : e.packet = some packet)
    (h : passPacketToSocket family lists e.ticks packet = (lists₁, d)) :
    runEvents family lists (e :: events) =
      ((runEvents family lists₁ events).1, d ++ (runEvents family lists₁ events).2) := by
  rw [runEvents, hp]
  simp only [h]

/-- With no fragments and no packets to come, nothing is delivered. -/
theorem runEvents_idle {events : List ReasmEvent} (h : events.filterMap ReasmEvent.packet = []) :
    runEvents family [] events = ([], []) := by
  induction events with
  | nil => rfl
  | cons e events ih =>
    rcases hp : e.packet with _ | p
    · rw [List.filterMap_cons_none hp] at h
      rw [runEvents_turn hp ipreasmThread_nil, ih h]
      rfl
    · rw [List.filterMap_cons_some hp] at h
      cases h

/-- A packet that is delivered at once, and nothing else. -/
theorem runEvents_single {events : List ReasmEvent} {packet : List UInt8} {d : Delivery}
    (hevents : events.filterMap ReasmEvent.packet = [packet])
    (hpass : ∀ ticks, passPacketToSocket family [] ticks packet = ([], [d])) :
    (runEvents family [] events).2 = [d] := by
  induction events with
  | nil => cases hevents
  | cons e events ih =>
    rcases hp : e.packet with _ | p
    · rw [List.filterMap_cons_none hp] at hevents
      rw [runEvents_turn hp ipreasmThread_nil]
      exact ih hevents
    · rw [List.filterMap_cons_some hp] at hevents
      obtain ⟨rfl, hrest⟩ := List.cons.inj hevents
      rw [runEvents_packet hp (hpass _), runEvents_idle hrest]
      rfl

/-- The packets of a datagram arrive in any order, with turns of the thread in between and one at the
end: the datagram is delivered once. -/
theorem runEvents_delivers {payload : List UInt8} (hds : Fragments ds payload.length)
    (hdata : ∀ x ∈ ds, x.data = (payload.drop x.fragOffset).take x.fragSize)
    {enc : IPFragment → List UInt8}
    (hpass : ∀ x ∈ ds, ∃ data : List UInt8, data.take x.fragSize = x.data ∧ ∀ lists ticks,
      passPacketToSocket family lists ticks (enc x) =
        (ipreasmPass family srcaddr dstaddr id lists ticks proto x.fragOffset data x.fragSize
          (!x.lastFragment), []))
    {events : List ReasmEvent} {final : ℕ}
    (hevents : events.filterMap ReasmEvent.packet = rem.map enc)
    (hperm : (recv ++ rem).Perm ds)
    (hticks : ∀ e ∈ events, T ≤ readDeadline (newDeadline e.ticks) ∧ e.ticks < T)
    (hfinal : final < T)
    (h : ReasmInv family srcaddr dstaddr id proto T recv lists) :
    (runEvents family lists (events ++ [⟨final, none⟩])).2.map Delivery.packet = [payload] := by
  induction events generalizing recv rem lists with
  | nil =>
    obtain rfl : rem = [] := by simpa using hevents.symm
    have hd := h.thread_complete hds hdata (by simpa using hperm) hfinal
    rw [List.nil_append, runEvents_turn rfl hd]
    rfl
  | cons e events ih =>
    obtain ⟨hT, hlt⟩ := hticks e List.mem_cons_self
    have hrest := fun e' he' => hticks e' (List.mem_cons_of_mem e he')
    rcases hp : e.packet with _ | p
    · rw [List.filterMap_cons_none hp] at hevents
      by_cases hrem : rem = []
      · subst hrem
        have hd := h.thread_complete hds hdata (by simpa using hperm) hlt
        have hidle := @runEvents_idle family (events ++ [⟨final, none⟩]) (by simpa using hevents)
        rw [List.cons_append, runEvents_turn hp hd, hidle]
        rfl
      · have hthread := h.thread_incomplete hds hperm hrem hlt
        rw [List.cons_append, runEvents_turn hp hthread, List.nil_append]
        exact ih hevents hperm hrest h
    · rw [List.filterMap_cons_some hp] at hevents
      obtain ⟨x, rem, rfl⟩ : ∃ x r, rem = x :: r := by
        cases rem with
        | nil => cases hevents
        | cons x r => exact ⟨x, r, rfl⟩
      obtain ⟨rfl, htail⟩ := List.cons.inj hevents
      obtain ⟨data, htake, hx⟩ := hpass x (hperm.subset (by simp))
      rw [List.cons_append, runEvents_packet hp (hx ..), List.nil_append]
      refine ih htail ?_ hrest (h.pass hds hperm (fun _ => hT) htake)
      exact List.perm_middle.symm.trans hperm

end Arrival

end Glidix.Net
