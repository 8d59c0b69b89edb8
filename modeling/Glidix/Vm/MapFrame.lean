import Glidix.Vm.Calls
import Mathlib.Data.Set.Insert

/-!
# The frame of a fixed mapping

`vmMap` at a fixed address gives the pages of its region the attributes of the new mapping and
leaves those of all others as they are.  The page table entries that it clears are those of the pages
in `Swept`, which is not always the region.
-/

namespace Glidix.Vm

variable {W : Type} {ops : PhysMem W} {w w' : W} {ptes ptes' : ℕ → PTe} {segs : List Segment}
  {pm pm' : ProcMem} {addr n pos : ℕ}

/-! ## Clearing entries -/

/-- A page is loaded. -/
def PTe.Loaded (pte : PTe) : Prop := pte.gx_loaded = true

instance (pte : PTe) : Decidable pte.Loaded := inferInstanceAs (Decidable (_ = true))

/-- Clear the entries of the loaded pages in a set. -/
noncomputable abbrev clear (S : Set ℕ) (ptes : ℕ → PTe) : ℕ → PTe :=
  resetOn PTe.zero PTe.Loaded S ptes

theorem PTe.not_loaded_zero : ¬ PTe.zero.Loaded := Bool.false_ne_true

/-- The pages from `a` on, `n` of them. -/
def pageRange (a n : ℕ) : Set ℕ := {p | a ≤ p ∧ p < a + n}

theorem unmapPage_spec (h : unmapPage ops pos w ptes = some (w', ptes')) :
    ptes' = clear {pos / 0x1000} ptes := by
  by_cases hmax : pos ≥ ADDR_MAX
  · rw [unmapPage, if_pos hmax] at h
    cases h
  · simp only [unmapPage, if_neg hmax] at h
    by_cases hl : (ptes (pos / 0x1000)).gx_loaded = true
    · rw [if_pos hl, Option.some.injEq, Prod.mk.injEq] at h
      rw [← h.2]
      funext p
      by_cases hp : p = pos / 0x1000
      · subst hp
        rw [Function.update_self, clear, resetOn_of_mem (Set.mem_singleton _) hl]
      · rw [Function.update_of_ne hp, clear, resetOn_of_not fun h => hp (Set.mem_singleton_iff.1 h.1)]
    · rw [if_neg hl, Option.some.injEq, Prod.mk.injEq] at h
      rw [← h.2]
      funext p
      rw [clear, resetOn_of_not]
      rintro ⟨rfl, hp⟩
      exact hl hp

/-- `unmapArea` clears the entries of the pages of the area. -/
theorem unmapArea_spec (hpos : pos % 0x1000 = 0)
    (h : unmapArea ops pos n w ptes = some (w', ptes')) :
    ptes' = clear (pageRange (pos / 0x1000) n) ptes := by
  induction n generalizing pos w ptes with
  | zero =>
    obtain ⟨-, rfl⟩ := Prod.mk.inj (Option.some.inj h)
    have hempty : pageRange (pos / 0x1000) 0 = ∅ := by
      ext p
      simp only [pageRange, Set.mem_ofPred_eq, Set.mem_empty_iff_false, iff_false]
      omega
    rw [hempty, clear, resetOn_empty]
  | succ n ih =>
    obtain ⟨⟨w₁, ptes₁⟩, h₁, h₂⟩ := Option.bind_eq_some_iff.1 h
    rw [ih (by omega) h₂, unmapPage_spec h₁, clear, clear, clear, resetOn_resetOn PTe.not_loaded_zero]
    congr 1
    ext p
    simp only [pageRange, Set.mem_union, Set.mem_singleton_iff, Set.mem_ofPred_eq]
    omega

theorem unmapOld_spec {seg : Segment} (haddr : addr % 0x1000 = 0)
    (h : unmapOld ops seg addr n w ptes = some (w', ptes')) :
    ptes' = clear (if seg.flags ≠ 0 then pageRange (addr / 0x1000) n else ∅) ptes := by
  rw [unmapOld] at h
  split_ifs at h ⊢ with hflags
  · exact unmapArea_spec haddr h
  · rw [clear, resetOn_empty, (Prod.mk.inj (Option.some.inj h)).2]

/-! ## Segments -/

theorem findSeg_spec {before behind : List Segment} {seg : Segment} {p : ℕ}
    (h : findSeg addr pos segs = some (before, seg, behind, p)) (hpos : pos ≤ addr) :
    segs = before ++ seg :: behind ∧ p = pos + numPages before * 0x1000 ∧ p ≤ addr ∧
      addr < p + seg.numPages * 0x1000 := by
  induction segs generalizing pos before with
  | nil => cases h
  | cons s segs ih =>
    rw [findSeg] at h
    split_ifs at h with hle
    · obtain ⟨⟨before', seg', behind', p'⟩, h', he⟩ := Option.map_eq_some_iff.1 h
      simp only [Prod.mk.injEq] at he
      obtain ⟨rfl, rfl, rfl, rfl⟩ := he
      obtain ⟨rfl, rfl, hp, hlt⟩ := ih h' hle
      refine ⟨rfl, ?_, hp, hlt⟩
      rw [numPages, numPages, span_cons]
      omega
    · simp only [Option.some.injEq, Prod.mk.injEq] at h
      obtain ⟨rfl, rfl, rfl, rfl⟩ := h
      exact ⟨rfl, by simp, hpos, by omega⟩

/-- Cutting a segment in two leaves the attributes of its pages as they are. -/
theorem cutFront_spec {seg : Segment} {k : ℕ} (hk : k ≤ seg.numPages) :
    pieceCells Segment.numPages Segment.page (cutFront seg k).1 ++
      pieceCells Segment.numPages Segment.page (cutFront seg k).2 =
        pieceCells Segment.numPages Segment.page seg := by
  refine pieceCells_split (Nat.add_sub_cancel' hk) (fun i => rfl) fun i => ?_
  simp only [cutFront, Segment.page, PageAttr.mk.injEq, true_and, and_true]
  rw [Nat.mod_add_mod, Nat.add_mul]
  congr 1
  omega

/-- The pages that `swallow` unmaps for the segments it takes whole, when it starts with `k` pages: for
each mapped one an area with the right beginning, but with the size of what lies in front of it. -/
def SwallowSwept (start k n : ℕ) (rest : List Segment) : Set ℕ :=
  {p | ∃ before s behind, rest = before ++ s :: behind ∧ s.flags ≠ 0 ∧
    k + numPages before + s.numPages ≤ n ∧
      p ∈ pageRange (start + (k + numPages before)) (k + numPages before)}

theorem add_numPages_cons {k : ℕ} (s : Segment) (l : List Segment) :
    k + numPages (s :: l) = k + s.numPages + numPages l := by
  rw [numPages, span_cons, Nat.add_assoc]

theorem swallowSwept_cons {start k : ℕ} {next : Segment} {rest : List Segment}
    (hfit : k + next.numPages ≤ n) :
    SwallowSwept start k n (next :: rest) =
      (if next.flags ≠ 0 then pageRange (start + k) k else ∅) ∪
        SwallowSwept start (k + next.numPages) n rest := by
  ext p
  constructor
  · rintro ⟨before, s, behind, he, hflags, hn, hp⟩
    cases before with
    | nil =>
      obtain ⟨rfl, rfl⟩ := List.cons.inj he
      left
      rw [if_pos hflags]
      exact hp
    | cons t before =>
      obtain ⟨rfl, rfl⟩ := List.cons.inj he
      right
      rw [add_numPages_cons] at hn hp
      exact ⟨before, s, behind, rfl, hflags, hn, hp⟩
  · rintro (hp | ⟨before, s, behind, rfl, hflags, hn, hp⟩)
    · split_ifs at hp with hflags
      · exact ⟨[], next, rest, rfl, hflags, hfit, hp⟩
      · cases hp
    · rw [← add_numPages_cons] at hn hp
      exact ⟨next :: before, s, behind, rfl, hflags, hn, hp⟩

theorem swallowSwept_eq_empty {start k : ℕ} {rest : List Segment} (hpos : ∀ s ∈ rest, 0 < s.numPages)
    (hfull : ∀ s ∈ rest.head?, n < k + s.numPages) : SwallowSwept start k n rest = ∅ := by
  refine Set.eq_empty_iff_forall_notMem.2 ?_
  rintro p ⟨before, s, behind, rfl, -, hn, -⟩
  cases before with
  | nil => exact absurd hn (Nat.not_le.2 (hfull s rfl))
  | cons t before =>
    have ht := hfull t rfl
    rw [numPages, span_cons] at hn
    omega

theorem pages_cons (s : Segment) (l : List Segment) :
    pages (s :: l) = pieceCells Segment.numPages Segment.page s ++ pages l := cells_cons _ _ s l

theorem length_pageCells (s : Segment) :
    (pieceCells Segment.numPages Segment.page s).length = s.numPages := length_pieceCells _ _ s

theorem drop_pages_cons {s : Segment} {l : List Segment} {k : ℕ} (hk : s.numPages ≤ k) :
    (pages (s :: l)).drop k = (pages l).drop (k - s.numPages) := by
  have hall : (pieceCells Segment.numPages Segment.page s).drop k = [] :=
    List.drop_of_length_le (by rw [length_pageCells]; exact hk)
  rw [pages_cons, List.drop_append, length_pageCells, hall, List.nil_append]

theorem pages_drop_next {next : Segment} {rest : List Segment} {k : ℕ} (hk : k ≤ next.numPages) :
    pages ((cutFront next k).2 :: rest) = (pages (next :: rest)).drop k := by
  rw [pages_cons, pages_cons, ← cutFront_spec hk, List.append_assoc]
  exact (List.drop_left' (length_pageCells (cutFront next k).1)).symm

/-- What `swallow` does: it takes the pages that are needed from those behind. -/
theorem swallow_spec {seg seg' : Segment} {rest rest' : List Segment}
    (hpos : ∀ s ∈ rest, 0 < s.numPages) (haddr : addr % 0x1000 = 0) (hle : seg.numPages ≤ n)
    (h : swallow ops addr n seg rest w ptes = some (seg', rest', w', ptes')) :
    seg' = { seg with numPages := n } ∧ pages rest' = (pages rest).drop (n - seg.numPages) ∧
      (∀ s ∈ rest', 0 < s.numPages) ∧ n - seg.numPages ≤ numPages rest ∧
        ptes' = clear (SwallowSwept (addr / 0x1000) seg.numPages n rest) ptes := by
  induction rest generalizing seg w ptes with
  | nil =>
    rw [swallow] at h
    split_ifs at h with hlt
    simp only [Option.some.injEq, Prod.mk.injEq] at h
    obtain ⟨rfl, rfl, -, rfl⟩ := h
    obtain rfl : n = seg.numPages := by omega
    refine ⟨rfl, by simp, by simp, by simp, ?_⟩
    rw [swallowSwept_eq_empty (by simp) (by simp), clear, resetOn_empty]
  | cons next rest ih =>
    have hnext := hpos next List.mem_cons_self
    have hrest := fun s hs => hpos s (List.mem_cons_of_mem next hs)
    by_cases hlt : seg.numPages < n
    swap
    · simp only [swallow, if_neg hlt, Option.some.injEq, Prod.mk.injEq] at h
      obtain ⟨rfl, rfl, -, rfl⟩ := h
      obtain rfl : n = seg.numPages := by omega
      refine ⟨rfl, by simp, hpos, by simp, ?_⟩
      rw [swallowSwept_eq_empty hpos (by simp; omega), clear, resetOn_empty]
    by_cases hfit : next.numPages ≤ n - seg.numPages
    · simp only [swallow, if_pos hlt, if_pos hfit] at h
      obtain ⟨⟨w₁, ptes₁⟩, h₁, h₂⟩ := Option.bind_eq_some_iff.1 h
      obtain ⟨rfl, hpages, hpos', hnum, hptes⟩ :=
        @ih _ _ { seg with numPages := seg.numPages + next.numPages } hrest
          (show seg.numPages + next.numPages ≤ n by omega) h₂
      have hclear := unmapOld_spec (by omega) h₁
      rw [show (addr + seg.numPages * 0x1000) / 0x1000 = addr / 0x1000 + seg.numPages by omega]
        at hclear
      simp only at hpages hnum hptes
      refine ⟨rfl, ?_, hpos', ?_, ?_⟩
      · rw [hpages, drop_pages_cons hfit, Nat.sub_add_eq]
      · rw [numPages, span_cons]
        have := hnum
        rw [numPages] at this
        omega
      · rw [hptes, hclear, clear, clear, clear, resetOn_resetOn PTe.not_loaded_zero,
          swallowSwept_cons (by omega)]
    · simp only [swallow, if_pos hlt, if_neg hfit, Option.some.injEq, Prod.mk.injEq] at h
      obtain ⟨rfl, rfl, -, rfl⟩ := h
      refine ⟨by rw [Nat.add_sub_cancel' hle], pages_drop_next (by omega), ?_, ?_, ?_⟩
      · simp only [List.forall_mem_cons]
        exact ⟨by omega, hrest⟩
      · rw [numPages, span_cons]
        omega
      · rw [swallowSwept_eq_empty hpos (by simp; omega), clear, resetOn_empty]

/-! ## The region of a fixed mapping -/

/-- The pages that `vmMap` unmaps for a region of `n` pages from `start` on: the region itself if the
segment at its beginning is mapped; and for each mapped segment that begins after it, at a page `b`,
and ends within it, the pages from `b` to `2 b - start`. -/
def Swept (segs : List Segment) (start n : ℕ) : Set ℕ :=
  {p | ∃ before s behind, segs = before ++ s :: behind ∧ s.flags ≠ 0 ∧
    (numPages before ≤ start ∧ start < numPages before + s.numPages ∧ p ∈ pageRange start n ∨
      start < numPages before ∧ numPages before + s.numPages ≤ start + n ∧
        p ∈ pageRange (numPages before) (numPages before - start))}

theorem swept_eq {before behind : List Segment} {seg : Segment} {start : ℕ}
    (h₁ : numPages before ≤ start) (h₂ : start < numPages before + seg.numPages) :
    Swept (before ++ seg :: behind) start n =
      (if seg.flags ≠ 0 then pageRange start n else ∅) ∪
        SwallowSwept start (numPages before + seg.numPages - start) n behind := by
  have hadd : ∀ mid, numPages (before ++ seg :: mid) =
      numPages before + seg.numPages + numPages mid := fun mid => by
    simp only [numPages, span_append, span_cons, Nat.add_assoc]
  ext p
  constructor
  · rintro ⟨before', s, behind', he, hflags, hcase⟩
    rcases append_cons_cases he with ⟨rfl, rfl, rfl⟩ | ⟨mid, rfl, rfl⟩ | ⟨mid, rfl, rfl⟩
    · left
      rw [if_pos hflags]
      rcases hcase with ⟨-, -, hp⟩ | ⟨hlt, -⟩
      · exact hp
      · omega
    · rw [hadd] at hcase
      right
      rcases hcase with ⟨hle, -⟩ | ⟨-, hn, hp⟩
      · omega
      · refine ⟨mid, s, behind', rfl, hflags, by omega, ?_⟩
        simp only [pageRange, Set.mem_ofPred_eq] at hp ⊢
        omega
    · -- the segments in front of the one that contains the beginning end before it
      rw [numPages, span_append, span_cons] at h₁
      rcases hcase with ⟨-, hlt, -⟩ | ⟨hlt, -⟩ <;> rw [numPages] at hlt <;> omega
  · rintro (hp | ⟨mid, s, behind', rfl, hflags, hn, hp⟩)
    · split_ifs at hp with hflags
      · exact ⟨before, seg, behind, rfl, hflags, Or.inl ⟨h₁, h₂, hp⟩⟩
      · cases hp
    · refine ⟨before ++ seg :: mid, s, behind', by simp, hflags, Or.inr ?_⟩
      rw [hadd]
      simp only [pageRange, Set.mem_ofPred_eq] at hp ⊢
      omega

section Fixed

variable {ct start : ℕ} {a : MapArgs} {m : Mapping} {before before' behind behind' : List Segment}
  {seg seg' : Segment}

theorem pages_append (l l' : List Segment) : pages (l ++ l') = pages l ++ pages l' :=
  cells_append _ _ l l'

theorem length_pages (l : List Segment) : (pages l).length = numPages l := length_cells _ _ l

/-- What `cutToFit` does: the pages stay as they are, and the segment begins at the address and is not
too long. -/
theorem cutToFit_spec (hpos : ∀ s ∈ before ++ seg :: behind, 0 < s.numPages) (hn : 0 < n)
    (haddr : addr % 0x1000 = 0) (hp : pos = numPages before * 0x1000) (hle : pos ≤ addr)
    (hlt : addr < pos + seg.numPages * 0x1000)
    (h : cutToFit ops addr n pos before seg behind w = (before', seg', behind', w')) :
    (pages before' = (pages (before ++ seg :: behind)).take (addr / 0x1000) ∧
      pages (seg' :: behind') = (pages (before ++ seg :: behind)).drop (addr / 0x1000)) ∧
    (∀ s ∈ before' ++ seg' :: behind', 0 < s.numPages) ∧
    seg'.numPages ≤ n ∧ seg'.flags = seg.flags ∧
      SwallowSwept (addr / 0x1000) seg'.numPages n behind' =
        SwallowSwept (addr / 0x1000) (numPages before + seg.numPages - addr / 0x1000) n behind := by
  set start := addr / 0x1000 with hstart
  have hseg := hpos seg (by simp)
  simp only [List.forall_mem_append, List.forall_mem_cons] at hpos ⊢
  obtain ⟨hbefore, -, hbehind⟩ := hpos
  -- the first cut
  obtain ⟨before₁, seg₁, w₁, e₁, hcells, hlen, hpos₁, hnum, hflags⟩ :
      ∃ before₁ seg₁ w₁, (if pos < addr then
          (before ++ [(cutFront seg ((addr - pos) / 0x1000)).1],
            (cutFront seg ((addr - pos) / 0x1000)).2, ftUp? ops w seg.ft)
        else (before, seg, w)) = (before₁, seg₁, w₁) ∧
        pages before₁ ++ pages (seg₁ :: behind) = pages (before ++ seg :: behind) ∧
        numPages before₁ = start ∧ (∀ s ∈ before₁, 0 < s.numPages) ∧
        seg₁.numPages = numPages before + seg.numPages - start ∧ seg₁.flags = seg.flags := by
    by_cases hcut : pos < addr
    · have hk : (addr - pos) / 0x1000 ≤ seg.numPages := by omega
      refine ⟨_, _, _, if_pos hcut, ?_, ?_, ?_, ?_, rfl⟩
      · rw [pages_append, pages_append, pages_cons, pages_cons, pages_cons, ← cutFront_spec hk]
        simp [pages]
      · simp only [numPages, span_append, span_cons, span_nil, cutFront]
        rw [numPages] at hp
        omega
      · simp only [List.forall_mem_append, List.forall_mem_singleton]
        refine ⟨hbefore, ?_⟩
        show 0 < (addr - pos) / 0x1000
        omega
      · show seg.numPages - (addr - pos) / 0x1000 = _
        omega
    · refine ⟨_, _, _, if_neg hcut, (pages_append _ _).symm, by omega, hbefore, by omega, rfl⟩
  have hsplit : pages before₁ = (pages (before ++ seg :: behind)).take start ∧
      pages (seg₁ :: behind) = (pages (before ++ seg :: behind)).drop start := by
    rw [← hcells]
    exact ⟨(List.take_left' ((length_pages _).trans hlen)).symm,
      (List.drop_left' ((length_pages _).trans hlen)).symm⟩
  rw [cutToFit] at h
  simp only [e₁] at h
  -- the second cut
  by_cases hlong : seg₁.numPages > n
  · simp only [if_pos hlong, Prod.mk.injEq] at h
    obtain ⟨rfl, rfl, rfl, -⟩ := h
    refine ⟨⟨hsplit.1, ?_⟩, ⟨hpos₁, hn, ?_⟩, le_rfl, hflags, ?_⟩
    · rw [← hsplit.2, pages_cons, pages_cons, pages_cons, ← cutFront_spec hlong.le,
        List.append_assoc]
    · simp only [List.forall_mem_cons]
      refine ⟨?_, hbehind⟩
      show 0 < seg₁.numPages - n
      omega
    · rw [swallowSwept_eq_empty, swallowSwept_eq_empty hbehind fun s hs => by omega]
      · simp only [List.forall_mem_cons]
        refine ⟨?_, hbehind⟩
        show 0 < seg₁.numPages - n
        omega
      · intro s hs
        obtain rfl : _ = s := Option.some.inj hs
        show n < n + (seg₁.numPages - n)
        omega
  · simp only [if_neg hlong, Prod.mk.injEq] at h
    obtain ⟨rfl, rfl, rfl, -⟩ := h
    exact ⟨hsplit, ⟨hpos₁, by omega, hbehind⟩, Nat.le_of_not_lt hlong, hflags, by rw [hnum]⟩

/-- The pages from `start` on are those of the segment `new`, and all others are as before. -/
structure Replaced (segs : List Segment) (start : ℕ) (new : Segment) (segs' : List Segment) :
    Prop where
  split : ∃ before behind, segs' = before ++ new :: behind ∧
    pages before = (pages segs).take start ∧ pages behind = (pages segs).drop (start + new.numPages)
  bound : start + new.numPages ≤ numPages segs
  pos : ∀ s ∈ segs', 0 < s.numPages

/-- What `vmMapAt` does when it succeeds. -/
theorem vmMapAt_spec {r : ℕ} (hpos : ∀ s ∈ pm.segs, 0 < s.numPages) (haddr : addr % 0x1000 = 0)
    (hn : 0 < m.numPages) (h : vmMapAt ops ct addr a m w pm = some (.ok r, w', pm')) :
    r = addr ∧ pm'.lock = pm.lock ∧
      pm'.ptes = clear (Swept pm.segs (addr / 0x1000) m.numPages) pm.ptes ∧
      ∃ w₀, Replaced pm.segs (addr / 0x1000)
        (newSegment ct a m a.fixedFlags m.numPages (mapTree ops a w₀).1) pm'.segs := by
  rw [vmMapAt] at h
  split at h
  · simp at h
  rename_i before seg behind pos hfind
  obtain ⟨hsegs, hp, hle, hlt⟩ := findSeg_spec hfind (Nat.zero_le addr)
  rw [Nat.zero_add] at hp
  rw [hsegs] at hpos ⊢
  have hstart : numPages before ≤ addr / 0x1000 ∧
      addr / 0x1000 < numPages before + seg.numPages := by omega
  rw [swept_eq hstart.1 hstart.2]
  split_ifs at h with hexact
  · -- the segment is the region
    obtain ⟨rfl, hsize⟩ := hexact
    obtain ⟨⟨w₁, ptes₁⟩, h₁, he⟩ := Option.map_eq_some_iff.1 h
    simp only [fillSegment, Prod.mk.injEq, Except.ok.injEq] at he
    obtain ⟨rfl, -, rfl⟩ := he
    have hbefore : numPages before = pos / 0x1000 := by omega
    simp only [List.forall_mem_append, List.forall_mem_cons] at hpos
    refine ⟨rfl, rfl, ?_, w₁, ⟨before, behind, by rw [← hsize], ?_, ?_⟩, ?_, ?_⟩
    · rw [swallowSwept_eq_empty hpos.2.2 fun s hs => ?_, Set.union_empty]
      · exact unmapOld_spec haddr h₁
      · have := hpos.2.2 s (List.mem_of_mem_head? hs)
        omega
    · rw [pages_append, List.take_left' ((length_pages _).trans hbefore)]
    · rw [pages_append, pages_cons, ← List.append_assoc, List.drop_left']
      rw [List.length_append, length_pages, length_pageCells, hbefore, hsize]
      rfl
    · simp only [numPages, span_append, span_cons, newSegment]
      rw [numPages] at hbefore
      omega
    · simp only [List.forall_mem_append, List.forall_mem_cons]
      exact ⟨hpos.1, by rw [hsize]; exact hn, hpos.2.2⟩
  · -- it is cut to fit, and extended
    rcases hcut : cutToFit ops addr m.numPages pos before seg behind w with
      ⟨before₁, seg₁, behind₁, w₁⟩
    rw [hcut] at h
    obtain ⟨⟨seg₂, behind₂, w₂, ptes₂⟩, h₂, h⟩ := Option.bind_eq_some_iff.1 h
    obtain ⟨⟨w₃, ptes₃⟩, h₃, he⟩ := Option.map_eq_some_iff.1 h
    simp only [fillSegment, Prod.mk.injEq, Except.ok.injEq] at he
    obtain ⟨rfl, -, rfl⟩ := he
    obtain ⟨⟨htake, hdrop⟩, hpos₁, hle₁, hflags, hswept⟩ := cutToFit_spec hpos hn haddr hp hle hlt hcut
    simp only [List.forall_mem_append, List.forall_mem_cons] at hpos₁
    obtain ⟨rfl, hpages, hpos₂, hnum, hptes⟩ := swallow_spec hpos₁.2.2 haddr hle₁ h₂
    have hlen := congrArg List.length hdrop
    rw [List.length_drop, pages_cons, List.length_append, length_pageCells, length_pages,
      length_pages] at hlen
    refine ⟨rfl, rfl, ?_, _, ⟨before₁, behind₂, rfl, htake, ?_⟩, ?_, ?_⟩
    · rw [unmapOld_spec haddr h₃, hptes, hswept, clear, clear, clear,
        resetOn_resetOn PTe.not_loaded_zero, Set.union_comm, ← hflags]
    · show pages behind₂ = (pages (before ++ seg :: behind)).drop (addr / 0x1000 + m.numPages)
      rw [hpages, ← List.drop_drop, ← hdrop, drop_pages_cons hle₁]
    · show addr / 0x1000 + m.numPages ≤ numPages (before ++ seg :: behind)
      omega
    · simp only [List.forall_mem_append, List.forall_mem_cons]
      exact ⟨hpos₁.1, hn, hpos₂⟩

end Fixed

end Glidix.Vm
