import Glidix.Vm.CallSpecs

/-!
# Fixed mappings that succeed

`vmMap` succeeds at a fixed address if the pages of its region are free, or if they are the first ones of one
segment; it then clears no entry of a page outside of the region.
-/

namespace Glidix.Vm

variable {W : Type} {ops : PhysMem W} {w : W} {ptes : ℕ → PTe} {pm : ProcMem} {a : MapArgs} {m : Mapping}
  {addr n ct pos start : ℕ} {before behind segs : List Segment} {seg : Segment}

/-! ## The parts of the call -/

theorem unmapArea_isSome (hbound : pos + n * 0x1000 ≤ ADDR_MAX) (w : W) (ptes : ℕ → PTe) :
    ∃ r, unmapArea ops pos n w ptes = some r := by
  induction n generalizing pos w ptes with
  | zero => exact ⟨_, rfl⟩
  | succ n ih =>
    have hlt : ¬pos ≥ ADDR_MAX := by omega
    obtain ⟨⟨w₁, ptes₁⟩, h₁⟩ : ∃ r, unmapPage ops pos w ptes = some r := by
      unfold unmapPage
      simp only [if_neg hlt]
      split
      · exact ⟨_, rfl⟩
      · exact ⟨_, rfl⟩
    obtain ⟨r, hr⟩ : ∃ r, unmapArea ops (pos + 0x1000) n w₁ ptes₁ = some r := ih (by omega) w₁ ptes₁
    refine ⟨r, ?_⟩
    rw [unmapArea, h₁, Option.bind_some]
    exact hr

theorem unmapOld_isSome (h : seg.flags = 0 ∨ addr + n * 0x1000 ≤ ADDR_MAX) (w : W) (ptes : ℕ → PTe) :
    ∃ r, unmapOld ops seg addr n w ptes = some r := by
  unfold unmapOld
  split
  · next hflags => exact unmapArea_isSome (h.resolve_left hflags) w ptes
  · exact ⟨_, rfl⟩

/-- The segments that are taken whole are free, or what is unmapped for them lies in the address space. -/
theorem swallow_isSome (hlen : n ≤ seg.numPages + numPages behind)
    (hfree : ∀ l s r, behind = l ++ s :: r → seg.numPages + numPages l + s.numPages ≤ n →
      s.flags = 0 ∨ addr + 2 * (seg.numPages + numPages l) * 0x1000 ≤ ADDR_MAX)
    (w : W) (ptes : ℕ → PTe) : ∃ r, swallow ops addr n seg behind w ptes = some r := by
  induction behind generalizing seg w ptes with
  | nil =>
    have hnot : ¬seg.numPages < n := Nat.not_lt.2 hlen
    rw [swallow, if_neg hnot]
    exact ⟨_, rfl⟩
  | cons next rest ih =>
    rw [swallow]
    by_cases hlt : seg.numPages < n
    · simp only [if_pos hlt]
      by_cases hfit : next.numPages ≤ n - seg.numPages
      · rw [if_pos hfit]
        have hnext : next.flags = 0 ∨ addr + seg.numPages * 0x1000 + seg.numPages * 0x1000 ≤ ADDR_MAX := by
          refine (hfree [] next rest rfl ?_).imp_right fun hmax => ?_
          · change seg.numPages + 0 + next.numPages ≤ n
            omega
          · change addr + 2 * (seg.numPages + 0) * 0x1000 ≤ ADDR_MAX at hmax
            omega
        obtain ⟨⟨w₁, ptes₁⟩, h₁⟩ : ∃ r, unmapOld ops next (addr + seg.numPages * 0x1000) seg.numPages w ptes =
          some r := unmapOld_isSome hnext w ptes
        rw [h₁, Option.bind_some]
        refine ih ?_ ?_ _ _
        · rw [numPages, span_cons] at hlen
          change n ≤ seg.numPages + next.numPages + numPages rest
          rw [numPages]
          omega
        · intro l s r hsplit hle
          have hnum : numPages (next :: l) = next.numPages + numPages l := by rw [numPages, span_cons]
          change seg.numPages + next.numPages + numPages l + s.numPages ≤ n at hle
          have hmax := hfree (next :: l) s r (by rw [hsplit]; rfl) (by omega)
          rwa [hnum, ← Nat.add_assoc] at hmax
      · rw [if_neg hfit]
        exact ⟨_, rfl⟩
    · rw [if_neg hlt]
      exact ⟨_, rfl⟩

theorem findSeg_isSome (hle : pos ≤ addr) (hlt : addr < pos + numPages segs * 0x1000) :
    ∃ r, findSeg addr pos segs = some r := by
  induction segs generalizing pos with
  | nil =>
    rw [numPages, span_nil] at hlt
    omega
  | cons s segs ih =>
    rw [findSeg]
    split
    · next hnext =>
      rw [numPages, span_cons] at hlt
      obtain ⟨r, hr⟩ : ∃ r, findSeg addr (pos + s.numPages * 0x1000) segs = some r :=
        ih hnext (by rw [numPages]; omega)
      rw [hr]
      exact ⟨_, rfl⟩
    · exact ⟨_, rfl⟩

/-- The attributes of a page of a segment. -/
theorem getElem?_split {l r : List Segment} {i : ℕ} (hsegs : segs = l ++ seg :: r) (hi : i < seg.numPages) :
    (pages segs)[numPages l + i]? = some (seg.page i) := by
  rw [hsegs]
  exact getElem?_cells hi

/-! ## A region of free pages -/

section Free

/-- All pages of a region are free. -/
def FreePages (segs : List Segment) (start n : ℕ) : Prop :=
  ∀ p ∈ pageRange start n, ∀ x, (pages segs)[p]? = some x → x.flags = 0

/-- A segment that has a page in the region is free. -/
theorem FreePages.flags {l r : List Segment} (h : FreePages segs start n) (hsegs : segs = l ++ seg :: r)
    {i : ℕ} (hi : i < seg.numPages) (hp : numPages l + i ∈ pageRange start n) : seg.flags = 0 :=
  h _ hp _ (getElem?_split hsegs hi)

theorem FreePages.swept (h : FreePages segs start n) (hn : 0 < n) (hpos : ∀ s ∈ segs, 0 < s.numPages) :
    Swept segs start n = ∅ := by
  refine Set.eq_empty_iff_forall_notMem.2 ?_
  rintro p ⟨l, s, r, hsegs, hflags, hcase⟩
  have hs := hpos s (hsegs ▸ List.mem_append_right l List.mem_cons_self)
  rcases hcase with ⟨hle, hlt, -⟩ | ⟨hlt, hend, -⟩
  · exact hflags (h.flags hsegs (i := start - numPages l) (by omega) ⟨by omega, by omega⟩)
  · exact hflags (h.flags hsegs (i := 0) hs ⟨by omega, by omega⟩)

theorem vmMapAt_free (hwf : WellFormed pm.segs) (haddr : addr % 0x1000 = 0) (hn : 0 < m.numPages)
    (hbound : addr / 0x1000 + m.numPages ≤ 0x8000000)
    (hfree : FreePages pm.segs (addr / 0x1000) m.numPages) :
    ∃ w' pm', vmMapAt ops ct addr a m w pm = some (.ok addr, w', pm') := by
  obtain ⟨⟨before, seg, behind, pos⟩, hfind⟩ : ∃ r, findSeg addr 0 pm.segs = some r :=
    findSeg_isSome (Nat.zero_le _) (by rw [hwf.total]; omega)
  obtain ⟨hsegs, hp, hle, hlt⟩ := findSeg_spec hfind (Nat.zero_le addr)
  rw [Nat.zero_add] at hp
  have hseg : seg.flags = 0 := @FreePages.flags _ _ _ _ before behind hfree hsegs
    (addr / 0x1000 - numPages before) (by omega)
    ⟨by omega, by omega⟩
  rw [vmMapAt, hfind]
  simp only
  split
  · obtain ⟨r, hr⟩ := unmapOld_isSome (.inl hseg) (ftDown? ops w seg.ft) pm.ptes
    rw [hr]
    exact ⟨_, _, rfl⟩
  · rcases hcut : cutToFit ops addr m.numPages pos before seg behind w with ⟨before₁, seg₁, behind₁, w₁⟩
    have hpos := hwf.pos
    rw [hsegs] at hpos
    obtain ⟨⟨-, hdrop⟩, hpos₁, hle₁, hflags, -⟩ := cutToFit_spec hpos hn haddr hp hle hlt hcut
    rw [← hsegs] at hdrop
    have hlen := congrArg List.length hdrop
    rw [List.length_drop, length_pages, length_pages, hwf.total, numPages, span_cons] at hlen
    -- a segment that is taken whole begins inside the region
    obtain ⟨⟨seg₂, behind₂, w₂, ptes₂⟩, h₂⟩ : ∃ r,
        swallow ops addr m.numPages seg₁ behind₁ w₁ pm.ptes = some r := by
      refine swallow_isSome (by rw [numPages]; omega) (fun l s r hsplit hfit => ?_) _ _
      have hs : 0 < s.numPages := hpos₁ s (by rw [hsplit]; simp)
      have hlist : seg₁ :: behind₁ = (seg₁ :: l) ++ s :: r := by rw [hsplit]; rfl
      have hpage := getElem?_split hlist hs
      rw [hdrop, List.getElem?_drop, numPages, span_cons] at hpage
      exact Or.inl (hfree _ ⟨Nat.le_add_right _ _, by rw [numPages] at hfit; omega⟩ _ hpage)
    have hseg₂ : seg₂.flags = 0 := by
      simp only [List.forall_mem_append, List.forall_mem_cons] at hpos₁
      obtain ⟨rfl, -⟩ := swallow_spec hpos₁.2.2 haddr hle₁ h₂
      exact hflags.trans hseg
    simp only
    rw [h₂, Option.bind_some]
    obtain ⟨r, hr⟩ := unmapOld_isSome (.inl hseg₂) w₂ ptes₂
    rw [hr]
    exact ⟨_, _, rfl⟩

end Free

/-! ## A region at the beginning of a segment -/

section Within

theorem swept_within (hpos : ∀ s ∈ segs, 0 < s.numPages) (hsegs : segs = before ++ seg :: behind)
    (hstart : numPages before = start) (hle : n ≤ seg.numPages) (hflags : seg.flags ≠ 0) :
    Swept segs start n = pageRange start n := by
  subst hsegs
  have hs := hpos seg (List.mem_append_right before List.mem_cons_self)
  rw [swept_eq (by omega) (by omega), if_pos hflags, swallowSwept_eq_empty, Set.union_empty]
  · exact fun s hs => hpos s (List.mem_append_right before (List.mem_cons_of_mem _ hs))
  · intro s hs
    have hs' := hpos s (List.mem_append_right before (List.mem_cons_of_mem _ (List.mem_of_mem_head? hs)))
    omega

theorem vmMapAt_within (haddr : addr % 0x1000 = 0) (hn : 0 < m.numPages)
    (hsegs : pm.segs = before ++ seg :: behind) (hstart : numPages before = addr / 0x1000)
    (hle : m.numPages ≤ seg.numPages) (hmax : addr + m.numPages * 0x1000 ≤ ADDR_MAX) :
    ∃ w' pm', vmMapAt ops ct addr a m w pm = some (.ok addr, w', pm') := by
  have hpages : numPages pm.segs = numPages before + (seg.numPages + numPages behind) := by
    rw [hsegs, numPages, span_append, span_cons]
  obtain ⟨⟨before', seg', behind', pos⟩, hfind⟩ : ∃ r, findSeg addr 0 pm.segs = some r :=
    findSeg_isSome (Nat.zero_le _) (by omega)
  obtain ⟨hsegs', hp, hle', hlt⟩ := findSeg_spec hfind (Nat.zero_le addr)
  rw [Nat.zero_add] at hp
  -- the segment that is found is this one
  have hsame : before = before' ∧ seg = seg' ∧ behind = behind' := by
    rcases append_cons_cases (hsegs.symm.trans hsegs') with h | ⟨mid, rfl, -⟩ | ⟨mid, rfl, -⟩
    · exact h
    · rw [numPages, span_append, span_cons] at hp
      rw [numPages] at hstart
      omega
    · rw [numPages, span_append, span_cons] at hstart
      rw [numPages] at hp
      omega
  obtain ⟨rfl, rfl, rfl⟩ := hsame
  have hpos : pos = addr := by omega
  rw [vmMapAt, hfind]
  simp only [hpos, true_and]
  split
  · obtain ⟨r, hr⟩ := unmapOld_isSome (.inr hmax) (ftDown? ops w seg.ft) pm.ptes
    rw [hr]
    exact ⟨_, _, rfl⟩
  · next hne =>
    have hlong : seg.numPages > m.numPages := by omega
    have hcut : cutToFit ops addr m.numPages addr before seg behind w = (before, (cutFront seg m.numPages).1,
        (cutFront seg m.numPages).2 :: behind, ftUp? ops w seg.ft) := by
      unfold cutToFit
      simp only [if_neg (Nat.lt_irrefl addr), if_pos hlong]
    have hswallow : swallow ops addr m.numPages (cutFront seg m.numPages).1
        ((cutFront seg m.numPages).2 :: behind) (ftUp? ops w seg.ft) pm.ptes =
          some ((cutFront seg m.numPages).1, (cutFront seg m.numPages).2 :: behind, ftUp? ops w seg.ft,
            pm.ptes) := by
      rw [swallow]
      exact if_neg (Nat.lt_irrefl m.numPages)
    obtain ⟨r, hr⟩ : ∃ r, unmapOld ops (cutFront seg m.numPages).1 addr m.numPages (ftUp? ops w seg.ft)
        pm.ptes = some r := unmapOld_isSome (.inr hmax) _ _
    simp only [hcut]
    rw [hswallow, Option.bind_some]
    simp only
    rw [hr]
    exact ⟨_, _, rfl⟩

end Within

end Glidix.Vm
