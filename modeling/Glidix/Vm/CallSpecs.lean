import Glidix.Vm.MapFrame

/-!
# What the calls do to the pages

One specification for each call, in terms of the attributes and the entries of the pages, and from
these the shape of every reachable address space: its segments are not empty and cover all pages
(`reachable_wellFormed`).
-/

namespace Glidix.Vm

variable {W : Type} {ops : PhysMem W} {w w' : W} {pm pm' : ProcMem} {ct p : ℕ}

/-! ## Mapping -/

section Map

variable {a : MapArgs} {m : Mapping} {segs segs' : List Segment} {start : ℕ} {new : Segment}

/-- The mapping is to be made at the given address. -/
def MapArgs.isFixed (a : MapArgs) : Prop := a.addr ≠ 0 ∨ has a.flags MAP_FIXED = true

instance (a : MapArgs) : Decidable a.isFixed := inferInstanceAs (Decidable (_ ∨ _))

/-- The pages that are to be mapped; none if the place that was found is too low. -/
def mapRegion (segs : List Segment) (a : MapArgs) (m : Mapping) : Set ℕ :=
  if a.isFixed then pageRange (a.addr / 0x1000) m.numPages
  else
    match findFree m.numPages segs with
    | none => ∅
    | some (before, seg, _) =>
      let start := numPages before + (seg.numPages - m.numPages)
      if start * 0x1000 < ADDR_MIN then ∅ else pageRange start m.numPages

/-- The pages whose entries are cleared. -/
def mapCleared (segs : List Segment) (a : MapArgs) (m : Mapping) : Set ℕ :=
  if a.isFixed then Swept segs (a.addr / 0x1000) m.numPages else ∅

theorem Replaced.getElem?_of_notMem (h : Replaced segs start new segs')
    (hp : p ∉ pageRange start new.numPages) : (pages segs')[p]? = (pages segs)[p]? := by
  obtain ⟨⟨before, behind, rfl, hbefore, hbehind⟩, hbound, -⟩ := h
  have hlen : (pages before).length = start := by
    rw [hbefore, List.length_take, length_pages]
    omega
  rw [pages_append, pages_cons]
  by_cases hlt : p < start
  · rw [List.getElem?_append_left (by omega), hbefore, List.getElem?_take_of_lt hlt]
  · have hge : start + new.numPages ≤ p := by
      simp only [pageRange, Set.mem_ofPred_eq, not_and_or] at hp
      omega
    rw [List.getElem?_append_right (by omega), hlen,
      List.getElem?_append_right (by rw [length_pageCells]; omega), length_pageCells, hbehind,
      List.getElem?_drop]
    congr 1
    omega

theorem Replaced.getElem?_of_mem (h : Replaced segs start new segs') {i : ℕ}
    (hi : i < new.numPages) : (pages segs')[start + i]? = some (new.page i) := by
  obtain ⟨⟨before, behind, rfl, hbefore, -⟩, hbound, -⟩ := h
  have hlen : numPages before = start := by
    rw [← length_pages, hbefore, List.length_take, length_pages]
    omega
  rw [← hlen]
  exact getElem?_cells hi

theorem Replaced.numPages_eq (h : Replaced segs start new segs') :
    numPages segs' = numPages segs := by
  obtain ⟨⟨before, behind, rfl, hbefore, hbehind⟩, hbound, -⟩ := h
  have h₁ := congrArg List.length hbefore
  have h₂ := congrArg List.length hbehind
  rw [List.length_take, length_pages, length_pages] at h₁
  rw [List.length_drop, length_pages, length_pages] at h₂
  rw [numPages, span_append, span_cons]
  simp only [numPages] at h₁ h₂ hbound ⊢
  omega

theorem vmMap_fixed_eq {r : ℕ} (hm : vmMapCheck a = .ok m) (hfixed : a.isFixed)
    (h : vmMap ops ct a w pm = some (.ok r, w', pm')) :
    vmMapAt ops ct (a.addr / 0x1000 * 0x1000) a m w pm = some (.ok r, w', pm') := by
  have hnot : ¬ (a.addr = 0 ∧ ¬ has a.flags MAP_FIXED = true) := by
    rintro ⟨h₀, h₁⟩
    exact hfixed.elim (fun h => h h₀) h₁
  rw [vmMap, hm] at h
  simp only [if_neg hnot] at h
  split_ifs at h
  · cases h
  · exact h

/-- What the checks of `vmMap` ensure. -/
theorem vmMapCheck_ok (hm : vmMapCheck a = .ok m) :
    m.numPages = (a.len + 0xFFF) % 2 ^ 64 / 0x1000 ∧ 0 < m.numPages ∧
      (a.flags &&& 3 = MAP_PRIVATE ∨ a.flags &&& 3 = MAP_SHARED) ∧
        (a.flags &&& 3 = MAP_SHARED → has m.prot PROT_WRITE = true → has m.access O_WRONLY = true) ∧
          (has a.flags MAP_ANON = true → a.fp = none) := by
  rw [vmMapCheck] at hm
  rcases ha : mapAccess a with e | access
  · simp only [ha, Except.bind] at hm
    split_ifs at hm
  · simp only [ha, Except.bind] at hm
    split_ifs at hm with h₁ h₂ h₃ h₄ h₅ h₆ h₇ h₈
    obtain rfl := Except.ok.inj hm
    refine ⟨rfl, Nat.pos_of_ne_zero h₈, ?_, fun hs hw => ?_, fun hanon => ?_⟩
    · rwa [not_and_or, not_not, not_not] at h₃
    · by_contra hno
      exact h₄ ⟨hs, hw, hno⟩
    · by_contra hno
      exact h₂ ⟨hanon, hno⟩

/-- What a mapping does to the segments: the pages of the region get its attributes, unless they are
made free, and all others stay as they are or stay free. -/
structure Remapped (segs : List Segment) (region : Set ℕ) (a : MapArgs) (m : Mapping)
    (segs' : List Segment) : Prop where
  total : numPages segs' = numPages segs
  pos : ∀ s ∈ segs', 0 < s.numPages
  attr : ∀ p at', (pages segs')[p]? = some at' →
    (p ∈ region ∧ at'.flags = a.flags ∧ at'.prot = m.prot ∧ at'.access = m.access) ∨
      at'.flags = 0 ∨ (pages segs)[p]? = some at'

theorem Replaced.remapped {ft : Option ℕ}
    (h : Replaced segs start (newSegment ct a m a.fixedFlags m.numPages ft) segs') :
    Remapped segs (pageRange start m.numPages) a m segs' where
  total := h.numPages_eq
  pos := h.pos
  attr := fun p at' hat => by
    by_cases hp : p ∈ pageRange start m.numPages
    · obtain ⟨hle, hlt⟩ := hp
      obtain ⟨i, rfl⟩ := Nat.exists_eq_add_of_le hle
      rw [h.getElem?_of_mem (show i < m.numPages by omega), Option.some.injEq] at hat
      subst hat
      by_cases hun : has a.flags MAP_UN = true
      · exact Or.inr (Or.inl (if_pos hun))
      · exact Or.inl ⟨⟨hle, hlt⟩, if_neg hun, rfl, rfl⟩
    · rw [h.getElem?_of_notMem hp] at hat
      exact Or.inr (Or.inr hat)

theorem findFree_spec {n : ℕ} {before behind : List Segment} {seg : Segment}
    (h : findFree n segs = some (before, seg, behind)) :
    segs = before ++ seg :: behind ∧ seg.flags = 0 ∧ n ≤ seg.numPages := by
  induction segs generalizing before seg behind with
  | nil => cases h
  | cons s segs ih =>
    rw [findFree] at h
    split at h
    · rename_i b t r hr
      obtain ⟨rfl, hrest⟩ := ih hr
      simp only [Option.some.injEq, Prod.mk.injEq] at h
      obtain ⟨rfl, rfl, rfl⟩ := h
      exact ⟨rfl, hrest⟩
    · split_ifs at h with hfree
      simp only [Option.some.injEq, Prod.mk.injEq] at h
      obtain ⟨rfl, rfl, rfl⟩ := h
      exact ⟨rfl, hfree⟩

/-- The pages of a list in which one part is exchanged for another of the same length. -/
theorem getElem?_exchange (before behind : List Segment) {mid mid' : List Segment}
    (hmid : numPages mid' = numPages mid) (hp : p < numPages before ∨
      numPages before + numPages mid ≤ p) :
    (pages (before ++ mid' ++ behind))[p]? = (pages (before ++ mid ++ behind))[p]? := by
  have hl := length_pages before
  have hm := length_pages mid
  have hm' := length_pages mid'
  simp only [pages_append, List.append_assoc]
  rcases hp with hlt | hge
  · rw [List.getElem?_append_left (by omega), List.getElem?_append_left (by omega)]
  · rw [List.getElem?_append_right (by omega), List.getElem?_append_right (by omega),
      List.getElem?_append_right (by omega), List.getElem?_append_right (by omega), hm, hm', hmid]

theorem getElem?_pages (before behind : List Segment) (seg : Segment) (hle : numPages before ≤ p)
    (hlt : p < numPages before + seg.numPages) :
    ∃ i, (pages (before ++ seg :: behind))[p]? = some (seg.page i) := by
  obtain ⟨i, rfl⟩ := Nat.exists_eq_add_of_le hle
  exact ⟨i, getElem?_cells (by omega)⟩

/-- `vmMapAnywhere` takes the end of a free segment. -/
theorem vmMapAnywhere_spec {r : Except Errno ℕ} (hwf : WellFormed pm.segs)
    (hn : 0 < m.numPages) (hfixed : ¬ a.isFixed)
    (h : vmMapAnywhere ops ct a m w pm = (r, w', pm')) :
    pm' = pm ∨ Remapped pm.segs (mapRegion pm.segs a m) a m pm'.segs ∧ pm'.ptes = pm.ptes ∧
      pm'.lock = pm.lock := by
  rw [mapRegion, if_neg hfixed]
  rw [vmMapAnywhere] at h
  split at h
  · exact Or.inl (Prod.mk.inj (Prod.mk.inj h).2).2.symm
  rename_i before seg behind hfind
  obtain ⟨hsegs, hfree, hfit⟩ := findFree_spec hfind
  simp only [hfind]
  obtain ⟨hpos, htotal⟩ := hwf
  rw [hsegs] at hpos htotal ⊢
  rw [numPages, span_append, span_cons] at htotal
  simp only [List.forall_mem_append, List.forall_mem_cons] at hpos
  -- the place is as low as its address
  have hlow : ∀ pos, pos = (numPages before + (seg.numPages - m.numPages)) * 0x1000 →
      ¬ pos < ADDR_MIN → ∀ p, numPages before + (seg.numPages - m.numPages) ≤ p →
        p < numPages before + seg.numPages →
          p ∈ (if (numPages before + (seg.numPages - m.numPages)) * 0x1000 < ADDR_MIN then ∅
            else pageRange (numPages before + (seg.numPages - m.numPages)) m.numPages : Set ℕ) := by
    intro pos hp hmin p hle hlt
    rw [if_neg (hp ▸ hmin)]
    exact ⟨hle, by omega⟩
  by_cases hsize : seg.numPages = m.numPages
  · simp only [if_pos hsize] at h
    split_ifs at h with hmin
    · exact Or.inl (Prod.mk.inj (Prod.mk.inj h).2).2.symm
    -- the segment as a whole
    right
    simp only [Prod.mk.injEq] at h
    obtain ⟨-, -, rfl⟩ := h
    refine ⟨⟨?_, ?_, fun p at' hat => ?_⟩, rfl, rfl⟩
    · simp only [numPages, span_append, span_cons, newSegment]
    · simp only [List.forall_mem_append, List.forall_mem_cons]
      exact hpos
    · by_cases hp : numPages before ≤ p ∧ p < numPages before + seg.numPages
      · left
        obtain ⟨i, hi⟩ := getElem?_pages before behind
          (newSegment ct a m a.flags seg.numPages (mapTree ops a w).1) hp.1 hp.2
        obtain rfl := Option.some.inj (hat.symm.trans hi)
        exact ⟨hlow _ (by simp only [numPages]; omega) hmin p (by omega) hp.2, rfl, rfl, rfl⟩
      · right; right
        rw [← hat]
        have hex := getElem?_exchange (p := p) before behind
          (show numPages [newSegment ct a m a.flags seg.numPages (mapTree ops a w).1] =
            numPages [seg] by simp [numPages, newSegment]) (by simp [numPages] at hp ⊢; omega)
        simpa using hex.symm
  · simp only [if_neg hsize] at h
    by_cases hmin : 0x8000000000 - (numPages behind + seg.numPages) * 0x1000 +
        (seg.numPages - m.numPages) * 0x1000 < ADDR_MIN
    · rw [if_pos hmin] at h
      exact Or.inl (Prod.mk.inj (Prod.mk.inj h).2).2.symm
    -- the segment is split
    right
    rw [if_neg hmin] at h
    simp only [Prod.mk.injEq] at h
    obtain ⟨-, -, rfl⟩ := h
    generalize (if (has a.flags MAP_SHARED && has a.flags MAP_ANON) = true then
      (mapTree ops a w).1 else seg.ft) = ft₁
    generalize (if (has a.flags MAP_SHARED && has a.flags MAP_ANON) = true then
      none else (mapTree ops a w).1) = ft₂
    set free : Segment := { seg with ft := ft₁, numPages := seg.numPages - m.numPages }
    set new := newSegment ct a m a.flags m.numPages ft₂
    have hfreeNum : free.numPages = seg.numPages - m.numPages := rfl
    have hnewNum : new.numPages = m.numPages := rfl
    refine ⟨⟨?_, ?_, fun p at' hat => ?_⟩, rfl, rfl⟩
    · simp only [numPages, span_append, span_cons, hfreeNum, hnewNum]
      omega
    · simp only [List.forall_mem_append, List.forall_mem_cons, hfreeNum, hnewNum]
      exact ⟨hpos.1, by omega, hn, hpos.2.2⟩
    · have hbefore : numPages (before ++ [free]) = numPages before + (seg.numPages - m.numPages) := by
        simp [numPages, hfreeNum]
      by_cases hp : numPages before ≤ p ∧ p < numPages before + seg.numPages
      · by_cases hnew : numPages before + (seg.numPages - m.numPages) ≤ p
        · left
          obtain ⟨i, hi⟩ := getElem?_pages (p := p) (before ++ [free]) behind new (by omega)
            (by omega)
          rw [List.append_assoc, List.singleton_append] at hi
          obtain rfl := Option.some.inj (hat.symm.trans hi)
          exact ⟨hlow _ (by simp only [numPages]; omega) hmin p hnew hp.2, rfl, rfl, rfl⟩
        · right; left
          obtain ⟨i, hi⟩ := getElem?_pages (p := p) before (new :: behind) free hp.1
            (by omega)
          obtain rfl := Option.some.inj (hat.symm.trans hi)
          exact hfree
      · right; right
        rw [← hat]
        have hex := getElem?_exchange (p := p) before behind
          (show numPages [free, new] = numPages [seg] by
            simp [numPages, hfreeNum, hnewNum]; omega)
          (by simp [numPages] at hp ⊢; omega)
        simpa using hex.symm

theorem vmMapAt_error {addr : ℕ} {e : Errno}
    (h : vmMapAt ops ct addr a m w pm = some (.error e, w', pm')) : pm' = pm := by
  rw [vmMapAt] at h
  split at h
  · exact (Prod.mk.inj (Prod.mk.inj (Option.some.inj h)).2).2.symm
  · -- the call does not fail once there is a segment
    split_ifs at h
    · obtain ⟨_, -, he⟩ := Option.map_eq_some_iff.1 h
      cases he
    · obtain ⟨_, -, h'⟩ := Option.bind_eq_some_iff.1 h
      obtain ⟨_, -, he⟩ := Option.map_eq_some_iff.1 h'
      cases he

/-- What `vmMap` does. -/
theorem vmMap_spec {r : Except Errno ℕ} (hwf : WellFormed pm.segs)
    (h : vmMap ops ct a w pm = some (r, w', pm')) :
    pm' = pm ∨ ∃ m, vmMapCheck a = .ok m ∧ Remapped pm.segs (mapRegion pm.segs a m) a m pm'.segs ∧
      pm'.ptes = clear (mapCleared pm.segs a m) pm.ptes ∧ pm'.lock = pm.lock := by
  rcases hm : vmMapCheck a with e | m
  · rw [vmMap, hm] at h
    simp only [Option.some.injEq, Prod.mk.injEq] at h
    exact Or.inl h.2.2.symm
  obtain ⟨-, hn, -⟩ := vmMapCheck_ok hm
  by_cases hfixed : a.isFixed
  · rcases r with e | r
    · -- no error comes after the checks of the segments
      left
      rw [vmMap, hm] at h
      simp only at h
      split_ifs at h with h₀
      · exact absurd h₀ fun h₀ => hfixed.elim (fun h => h h₀.1) h₀.2
      · exact (Prod.mk.inj (Prod.mk.inj (Option.some.inj h)).2).2.symm
      · exact vmMapAt_error h
    · have hat := vmMap_fixed_eq hm hfixed h
      obtain ⟨-, hlock, hptes, w₀, hrep⟩ := vmMapAt_spec hwf.pos (Nat.mul_mod_left _ _) hn hat
      rw [Nat.mul_div_cancel _ (by decide)] at hptes hrep
      refine Or.inr ⟨m, rfl, ?_, ?_, hlock⟩
      · rw [mapRegion, if_pos hfixed]
        exact hrep.remapped
      · rw [mapCleared, if_pos hfixed]
        exact hptes
  · have hany : a.addr = 0 ∧ ¬ has a.flags MAP_FIXED = true := by
      rwa [MapArgs.isFixed, not_or, not_not] at hfixed
    rw [vmMap, hm] at h
    simp only [if_pos hany] at h
    split_ifs at h with hlock
    refine (vmMapAnywhere_spec hwf hn hfixed (Option.some.inj h)).imp_right fun hspec => ?_
    refine ⟨m, rfl, hspec.1, ?_, hspec.2.2⟩
    rw [mapCleared, if_neg hfixed, clear, resetOn_empty, hspec.2.1]

end Map

/-! ## Faults -/

section Fault

variable {seg : Segment} {pos faultAddr flags : ℕ} {e e' : PTe}

/-- The entries that a page may have once it is loaded, before it is copied. -/
def Resolved (seg : Segment) (e e₁ : PTe) : Prop :=
  e₁.gx_loaded = true ∧
    (e₁ = e.setPerm seg ∨ ∃ frame, e₁ = (e.setPerm seg).load seg frame)

/-- The entries that a page may have after a fault, or after its frame was asked for. -/
def Handled (seg : Segment) (e e' : PTe) : Prop :=
  e' = e.setPerm seg ∨ Resolved seg e e' ∨ ∃ e₁ frame, Resolved seg e e₁ ∧ e₁.gx_cow = true ∧
    e' = { e₁ with framePhysAddr := frame, gx_cow := false, rw := true }

theorem loadPage_spec {b : Bool}
    (h : loadPage ops seg pos faultAddr w (e.setPerm seg) = (b, w', e')) :
    b = false ∧ e' = e.setPerm seg ∨ b = true ∧ Resolved seg e e' := by
  rw [loadPage] at h
  by_cases hl : (e.setPerm seg).gx_loaded = true
  · rw [if_pos hl] at h
    simp only [Prod.mk.injEq] at h
    obtain ⟨rfl, -, rfl⟩ := h
    exact Or.inr ⟨rfl, hl, Or.inl rfl⟩
  · rw [if_neg hl] at h
    simp only at h
    split_ifs at h
    · obtain ⟨rfl, -, rfl⟩ := h
      exact Or.inl ⟨rfl, rfl⟩
    · obtain ⟨rfl, -, rfl⟩ := h
      exact Or.inr ⟨rfl, rfl, Or.inr ⟨_, rfl⟩⟩

theorem copyOnWrite_spec {b : Bool} {e₁ : PTe} (hr : Resolved seg e e₁)
    (h : copyOnWrite ops w e₁ = some (b, w', e')) : Handled seg e e' := by
  rw [copyOnWrite] at h
  by_cases hcow : e₁.gx_cow = true
  · simp only [if_pos hcow] at h
    split_ifs at h
    · simp only [Option.some.injEq, Prod.mk.injEq] at h
      obtain ⟨-, -, rfl⟩ := h
      exact Or.inr (Or.inl hr)
    · simp only [Option.some.injEq, Prod.mk.injEq] at h
      obtain ⟨-, -, rfl⟩ := h
      exact Or.inr (Or.inr ⟨e₁, _, hr, hcow, rfl⟩)
    · simp only [Option.some.injEq, Prod.mk.injEq] at h
      obtain ⟨-, -, rfl⟩ := h
      exact Or.inr (Or.inr ⟨e₁, e₁.framePhysAddr, hr, hcow, rfl⟩)
  · rw [if_neg hcow] at h
    simp only [Option.some.injEq, Prod.mk.injEq] at h
    obtain ⟨-, -, rfl⟩ := h
    exact Or.inr (Or.inl hr)

/-- What `vmFault` and `vmGetPhys` do to an address space: nothing, or they set the entry of the page. -/
def FaultEffect (pm : ProcMem) (addr : ℕ) (pm' : ProcMem) : Prop :=
  pm' = pm ∨ ∃ seg i e', pm.attr (addr / 0x1000) = some (seg.page i) ∧
    Handled seg (pm.ptes (addr / 0x1000)) e' ∧ pm' = pm.setPte addr e'

theorem findSeg_attr {addr : ℕ} {before behind : List Segment}
    (h : findSeg addr 0 pm.segs = some (before, seg, behind, pos)) :
    ∃ i, pm.attr (addr / 0x1000) = some (seg.page i) := by
  obtain ⟨hsegs, hp, hle, hlt⟩ := findSeg_spec h (Nat.zero_le addr)
  rw [ProcMem.attr, hsegs]
  exact getElem?_pages _ _ _ (by omega) (by omega)

theorem touchPage_spec {write exec copy : Bool} {r : Except Signal Unit}
    (h : touchPage ops write exec copy seg pos faultAddr w e = some (r, w', e')) :
    Handled seg e e' := by
  rw [touchPage] at h
  simp only at h
  by_cases hdenied : write = true ∧ ¬ (e.setPerm seg).gx_w = true ∨ ¬ (e.setPerm seg).gx_r = true ∨
      exec = true ∧ ¬ (e.setPerm seg).gx_x = true
  · rw [if_pos hdenied] at h
    exact Or.inl (Prod.mk.inj (Prod.mk.inj (Option.some.inj h)).2).2.symm
  rw [if_neg hdenied] at h
  rcases hload : loadPage ops seg pos faultAddr w (e.setPerm seg) with ⟨b, w₁, e₁⟩
  simp only [hload] at h
  rcases loadPage_spec hload with ⟨rfl, rfl⟩ | ⟨rfl, hr⟩
  · exact Or.inl (Prod.mk.inj (Prod.mk.inj (Option.some.inj h)).2).2.symm
  · rw [if_pos rfl] at h
    by_cases hcopy : copy = true
    · rw [if_pos hcopy] at h
      obtain ⟨⟨b, w₂, e₂⟩, hcow, he⟩ := Option.map_eq_some_iff.1 h
      obtain rfl := (Prod.mk.inj (Prod.mk.inj he).2).2
      exact copyOnWrite_spec hr hcow
    · rw [if_neg hcopy] at h
      obtain rfl := (Prod.mk.inj (Prod.mk.inj (Option.some.inj h)).2).2
      exact Or.inr (Or.inl hr)

/-- What `vmFault` does to an address space: nothing, or it touches the page. -/
theorem vmFault_touch {r : Except Signal Unit}
    (h : vmFault ops faultAddr flags w pm = some (r, w', pm')) :
    pm' = pm ∨ ∃ seg i pos w₁ e', pm.attr (faultAddr / 0x1000) = some (seg.page i) ∧
      touchPage ops (has flags PF_WRITE) (has flags PF_FETCH) (has flags PF_WRITE) seg pos faultAddr w
        (pm.ptes (faultAddr / 0x1000)) = some (r, w₁, e') ∧ pm' = pm.setPte faultAddr e' := by
  rw [vmFault] at h
  by_cases hrange : faultAddr < ADDR_MIN ∨ faultAddr ≥ ADDR_MAX
  · rw [if_pos hrange] at h
    exact Or.inl (Prod.mk.inj (Prod.mk.inj (Option.some.inj h)).2).2.symm
  by_cases hlock : pm.lock = true
  · rw [if_neg hrange, if_pos hlock] at h
    cases h
  rw [if_neg hrange, if_neg hlock] at h
  obtain ⟨⟨before, seg, behind, pos⟩, hfind, h⟩ := Option.bind_eq_some_iff.1 h
  obtain ⟨i, hattr⟩ := findSeg_attr hfind
  simp only at h
  split_ifs at h
  · exact Or.inl (Prod.mk.inj (Prod.mk.inj (Option.some.inj h)).2).2.symm
  · obtain ⟨⟨r', w₁, e₁⟩, htouch, he⟩ := Option.map_eq_some_iff.1 h
    simp only [Prod.mk.injEq] at he
    obtain ⟨rfl, -, rfl⟩ := he
    exact Or.inr ⟨seg, i, pos, w₁, e₁, hattr, htouch, rfl⟩

theorem vmFault_spec {r : Except Signal Unit}
    (h : vmFault ops faultAddr flags w pm = some (r, w', pm')) : FaultEffect pm faultAddr pm' :=
  (vmFault_touch h).imp_right fun ⟨seg, i, _, _, e', hattr, htouch, hpm⟩ =>
    ⟨seg, i, e', hattr, touchPage_spec htouch, hpm⟩

/-- What `vmGetPhys` does to an address space: nothing, or it touches the page. -/
theorem vmGetPhys_touch {r perms : ℕ}
    (h : vmGetPhys ops faultAddr perms w pm = some (r, w', pm')) :
    pm' = pm ∨ ∃ seg i pos r' w₁ e', pm.attr (faultAddr / 0x1000) = some (seg.page i) ∧
      touchPage ops (has perms PROT_WRITE) (has perms PROT_EXEC) true seg pos faultAddr w
        (pm.ptes (faultAddr / 0x1000)) = some (r', w₁, e') ∧ pm' = pm.setPte faultAddr e' := by
  rw [vmGetPhys] at h
  by_cases hrange : faultAddr < ADDR_MIN ∨ faultAddr ≥ ADDR_MAX
  · rw [if_pos hrange] at h
    exact Or.inl (Prod.mk.inj (Prod.mk.inj (Option.some.inj h)).2).2.symm
  by_cases hlock : pm.lock = true
  · rw [if_neg hrange, if_pos hlock] at h
    cases h
  rw [if_neg hrange, if_neg hlock] at h
  obtain ⟨⟨before, seg, behind, pos⟩, hfind, h⟩ := Option.bind_eq_some_iff.1 h
  obtain ⟨i, hattr⟩ := findSeg_attr hfind
  simp only at h
  split_ifs at h
  · exact Or.inl (Prod.mk.inj (Prod.mk.inj (Option.some.inj h)).2).2.symm
  · obtain ⟨⟨r', w₁, e₁⟩, htouch, he⟩ := Option.map_eq_some_iff.1 h
    refine Or.inr ⟨seg, i, pos, r', w₁, e₁, hattr, htouch, ?_⟩
    cases r' <;> exact (Prod.mk.inj (Prod.mk.inj he).2).2.symm

theorem vmGetPhys_spec {r perms : ℕ}
    (h : vmGetPhys ops faultAddr perms w pm = some (r, w', pm')) : FaultEffect pm faultAddr pm' :=
  (vmGetPhys_touch h).imp_right fun ⟨seg, i, _, _, _, e', hattr, htouch, hpm⟩ =>
    ⟨seg, i, e', hattr, touchPage_spec htouch, hpm⟩

end Fault

/-! ## Protection -/

section Protect

variable {prot count addr pos : ℕ} {segs before : List Segment} {ptes ptes' : ℕ → PTe}

/-- `vmProtect` may set the permissions of a page. -/
def Protectable (segs : List Segment) (prot p : ℕ) : Prop :=
  ∃ at', (pages segs)[p]? = some at' ∧ at'.flags ≠ 0 ∧
    ¬ (has prot PROT_WRITE = true ∧ has at'.flags MAP_SHARED = true ∧
      ¬ has at'.access O_WRONLY = true)

theorem protectPages_spec {r : Except Errno Unit} (before : List Segment)
    (hpos : pos = numPages before * 0x1000) (hle : pos ≤ addr)
    (h : protectPages prot count addr pos segs ptes = some (r, ptes')) :
    ∀ p, ptes' p = ptes p ∨ addr / 0x1000 ≤ p ∧ Protectable (before ++ segs) prot p ∧
      ptes' p = (ptes p).protect prot := by
  induction count generalizing addr pos segs before ptes with
  | zero =>
    intro p
    obtain rfl := (Prod.mk.inj (Option.some.inj h)).2
    exact Or.inl rfl
  | succ count ih =>
    obtain ⟨⟨b, seg, behind, pos'⟩, hfind, h⟩ := Option.bind_eq_some_iff.1 h
    obtain ⟨rfl, rfl, hle', hlt⟩ := findSeg_spec hfind hle
    simp only at h
    split_ifs at h with hfree hdenied
    · intro p
      obtain rfl := (Prod.mk.inj (Option.some.inj h)).2
      exact Or.inl rfl
    · intro p
      obtain rfl := (Prod.mk.inj (Option.some.inj h)).2
      exact Or.inl rfl
    · have hnum : numPages (before ++ b) = numPages before + numPages b := by simp [numPages]
      have hrest := ih (before ++ b) (by rw [hnum]; omega) (by omega) h
      rw [List.append_assoc] at hrest
      intro p
      by_cases hp : p = addr / 0x1000
      · subst hp
        right
        obtain ⟨i, hi⟩ := getElem?_pages (p := addr / 0x1000) (before ++ b) behind seg
          (by rw [hnum]; omega) (by rw [hnum]; omega)
        refine ⟨le_rfl, ⟨_, by rwa [← List.append_assoc], hfree, hdenied⟩, ?_⟩
        rcases hrest (addr / 0x1000) with he | ⟨hge, -⟩
        · rw [he, Function.update_self]
        · omega
      · rcases hrest p with he | ⟨hge, hprot, he⟩
        · rw [Function.update_of_ne hp] at he
          exact Or.inl he
        · rw [Function.update_of_ne hp] at he
          exact Or.inr ⟨by omega, hprot, he⟩

theorem vmProtect_spec {base len : ℕ} {r : Except Errno Unit}
    (h : vmProtect base len prot w pm = some (r, w', pm')) :
    pm'.segs = pm.segs ∧ ∀ p, pm'.ptes p = pm.ptes p ∨ Protectable pm.segs (impliedProt prot) p ∧
      pm'.ptes p = (pm.ptes p).protect (impliedProt prot) := by
  have hsame : pm' = pm → _ := fun he =>
    (he ▸ ⟨rfl, fun _ => Or.inl rfl⟩ : pm'.segs = pm.segs ∧ ∀ p, pm'.ptes p = pm.ptes p ∨
      Protectable pm.segs (impliedProt prot) p ∧
        pm'.ptes p = (pm.ptes p).protect (impliedProt prot))
  rw [vmProtect] at h
  split_ifs at h
  iterate 3 exact hsame (Prod.mk.inj (Prod.mk.inj (Option.some.inj h)).2).2.symm
  obtain ⟨⟨r', ptes'⟩, hloop, he⟩ := Option.map_eq_some_iff.1 h
  simp only [Prod.mk.injEq] at he
  obtain ⟨-, -, rfl⟩ := he
  have hspec := protectPages_spec [] (by simp) (Nat.zero_le base) hloop
  exact ⟨rfl, fun p => (hspec p).imp_right fun h => h.2⟩

end Protect

/-! ## Threads -/

section Thread

variable {pos : ℕ} {segs segs' before before' behind mid : List Segment} {seg seg' : Segment}
  {ptes ptes' : ℕ → PTe}

/-- The pages are as before, or free. -/
structure Freed (segs segs' : List Segment) : Prop where
  total : numPages segs' = numPages segs
  attr : ∀ (p : ℕ) (at' : PageAttr), (pages segs')[p]? = some at' →
    at'.flags = 0 ∨ (pages segs)[p]? = some at'

theorem Freed.refl (segs : List Segment) : Freed segs segs := ⟨rfl, fun _ _ h => Or.inr h⟩

theorem Freed.trans {segs'' : List Segment} (h : Freed segs segs') (h' : Freed segs' segs'') :
    Freed segs segs'' :=
  ⟨h'.total.trans h.total, fun p at' hat => (h'.attr p at' hat).elim Or.inl (h.attr p at')⟩

/-- Some segments are exchanged for a free one. -/
theorem Freed.exchange (before behind mid : List Segment) (seg' : Segment)
    (hnum : seg'.numPages = numPages mid) (hfree : seg'.flags = 0) :
    Freed (before ++ mid ++ behind) (before ++ seg' :: behind) where
  total := by
    simp only [numPages, span_append, span_cons] at hnum ⊢
    omega
  attr := fun p at' hat => by
    by_cases hp : numPages before ≤ p ∧ p < numPages before + seg'.numPages
    · left
      obtain ⟨i, hi⟩ := getElem?_pages before behind seg' hp.1 hp.2
      obtain rfl := Option.some.inj (hat.symm.trans hi)
      exact hfree
    · right
      have hex := getElem?_exchange (p := p) before behind
        (show numPages [seg'] = numPages mid by simpa [numPages] using hnum) (by omega)
      rw [← hex, ← hat, List.append_assoc, List.singleton_append]

/-- The segment of a thread is made free and joined with a free one in front of it. -/
theorem mergePrev_spec (h : mergePrev { seg with ft := none, flags := 0, creator := none } before =
    (seg', before')) :
    seg'.flags = 0 ∧ seg.numPages ≤ seg'.numPages ∧ (∀ s ∈ before', s ∈ before) ∧
      ∀ rest, Freed (before.reverse ++ seg :: rest) ((seg' :: before').reverse ++ rest) := by
  have hone : ∀ rest, Freed (before.reverse ++ seg :: rest)
      (before.reverse ++ { seg with ft := none, flags := 0, creator := none } :: rest) := by
    intro rest
    simpa using Freed.exchange before.reverse rest [seg]
      { seg with ft := none, flags := 0, creator := none } (by simp [numPages]) rfl
  cases before with
  | nil =>
    obtain ⟨rfl, rfl⟩ := Prod.mk.inj h
    exact ⟨rfl, le_rfl, fun s hs => hs, hone⟩
  | cons prev before =>
    rw [mergePrev] at h
    split_ifs at h with hprev
    · obtain ⟨rfl, rfl⟩ := Prod.mk.inj h
      refine ⟨hprev, Nat.le_add_left _ _, fun s hs => List.mem_cons_of_mem _ hs, fun rest => ?_⟩
      simpa using Freed.exchange before.reverse rest [prev, seg]
        { prev with numPages := prev.numPages + seg.numPages } (by simp [numPages]) hprev
    · obtain ⟨rfl, rfl⟩ := Prod.mk.inj h
      refine ⟨rfl, le_rfl, fun s hs => hs, fun rest => ?_⟩
      simpa using hone rest

/-- A free segment is joined with the one behind it. -/
theorem Freed.mergeNext {next : Segment} {rest : List Segment} (hfree : seg.flags = 0) :
    Freed ((seg :: before).reverse ++ next :: rest)
      (({ seg with numPages := seg.numPages + next.numPages } :: before).reverse ++ rest) := by
  simpa using Freed.exchange before.reverse rest [seg, next]
    { seg with numPages := seg.numPages + next.numPages } (by simp [numPages]) hfree

theorem unmapThreadSegs_spec (hpos : pos % 0x1000 = 0)
    (h : unmapThreadSegs ops ct pos before segs w ptes = some (segs', w', ptes')) :
    (∃ S, ptes' = clear S ptes) ∧ Freed (before.reverse ++ segs) segs' ∧
      ((∀ s ∈ before, 0 < s.numPages) → (∀ s ∈ segs, 0 < s.numPages) →
        ∀ s ∈ segs', 0 < s.numPages) := by
  have hclear : ∀ {S : Set ℕ} {e : ℕ → PTe}, (∃ T, ptes' = clear T (clear S e)) →
      ∃ T, ptes' = clear T e := by
    rintro S e ⟨T, rfl⟩
    exact ⟨S ∪ T, by rw [clear, clear, resetOn_resetOn PTe.not_loaded_zero]⟩
  induction pos, before, segs, w, ptes using unmapThreadSegs.induct ops ct with
  | case1 pos before w ptes =>
    rw [unmapThreadSegs] at h
    obtain ⟨rfl, -, rfl⟩ := by simpa using h
    refine ⟨⟨∅, by rw [clear, resetOn_empty]⟩, by simpa using Freed.refl before.reverse, ?_⟩
    simp
  | case2 pos before seg w ptes hthread =>
    rw [unmapThreadSegs, if_pos hthread] at h
    obtain ⟨⟨w₁, ptes₁⟩, hunmap, he⟩ := Option.map_eq_some_iff.1 h
    rcases hmerge : mergePrev { seg with ft := none, flags := 0, creator := none } before with
      ⟨seg₁, before₁⟩
    obtain ⟨hfree, hnum, hsub, hfreed⟩ := mergePrev_spec hmerge
    simp only [hmerge, Prod.mk.injEq] at he
    obtain ⟨rfl, -, rfl⟩ := he
    refine ⟨⟨_, unmapArea_spec hpos hunmap⟩, by simpa using hfreed [], fun hb hs s hmem => ?_⟩
    have hseg := hs seg (by simp)
    rcases List.mem_cons.1 (List.mem_reverse.1 hmem) with rfl | hmem
    · omega
    · exact hb s (hsub s hmem)
  | case3 pos before seg w ptes hthread =>
    rw [unmapThreadSegs, if_neg hthread] at h
    simp only [Option.some.injEq, Prod.mk.injEq] at h
    obtain ⟨rfl, -, rfl⟩ := h
    refine ⟨⟨∅, by rw [clear, resetOn_empty]⟩, ?_, fun hb hs s hmem => ?_⟩
    · rw [List.reverse_cons]
      exact Freed.refl _
    · rcases List.mem_cons.1 (List.mem_reverse.1 hmem) with rfl | hmem
      · exact hs s (by simp)
      · exact hb s hmem
  | case4 pos before seg next rest w ptes hthread ih₁ ih₂ =>
    rw [unmapThreadSegs, if_pos hthread] at h
    obtain ⟨⟨w₁, ptes₁⟩, hunmap, h⟩ := Option.bind_eq_some_iff.1 h
    rcases hmerge : mergePrev { seg with ft := none, flags := 0, creator := none } before with
      ⟨seg₁, before₁⟩
    obtain ⟨hfree, hnum, hsub, hfreed⟩ := mergePrev_spec hmerge
    simp only [hmerge] at h
    obtain rfl := unmapArea_spec hpos hunmap
    split_ifs at h with hnext
    · obtain ⟨hptes, hrest, hposi⟩ := ih₁ w₁ _ seg₁ before₁ (by omega) h
      refine ⟨hclear hptes, ((hfreed (next :: rest)).trans (Freed.mergeNext hfree)).trans hrest, ?_⟩
      intro hb hs
      simp only [List.forall_mem_cons] at hs
      refine hposi ?_ hs.2.2
      simp only [List.forall_mem_cons]
      exact ⟨by omega, fun s hmem => hb s (hsub s hmem)⟩
    · obtain ⟨hptes, hrest, hposi⟩ := ih₂ w₁ _ seg₁ before₁ (by omega) h
      refine ⟨hclear hptes, (hfreed (next :: rest)).trans hrest, ?_⟩
      intro hb hs
      simp only [List.forall_mem_cons] at hs
      refine hposi ?_ ?_
      · simp only [List.forall_mem_cons]
        exact ⟨by omega, fun s hmem => hb s (hsub s hmem)⟩
      · simp only [List.forall_mem_cons]
        exact hs.2
  | case5 pos before seg next rest w ptes hthread ih =>
    rw [unmapThreadSegs, if_neg hthread] at h
    obtain ⟨hptes, hrest, hposi⟩ := ih (by omega) h
    refine ⟨hptes, by simpa using hrest, fun hb hs => ?_⟩
    simp only [List.forall_mem_cons] at hs
    refine hposi ?_ ?_
    · simp only [List.forall_mem_cons]
      exact ⟨hs.1, hb⟩
    · simp only [List.forall_mem_cons]
      exact hs.2

theorem vmUnmapThread_spec (h : vmUnmapThread ops ct w pm = some (w', pm')) :
    (∃ S, pm'.ptes = clear S pm.ptes) ∧ Freed pm.segs pm'.segs ∧
      ((∀ s ∈ pm.segs, 0 < s.numPages) → ∀ s ∈ pm'.segs, 0 < s.numPages) := by
  rw [vmUnmapThread] at h
  split_ifs at h
  obtain ⟨⟨segs', w₁, ptes'⟩, hloop, he⟩ := Option.map_eq_some_iff.1 h
  simp only [Prod.mk.injEq] at he
  obtain ⟨-, rfl⟩ := he
  obtain ⟨hptes, hfreed, hpos⟩ := unmapThreadSegs_spec (Nat.zero_mod _) hloop
  exact ⟨hptes, hfreed, hpos (by simp)⟩

end Thread

/-! ## Cloning -/

/-- The attributes of a page in the copy of an address space. -/
def PageAttr.clone (a : PageAttr) : PageAttr :=
  if has a.flags MAP_THREAD then
    { a with creator := none, flags := a.flags &&& (0xFFFFFFFF - MAP_THREAD) }
  else a

theorem Segment.clone_numPages (s : Segment) : s.clone.numPages = s.numPages := by
  rw [Segment.clone]
  split_ifs <;> rfl

theorem Segment.clone_page (s : Segment) (i : ℕ) : s.clone.page i = (s.page i).clone := by
  by_cases h : has s.flags MAP_THREAD = true
  · rw [Segment.clone, if_pos h, PageAttr.clone, if_pos (show has (s.page i).flags _ = true from h)]
    rfl
  · rw [Segment.clone, if_neg h, PageAttr.clone, if_neg (show ¬ has (s.page i).flags _ = true from h)]

theorem pages_clone (segs : List Segment) :
    pages (segs.map Segment.clone) = (pages segs).map PageAttr.clone :=
  cells_map Segment.clone_numPages Segment.clone_page segs

theorem vmClone_spec {new : ProcMem} (h : vmClone ops w pm = some (new, w', pm')) :
    new.segs = pm.segs.map Segment.clone ∧ pm'.segs = pm.segs ∧
      new.ptes = (fun p => (pm.ptes p).clone) ∧ pm'.ptes = fun p => (pm.ptes p).clone := by
  rw [vmClone] at h
  split_ifs at h
  simp only [Option.some.injEq, Prod.mk.injEq] at h
  obtain ⟨rfl, -, rfl⟩ := h
  exact ⟨rfl, rfl, rfl, rfl⟩

/-! ## Reachable address spaces -/

section Reachable

variable {s : Machine W} {c : Call} {new : Option ProcMem}

theorem FaultEffect.segs_eq {addr : ℕ} (h : FaultEffect pm addr pm') : pm'.segs = pm.segs := by
  rcases h with rfl | ⟨seg, i, e', -, -, rfl⟩ <;> rfl

theorem runCall_wellFormed (hpm : WellFormed pm.segs)
    (h : runCall ops ct c w pm = some (w', pm', new)) :
    WellFormed pm'.segs ∧ ∀ n ∈ new, WellFormed n.segs := by
  cases c with
  | map a =>
    obtain ⟨⟨r, w₁, pm₁⟩, hcall, he⟩ := Option.map_eq_some_iff.1 h
    simp only [Prod.mk.injEq] at he
    obtain ⟨-, rfl, rfl⟩ := he
    refine ⟨?_, by simp⟩
    rcases vmMap_spec hpm hcall with rfl | ⟨m, -, hmap, -⟩
    · exact hpm
    · exact ⟨hmap.pos, hmap.total.trans hpm.total⟩
  | protect base len prot =>
    obtain ⟨⟨r, w₁, pm₁⟩, hcall, he⟩ := Option.map_eq_some_iff.1 h
    simp only [Prod.mk.injEq] at he
    obtain ⟨-, rfl, rfl⟩ := he
    exact ⟨(vmProtect_spec hcall).1 ▸ hpm, by simp⟩
  | fault addr flags =>
    obtain ⟨⟨r, w₁, pm₁⟩, hcall, he⟩ := Option.map_eq_some_iff.1 h
    simp only [Prod.mk.injEq] at he
    obtain ⟨-, rfl, rfl⟩ := he
    exact ⟨(vmFault_spec hcall).segs_eq ▸ hpm, by simp⟩
  | getPhys addr perms =>
    obtain ⟨⟨r, w₁, pm₁⟩, hcall, he⟩ := Option.map_eq_some_iff.1 h
    simp only [Prod.mk.injEq] at he
    obtain ⟨-, rfl, rfl⟩ := he
    exact ⟨(vmGetPhys_spec hcall).segs_eq ▸ hpm, by simp⟩
  | unmapThread =>
    obtain ⟨⟨w₁, pm₁⟩, hcall, he⟩ := Option.map_eq_some_iff.1 h
    simp only [Prod.mk.injEq] at he
    obtain ⟨-, rfl, rfl⟩ := he
    obtain ⟨-, hfreed, hpos⟩ := vmUnmapThread_spec hcall
    exact ⟨⟨hpos hpm.pos, hfreed.total.trans hpm.total⟩, by simp⟩
  | clone =>
    obtain ⟨⟨new₁, w₁, pm₁⟩, hcall, he⟩ := Option.map_eq_some_iff.1 h
    simp only [Prod.mk.injEq] at he
    obtain ⟨-, rfl, rfl⟩ := he
    obtain ⟨hnew, hsegs, -⟩ := vmClone_spec hcall
    refine ⟨hsegs ▸ hpm, fun n hn => ?_⟩
    obtain rfl := Option.mem_some_iff.1 hn
    rw [hnew]
    refine ⟨?_, ?_⟩
    · simp only [List.forall_mem_map, Segment.clone_numPages]
      exact hpm.pos
    · rw [← length_pages, pages_clone, List.length_map, length_pages, hpm.total]

/-- A call meets a condition on the address space it is made in. -/
def Meets (cond : ProcMem → Call → Prop) (s : Machine W) : Event W → Prop
  | .call i _ c => ∀ pm ∈ s.spaces[i]?, cond pm c
  | .touch _ _ _ => True
  | .world _ => True

/-- What holds of a new address space, and is kept by every call and by the processor, holds of all
address spaces that are reached. -/
theorem spaces_invariant {I : ProcMem → Prop} {cond : ProcMem → Call → Prop}
    (hs : (machine ops).ReachesBy (Meets cond) s)
    (hnew : ∀ junk, I (vmNew junk))
    (hcall : ∀ ct c w w' pm pm' new, I pm → cond pm c →
      runCall ops ct c w { pm with lock := false } = some (w', pm', new) → I pm' ∧ ∀ n ∈ new, I n)
    (htouch : ∀ pm page write, I pm → (pm.ptes page).present = true →
      I { pm with ptes := Function.update pm.ptes page ((pm.ptes page).touch write) }) :
    ∀ pm ∈ s.spaces, I pm := by
  refine hs.invariant (I := fun s => ∀ pm ∈ s.spaces, I pm) ?_ ?_
  · rintro s ⟨junk, hjunk⟩ pm hpm
    rw [hjunk, List.mem_singleton] at hpm
    exact hpm ▸ hnew junk
  · intro s e t ih hc ht pm hpm
    cases e with
    | call i ct c =>
      obtain ⟨pm₀, w, pm', new, hi, hrun, rfl⟩ := ht
      obtain ⟨hI, hInew⟩ := hcall ct c _ w pm₀ pm' new (ih pm₀ (List.mem_of_getElem? hi))
        (hc pm₀ hi) hrun
      rcases List.mem_append.1 hpm with hpm | hpm
      · rcases List.mem_or_eq_of_mem_set hpm with hpm | rfl
        · exact ih pm hpm
        · exact hI
      · exact hInew pm (Option.mem_toList.1 hpm)
    | touch i page write =>
      obtain ⟨pm₀, hi, hpresent, rfl⟩ := ht
      rcases List.mem_or_eq_of_mem_set hpm with hpm | rfl
      · exact ih pm hpm
      · exact htouch pm₀ page write (ih pm₀ (List.mem_of_getElem? hi)) hpresent
    | world w =>
      obtain rfl : t = { s with world := w } := ht
      exact ih pm hpm

theorem reachable_wellFormed (hs : (machine ops).Reachable s) (hpm : pm ∈ s.spaces) :
    WellFormed pm.segs := by
  have hmeets : (machine ops).ReachesBy (Meets fun _ _ => True) s :=
    hs.mono fun s e _ => by cases e <;> simp [Meets]
  refine spaces_invariant (I := fun pm => WellFormed pm.segs) hmeets (fun junk => ?_) ?_ ?_ pm hpm
  · exact ⟨by simp [vmNew], by simp [vmNew, numPages]⟩
  · intro ct c w w' pm pm' new hI _ hrun
    exact runCall_wellFormed (show WellFormed ({ pm with lock := false } : ProcMem).segs from hI)
      hrun
  · exact fun pm page write hI _ => hI

end Reachable

end Glidix.Vm
