import Glidix.Vm.FixedMapping
import Glidix.Vm.FixedSuccess

/-!
# Unmapping what belongs to a thread

`vmUnmapThread` makes the segments of the calling thread free and joins each with the free ones next
to it.  After a segment was joined with the one in front of it, the running address is ahead by the
length of the latter, and the area of the next segment of the thread is missed.  So the call is right for
every page table exactly when the joined segment is the last one of the thread (`vmUnmapThread_right_iff`).
-/

namespace Glidix.Vm

variable {W : Type} {ops : PhysMem W} {w w' : W} {ptes ptes' : ℕ → PTe} {pm pm' : ProcMem} {ct pos : ℕ}
  {segs segs' before before' : List Segment} {seg seg' : Segment}

/-! ## Segments and pages of a thread -/

/-- The segment was mapped for the thread only. -/
abbrev Segment.OfThread (ct : ℕ) (s : Segment) : Prop :=
  has s.flags MAP_THREAD = true ∧ s.creator = some ct

/-- The page was mapped for the thread only. -/
abbrev PageAttr.OfThread (ct : ℕ) (a : PageAttr) : Prop :=
  has a.flags MAP_THREAD = true ∧ a.creator = some ct

/-- The pages of the thread. -/
def ProcMem.threadPages (pm : ProcMem) (ct : ℕ) : Set ℕ := {p | ∃ a, pm.attr p = some a ∧ a.OfThread ct}

/-- What `vmUnmapThread` is to do: the loaded entries of the pages of the thread are cleared and these
pages become free, and all others are as before. -/
structure ThreadUnmapped (ct : ℕ) (pm pm' : ProcMem) : Prop where
  entries : pm'.ptes = clear (pm.threadPages ct) pm.ptes
  pages : ∀ p a, pm.attr p = some a → ∃ a', pm'.attr p = some a' ∧
    (a.OfThread ct → a'.flags = 0) ∧ (¬ a.OfThread ct → a' = a ∨ a.flags = 0 ∧ a'.flags = 0)
  total : numPages pm'.segs = 0x8000000

/-- The segment is free when the walk has passed it. -/
def Segment.Vacant (ct : ℕ) (s : Segment) : Prop := s.flags = 0 ∨ s.OfThread ct

instance (s : Segment) : Decidable (s.Vacant ct) := inferInstanceAs (Decidable (_ ∨ _))

/-- Behind a segment of the thread that follows on a free one, or on another one of the thread, there is
none of the thread. -/
def JoinsLast (ct : ℕ) (segs : List Segment) : Prop :=
  ∀ x p s y, segs = x ++ p :: s :: y → s.OfThread ct → p.Vacant ct → ∀ t ∈ y, ¬ t.OfThread ct

theorem JoinsLast.tail (h : JoinsLast ct (seg :: segs)) : JoinsLast ct segs :=
  fun x p s y he => h (seg :: x) p s y (congrArg (seg :: ·) he)

theorem not_ofThread_of_free (h : seg.flags = 0) : ¬ seg.OfThread ct := by
  rintro ⟨hthread, -⟩
  rw [h] at hthread
  exact absurd hthread (by decide)

/-! ## The pages -/

section Pages

/-- Pages of the thread have become free, and the others are as before. -/
def FreedFor (ct : ℕ) (segs segs' : List Segment) : Prop :=
  ∀ (p : ℕ) (a a' : PageAttr), (pages segs)[p]? = some a → (pages segs')[p]? = some a' →
    a' = a ∨ (a.flags = 0 ∨ a.OfThread ct) ∧ a'.flags = 0

theorem FreedFor.refl (segs : List Segment) : FreedFor ct segs segs := by
  intro p a a' ha ha'
  exact Or.inl (Option.some.inj (ha'.symm.trans ha))

theorem FreedFor.trans {segs'' : List Segment} (h : FreedFor ct segs segs') (h' : FreedFor ct segs' segs'')
    (htotal : numPages segs' = numPages segs) : FreedFor ct segs segs'' := by
  intro p a a'' ha ha''
  obtain ⟨a', ha'⟩ : ∃ a', (pages segs')[p]? = some a' := by
    have hlt : p < (pages segs').length := by
      rw [length_pages, htotal, ← length_pages]
      exact (List.getElem?_eq_some_iff.1 ha).1
    exact ⟨_, List.getElem?_eq_getElem hlt⟩
  rcases h' p a' a'' ha' ha'' with rfl | ⟨hvacant, hfree⟩
  · exact h p a a'' ha ha'
  · refine Or.inr ⟨?_, hfree⟩
    rcases h p a a' ha ha' with rfl | ⟨hvacant', -⟩
    · exact hvacant
    · exact hvacant'

/-- Vacant segments are exchanged for a free one. -/
theorem FreedFor.exchange (before behind mid : List Segment) (seg' : Segment)
    (hnum : seg'.numPages = numPages mid) (hfree : seg'.flags = 0) (hmid : ∀ s ∈ mid, s.Vacant ct) :
    FreedFor ct (before ++ mid ++ behind) (before ++ seg' :: behind) := by
  intro p a a' ha ha'
  by_cases hp : numPages before ≤ p ∧ p < numPages before + seg'.numPages
  · obtain ⟨i, hi⟩ := getElem?_pages before behind seg' hp.1 hp.2
    obtain rfl := Option.some.inj (ha'.symm.trans hi)
    refine Or.inr ⟨?_, hfree⟩
    rw [List.append_assoc, pages_append, List.getElem?_append_right (by rw [length_pages]; exact hp.1),
      pages_append, List.getElem?_append_left (by rw [length_pages, length_pages]; omega)] at ha
    obtain ⟨s, hs, hcell⟩ := List.mem_flatMap.1 (List.mem_of_getElem? ha)
    obtain ⟨j, -, rfl⟩ := List.mem_map.1 hcell
    exact hmid s hs
  · left
    have hex := getElem?_exchange (p := p) before behind
      (show numPages [seg'] = numPages mid by simpa [numPages] using hnum) (by omega)
    rw [List.append_cons, hex] at ha'
    exact Option.some.inj (ha'.symm.trans ha)

theorem mergePrev_freedFor (h : mergePrev { seg with ft := none, flags := 0, creator := none } before =
    (seg', before')) (hseg : seg.OfThread ct) (rest : List Segment) :
    FreedFor ct (before.reverse ++ seg :: rest) ((seg' :: before').reverse ++ rest) := by
  have hone : FreedFor ct (before.reverse ++ seg :: rest)
      (before.reverse ++ { seg with ft := none, flags := 0, creator := none } :: rest) := by
    simpa using FreedFor.exchange before.reverse rest [seg]
      { seg with ft := none, flags := 0, creator := none } (by simp [numPages]) rfl
      (List.forall_mem_singleton.2 (Or.inr hseg))
  cases before with
  | nil =>
    obtain ⟨rfl, rfl⟩ := Prod.mk.inj h
    exact hone
  | cons prev before =>
    rw [mergePrev] at h
    split_ifs at h with hprev
    · obtain ⟨rfl, rfl⟩ := Prod.mk.inj h
      simpa using FreedFor.exchange before.reverse rest [prev, seg]
        { prev with numPages := prev.numPages + seg.numPages } (by simp [numPages]) hprev
        (List.forall_mem_cons.2 ⟨Or.inl hprev, List.forall_mem_singleton.2 (Or.inr hseg)⟩)
    · obtain ⟨rfl, rfl⟩ := Prod.mk.inj h
      simpa using hone

/-- How long the list is that is left when a segment was joined with the one in front, and how long the joined
one. -/
theorem mergePrev_numPages (h : mergePrev { seg with ft := none, flags := 0, creator := none } before =
    (seg', before')) :
    numPages (seg' :: before') = numPages before + seg.numPages ∧
      ((∃ b rest, before = b :: rest ∧ b.flags = 0 ∧ seg'.numPages = b.numPages + seg.numPages) ∨
        (∀ b ∈ before.head?, b.flags ≠ 0) ∧ seg'.numPages = seg.numPages) := by
  cases before with
  | nil =>
    obtain ⟨rfl, rfl⟩ := Prod.mk.inj h
    exact ⟨Nat.add_comm _ _, Or.inr ⟨by simp, rfl⟩⟩
  | cons prev before =>
    rw [mergePrev] at h
    split_ifs at h with hprev
    · obtain ⟨rfl, rfl⟩ := Prod.mk.inj h
      refine ⟨?_, Or.inl ⟨prev, before, rfl, hprev, rfl⟩⟩
      simp only [numPages, span_cons]
      omega
    · obtain ⟨rfl, rfl⟩ := Prod.mk.inj h
      refine ⟨?_, Or.inr ⟨?_, rfl⟩⟩
      · simp only [numPages, span_cons]
        omega
      · intro b hb
        obtain rfl := Option.some.inj hb
        exact hprev

/-- The walk frees pages of the thread only, and leaves no segment of the thread. -/
theorem unmapThreadSegs_freedFor
    (h : unmapThreadSegs ops ct pos before segs w ptes = some (segs', w', ptes')) :
    FreedFor ct (before.reverse ++ segs) segs' ∧ numPages segs' = numPages before + numPages segs ∧
      ((∀ s ∈ before, ¬ s.OfThread ct) → ∀ s ∈ segs', ¬ s.OfThread ct) := by
  induction pos, before, segs, w, ptes using unmapThreadSegs.induct ops ct with
  | case1 pos before w ptes =>
    rw [unmapThreadSegs] at h
    obtain ⟨rfl, -, rfl⟩ := by simpa using h
    refine ⟨by simpa using FreedFor.refl before.reverse, ?_, by simp⟩
    simp [numPages, span]
  | case2 pos before seg w ptes hthread =>
    rw [unmapThreadSegs, if_pos hthread] at h
    obtain ⟨⟨w₁, ptes₁⟩, hunmap, he⟩ := Option.map_eq_some_iff.1 h
    rcases hmerge : mergePrev { seg with ft := none, flags := 0, creator := none } before with
      ⟨seg₁, before₁⟩
    simp only [hmerge, Prod.mk.injEq] at he
    obtain ⟨rfl, -, rfl⟩ := he
    obtain ⟨hfree, -, hsub, -⟩ := mergePrev_spec hmerge
    refine ⟨by simpa using mergePrev_freedFor hmerge hthread [], ?_, fun hb s hmem => ?_⟩
    · have hnum := (mergePrev_numPages hmerge).1
      simp only [numPages, span, List.map_reverse, List.sum_reverse] at hnum ⊢
      simpa using hnum
    · rcases List.mem_cons.1 (List.mem_reverse.1 hmem) with rfl | hmem
      · exact not_ofThread_of_free hfree
      · exact hb s (hsub s hmem)
  | case3 pos before seg w ptes hthread =>
    rw [unmapThreadSegs, if_neg hthread] at h
    simp only [Option.some.injEq, Prod.mk.injEq] at h
    obtain ⟨rfl, -, rfl⟩ := h
    refine ⟨?_, ?_, fun hb s hmem => ?_⟩
    · rw [List.reverse_cons]
      exact FreedFor.refl _
    · simp only [numPages, span, List.map_reverse, List.sum_reverse]
      simp [Nat.add_comm]
    · rcases List.mem_cons.1 (List.mem_reverse.1 hmem) with rfl | hmem
      · exact hthread
      · exact hb s hmem
  | case4 pos before seg next rest w ptes hthread ih₁ ih₂ =>
    rw [unmapThreadSegs, if_pos hthread] at h
    obtain ⟨⟨w₁, ptes₁⟩, hunmap, h⟩ := Option.bind_eq_some_iff.1 h
    rcases hmerge : mergePrev { seg with ft := none, flags := 0, creator := none } before with
      ⟨seg₁, before₁⟩
    obtain ⟨hfree, -, hsub, hfreed⟩ := mergePrev_spec hmerge
    have hnum := (mergePrev_numPages hmerge).1
    have hone := mergePrev_freedFor hmerge hthread (next :: rest)
    have htotal := (hfreed (next :: rest)).total
    simp only [hmerge] at h
    split_ifs at h with hnext
    · obtain ⟨hrest, hsum, hnone⟩ := ih₁ w₁ _ seg₁ before₁ h
      have hjoin : FreedFor ct ((seg₁ :: before₁).reverse ++ next :: rest)
          (({ seg₁ with numPages := seg₁.numPages + next.numPages } :: before₁).reverse ++ rest) := by
        simpa using FreedFor.exchange before₁.reverse rest [seg₁, next]
          { seg₁ with numPages := seg₁.numPages + next.numPages } (by simp [numPages]) hfree
          (List.forall_mem_cons.2 ⟨Or.inl hfree, List.forall_mem_singleton.2 (Or.inl hnext)⟩)
      refine ⟨(hone.trans hjoin htotal).trans hrest ?_, ?_, fun hb => hnone ?_⟩
      · exact ((hfreed (next :: rest)).trans (Freed.mergeNext hfree)).total
      · simp only [numPages, span_cons] at hnum hsum ⊢
        omega
      · simp only [List.forall_mem_cons]
        exact ⟨not_ofThread_of_free hfree, fun s hmem => hb s (hsub s hmem)⟩
    · obtain ⟨hrest, hsum, hnone⟩ := ih₂ w₁ _ seg₁ before₁ h
      refine ⟨hone.trans hrest htotal, ?_, fun hb => hnone ?_⟩
      · simp only [numPages, span_cons] at hnum hsum ⊢
        omega
      · simp only [List.forall_mem_cons]
        exact ⟨not_ofThread_of_free hfree, fun s hmem => hb s (hsub s hmem)⟩
  | case5 pos before seg next rest w ptes hthread ih =>
    rw [unmapThreadSegs, if_neg hthread] at h
    obtain ⟨hrest, hsum, hnone⟩ := ih h
    refine ⟨by simpa using hrest, ?_, fun hb => hnone ?_⟩
    · simp only [numPages, span_cons] at hsum ⊢
      omega
    · simp only [List.forall_mem_cons]
      exact ⟨hthread, hb⟩

end Pages

/-! ## The entries -/

section Entries

/-- The pages of the thread in a list of segments that begins at `start`. -/
def ThreadArea (ct start : ℕ) (segs : List Segment) : Set ℕ :=
  {p | ∃ l s r, segs = l ++ s :: r ∧ s.OfThread ct ∧ p ∈ pageRange (start + numPages l) s.numPages}

theorem threadArea_eq_empty {start : ℕ} (h : ∀ s ∈ segs, ¬ s.OfThread ct) :
    ThreadArea ct start segs = ∅ := by
  refine Set.eq_empty_iff_forall_notMem.2 ?_
  rintro p ⟨l, s, r, rfl, hs, -⟩
  exact h s (by simp) hs

theorem threadArea_cons {start : ℕ} :
    ThreadArea ct start (seg :: segs) = (if seg.OfThread ct then pageRange start seg.numPages else ∅) ∪
      ThreadArea ct (start + seg.numPages) segs := by
  ext p
  constructor
  · rintro ⟨l, s, r, he, hs, hp⟩
    cases l with
    | nil =>
      obtain ⟨rfl, rfl⟩ := List.cons.inj he
      left
      rw [if_pos hs]
      exact hp
    | cons t l =>
      obtain ⟨rfl, rfl⟩ := List.cons.inj he
      right
      rw [add_numPages_cons] at hp
      exact ⟨l, s, r, rfl, hs, hp⟩
  · rintro (hp | ⟨l, s, r, rfl, hs, hp⟩)
    · split_ifs at hp with hs
      · exact ⟨[], seg, segs, rfl, hs, hp⟩
      · cases hp
    · refine ⟨seg :: l, s, r, rfl, hs, ?_⟩
      rw [add_numPages_cons]
      exact hp

theorem clear_clear (S T : Set ℕ) (ptes : ℕ → PTe) : clear T (clear S ptes) = clear (S ∪ T) ptes :=
  resetOn_resetOn PTe.not_loaded_zero

/-- Where nothing is left of the thread, the walk changes nothing. -/
theorem unmapThreadSegs_none (h : ∀ s ∈ segs, ¬ s.OfThread ct) :
    unmapThreadSegs ops ct pos before segs w ptes = some (before.reverse ++ segs, w, ptes) := by
  induction segs generalizing pos before with
  | nil => simp [unmapThreadSegs]
  | cons seg segs ih =>
    simp only [List.forall_mem_cons] at h
    cases segs with
    | nil =>
      rw [unmapThreadSegs, if_neg h.1]
      simp
    | cons next rest =>
      rw [unmapThreadSegs, if_neg h.1, ih h.2]
      simp

/-- The walk comes to its end with the right entries cleared, when the running address is right and is
not needed after a segment was joined with the one in front.  `prev` stands for the segment that was in front. -/
theorem unmapThreadSegs_right (prev : Segment) (hpos : pos = numPages before * 0x1000)
    (hbound : numPages before + numPages segs ≤ 0x8000000) (hjoins : JoinsLast ct (prev :: segs))
    (hprev : ∀ b ∈ before.head?, b.flags = 0 → prev.Vacant ct) (w : W) (ptes : ℕ → PTe) :
    ∃ segs' w', unmapThreadSegs ops ct pos before segs w ptes =
      some (segs', w', clear (ThreadArea ct (numPages before) segs) ptes) := by
  induction pos, before, segs, w, ptes using unmapThreadSegs.induct ops ct generalizing prev with
  | case1 pos before w ptes =>
    rw [unmapThreadSegs, threadArea_eq_empty (by simp), clear, resetOn_empty]
    exact ⟨_, _, rfl⟩
  | case2 pos before seg w ptes hthread =>
    have hlast : pos + seg.numPages * 0x1000 ≤ ADDR_MAX := by
      simp only [numPages, span_cons, span_nil] at hpos hbound
      unfold ADDR_MAX
      omega
    obtain ⟨⟨w₁, ptes₁⟩, hunmap⟩ := unmapArea_isSome hlast w ptes
    have hptes := unmapArea_spec (by omega) hunmap
    rw [hpos, Nat.mul_div_cancel _ (by decide)] at hptes
    rw [unmapThreadSegs, if_pos hthread, hunmap, threadArea_cons, if_pos hthread,
      threadArea_eq_empty (by simp), Set.union_empty, ← hptes]
    exact ⟨_, _, rfl⟩
  | case3 pos before seg w ptes hthread =>
    rw [unmapThreadSegs, if_neg hthread, threadArea_eq_empty (List.forall_mem_singleton.2 hthread), clear,
      resetOn_empty]
    exact ⟨_, _, rfl⟩
  | case4 pos before seg next rest w ptes hthread ih₁ ih₂ =>
    have hlast : pos + seg.numPages * 0x1000 ≤ ADDR_MAX := by
      simp only [numPages, span_cons] at hpos hbound
      unfold ADDR_MAX
      omega
    obtain ⟨⟨w₁, ptes₁⟩, hunmap⟩ := unmapArea_isSome hlast w ptes
    have hptes := unmapArea_spec (by omega) hunmap
    rw [hpos, Nat.mul_div_cancel _ (by decide)] at hptes
    rcases hmerge : mergePrev { seg with ft := none, flags := 0, creator := none } before with
      ⟨seg₁, before₁⟩
    obtain ⟨hfree, -⟩ := mergePrev_spec hmerge
    obtain ⟨hnum, hlen⟩ := mergePrev_numPages hmerge
    rw [unmapThreadSegs, if_pos hthread, hunmap, threadArea_cons, if_pos hthread, ← clear_clear, ← hptes]
    simp only [Option.bind_some, hmerge]
    rcases hlen with ⟨b, front, rfl, hb, -⟩ | ⟨-, hlen⟩
    · -- joined with the one in front: no other segment of the thread is behind
      have hnone := hjoins [] prev seg (next :: rest) rfl hthread (hprev b rfl hb)
      rw [threadArea_eq_empty hnone, clear, resetOn_empty]
      simp only [List.forall_mem_cons] at hnone
      split_ifs
      · rw [unmapThreadSegs_none hnone.2]
        exact ⟨_, _, rfl⟩
      · rw [unmapThreadSegs_none (List.forall_mem_cons.2 hnone)]
        exact ⟨_, _, rfl⟩
    · have hnext := hjoins.tail
      split_ifs with hfreeNext
      · have hnum₂ : numPages ({ seg₁ with numPages := seg₁.numPages + next.numPages } :: before₁) =
            numPages before + seg.numPages + next.numPages := by
          simp only [numPages, span_cons] at hnum ⊢
          omega
        rw [threadArea_cons, if_neg (not_ofThread_of_free hfreeNext), Set.empty_union, ← hnum₂]
        refine ih₁ w₁ ptes₁ seg₁ before₁ next ?_ ?_ hnext.tail fun _ _ _ => Or.inl hfreeNext
        · show pos + (seg₁.numPages + next.numPages) * 0x1000 = _
          rw [hnum₂, hpos, hlen]
          omega
        · simp only [numPages, span_cons] at hnum₂ hbound ⊢
          omega
      · rw [← hnum]
        refine ih₂ w₁ ptes₁ seg₁ before₁ seg ?_ ?_ hnext fun _ _ _ => Or.inr hthread
        · rw [hnum, hpos, hlen]
          omega
        · simp only [numPages, span_cons] at hnum hbound ⊢
          omega
  | case5 pos before seg next rest w ptes hthread ih =>
    rw [unmapThreadSegs, if_neg hthread, threadArea_cons, if_neg hthread, Set.empty_union]
    have hnum : numPages (seg :: before) = numPages before + seg.numPages := by
      simp only [numPages, span_cons]
      omega
    rw [← hnum]
    refine ih seg ?_ ?_ hjoins.tail fun b hb hflags => ?_
    · rw [hnum, hpos]
      omega
    · simp only [numPages, span_cons] at hnum hbound ⊢
      omega
    · obtain rfl := Option.some.inj hb
      exact Or.inl hflags

/-- A segment of the thread among `segs` is joined with the one in front of it; `prev` is in front of all. -/
def Joined (ct : ℕ) (prev : Segment) (segs : List Segment) : Prop :=
  ∃ x p s y, prev :: segs = x ++ p :: s :: y ∧ s.OfThread ct ∧ p.Vacant ct

theorem not_joined_nil {prev : Segment} : ¬ Joined ct prev [] := by
  rintro ⟨x, p, s, y, he, -⟩
  have hlen := congrArg List.length he
  simp only [List.length_cons, List.length_nil, List.length_append] at hlen
  omega

theorem Joined.cases {prev : Segment} (h : Joined ct prev (seg :: segs)) :
    seg.OfThread ct ∧ prev.Vacant ct ∨ Joined ct seg segs := by
  obtain ⟨x, p, s, y, he, hs, hp⟩ := h
  cases x with
  | nil =>
    simp only [List.nil_append, List.cons.injEq] at he
    exact Or.inl ⟨he.2.1 ▸ hs, he.1 ▸ hp⟩
  | cons z x => exact Or.inr ⟨x, p, s, y, (List.cons.inj he).2, hs, hp⟩

/-- The area behind one that begins too late has an entry that is cleared, and that is not in the right one. -/
theorem unmapArea_ahead {start lead n : ℕ} (hpos : pos = (start + lead) * 0x1000) (hlead : 0 < lead)
    (hn : 0 < n) (h : unmapArea ops pos n w ptes = some (w', ptes')) :
    ∃ q, start + n ≤ q ∧ ¬ (ptes' q).Loaded := by
  have hptes := unmapArea_spec (by omega) h
  rw [hpos, Nat.mul_div_cancel _ (by decide)] at hptes
  refine ⟨start + lead + n - 1, by omega, fun hl => ?_⟩
  have hmem : start + lead + n - 1 ∈ pageRange (start + lead) n := ⟨by omega, by omega⟩
  by_cases hloaded : (ptes (start + lead + n - 1)).Loaded
  · rw [hptes, clear, resetOn_of_mem hmem hloaded] at hl
    exact PTe.not_loaded_zero hl
  · rw [hptes, clear, resetOn_of_not fun h => hloaded h.2] at hl
    exact hloaded hl

/-- When the running address is ahead at the last segment of the thread, an entry behind that segment is
cleared. -/
theorem unmapThreadSegs_ahead {lead : ℕ} {t : Segment} {u v : List Segment} (prev : Segment)
    (hpos : pos = (numPages before + lead) * 0x1000) (hsegs : segs = u ++ t :: v) (ht : t.OfThread ct)
    (hv : ∀ s ∈ v, ¬ s.OfThread ct) (hsize : ∀ s ∈ segs, 0 < s.numPages)
    (hjoin : 0 < lead ∨ Joined ct prev u)
    (hprev : prev.Vacant ct → ∃ b front, before = b :: front ∧ b.flags = 0 ∧ 0 < b.numPages)
    (h : unmapThreadSegs ops ct pos before segs w ptes = some (segs', w', ptes')) :
    ∃ q, numPages before + numPages u + t.numPages ≤ q ∧ ¬ (ptes' q).Loaded := by
  induction pos, before, segs, w, ptes using unmapThreadSegs.induct ops ct generalizing lead prev u with
  | case1 pos before w ptes => simp at hsegs
  | case2 pos before seg w ptes hthread =>
    obtain ⟨rfl, rfl, rfl⟩ : u = [] ∧ seg = t ∧ v = [] := by
      cases u with
      | nil => simpa using hsegs
      | cons a u => simp at hsegs
    rw [unmapThreadSegs, if_pos hthread] at h
    obtain ⟨⟨w₁, ptes₁⟩, hunmap, he⟩ := Option.map_eq_some_iff.1 h
    simp only [Prod.mk.injEq] at he
    rw [← he.2.2]
    exact unmapArea_ahead hpos (hjoin.resolve_right not_joined_nil) (hsize seg (by simp)) hunmap
  | case3 pos before seg w ptes hthread =>
    obtain ⟨rfl, rfl, rfl⟩ : u = [] ∧ seg = t ∧ v = [] := by
      cases u with
      | nil => simpa using hsegs
      | cons a u => simp at hsegs
    exact absurd ht hthread
  | case4 pos before seg next rest w ptes hthread ih₁ ih₂ =>
    rw [unmapThreadSegs, if_pos hthread] at h
    obtain ⟨⟨w₁, ptes₁⟩, hunmap, h⟩ := Option.bind_eq_some_iff.1 h
    rcases hmerge : mergePrev { seg with ft := none, flags := 0, creator := none } before with
      ⟨seg₁, before₁⟩
    obtain ⟨hfree, hge, -⟩ := mergePrev_spec hmerge
    obtain ⟨hnum, hlen⟩ := mergePrev_numPages hmerge
    simp only [hmerge] at h
    simp only [List.forall_mem_cons] at hsize
    cases u with
    | nil =>
      obtain ⟨rfl, rfl⟩ := List.cons.inj hsegs
      have hptes : ptes₁ = ptes' := by
        simp only [List.forall_mem_cons] at hv
        split_ifs at h
        · rw [unmapThreadSegs_none hv.2] at h
          exact (Prod.mk.inj (Prod.mk.inj (Option.some.inj h)).2).2
        · rw [unmapThreadSegs_none (List.forall_mem_cons.2 hv)] at h
          exact (Prod.mk.inj (Prod.mk.inj (Option.some.inj h)).2).2
      rw [← hptes]
      exact unmapArea_ahead hpos (hjoin.resolve_right not_joined_nil) hsize.1 hunmap
    | cons a u =>
      obtain ⟨rfl, hrest⟩ := List.cons.inj hsegs
      -- the lead grows when the segment is joined with the one in front
      have hlead : 0 < lead + (seg₁.numPages - seg.numPages) ∨ Joined ct seg u := by
        rcases hjoin with hlead | hjoin
        · exact Or.inl (by omega)
        · refine hjoin.cases.imp_left fun hhere => ?_
          obtain ⟨b, front, rfl, hb, hbpos⟩ := hprev hhere.2
          rcases hlen with ⟨b', front', he, -, hlen⟩ | ⟨hhead, -⟩
          · obtain ⟨rfl, -⟩ := List.cons.inj he
            omega
          · exact absurd hb (hhead b rfl)
      split_ifs at h with hnext
      · cases u with
        | nil =>
          obtain ⟨rfl, -⟩ := List.cons.inj hrest
          exact absurd ht (not_ofThread_of_free hnext)
        | cons c u =>
          obtain ⟨rfl, rfl⟩ := List.cons.inj hrest
          have hnum₂ : numPages ({ seg₁ with numPages := seg₁.numPages + next.numPages } :: before₁) =
              numPages before + seg.numPages + next.numPages := by
            simp only [numPages, span_cons] at hnum ⊢
            omega
          have hpos₂ : pos + (seg₁.numPages + next.numPages) * 0x1000 =
              (numPages ({ seg₁ with numPages := seg₁.numPages + next.numPages } :: before₁) +
                (lead + (seg₁.numPages - seg.numPages))) * 0x1000 := by
            rw [hnum₂, hpos]
            omega
          obtain ⟨q, hq, hunloaded⟩ := ih₁ w₁ ptes₁ seg₁ before₁ next hpos₂ rfl hsize.2.2
            (hlead.imp_right fun hj => hj.cases.resolve_left fun h => not_ofThread_of_free hnext h.1)
            (fun _ => ⟨_, _, rfl, hfree, Nat.lt_of_lt_of_le hsize.2.1 (Nat.le_add_left _ _)⟩) h
          refine ⟨q, ?_, hunloaded⟩
          rw [hnum₂] at hq
          simp only [numPages, span_cons] at hq ⊢
          omega
      · have hpos₁ : pos + seg₁.numPages * 0x1000 =
            (numPages (seg₁ :: before₁) + (lead + (seg₁.numPages - seg.numPages))) * 0x1000 := by
          rw [hnum, hpos]
          omega
        obtain ⟨q, hq, hunloaded⟩ := ih₂ w₁ ptes₁ seg₁ before₁ seg hpos₁ hrest
          (List.forall_mem_cons.2 hsize.2) hlead
          (fun _ => ⟨_, _, rfl, hfree, Nat.lt_of_lt_of_le hsize.1 hge⟩) h
        refine ⟨q, ?_, hunloaded⟩
        rw [hnum] at hq
        simp only [numPages, span_cons] at hq ⊢
        omega
  | case5 pos before seg next rest w ptes hthread ih =>
    rw [unmapThreadSegs, if_neg hthread] at h
    simp only [List.forall_mem_cons] at hsize
    cases u with
    | nil =>
      obtain ⟨rfl, -⟩ := List.cons.inj hsegs
      exact absurd ht hthread
    | cons a u =>
      obtain ⟨rfl, hrest⟩ := List.cons.inj hsegs
      have hnum : numPages (seg :: before) = numPages before + seg.numPages := by
        simp only [numPages, span_cons]
        omega
      have hpos₁ : pos + seg.numPages * 0x1000 = (numPages (seg :: before) + lead) * 0x1000 := by
        rw [hnum, hpos]
        omega
      obtain ⟨q, hq, hunloaded⟩ := ih seg hpos₁ hrest
        (List.forall_mem_cons.2 hsize.2)
        (hjoin.imp_right fun hj => hj.cases.resolve_left fun h => hthread h.1)
        (fun hvac => ⟨seg, before, rfl, hvac.resolve_right hthread, hsize.1⟩) h
      refine ⟨q, ?_, hunloaded⟩
      rw [hnum] at hq
      simp only [numPages, span_cons] at hq ⊢
      omega

theorem mem_threadArea {start p : ℕ} : p ∈ ThreadArea ct start segs ↔
    start ≤ p ∧ ∃ a, (pages segs)[p - start]? = some a ∧ a.OfThread ct := by
  induction segs generalizing start with
  | nil =>
    rw [threadArea_eq_empty (by simp)]
    simp [pages]
  | cons seg segs ih =>
    have hlen := length_pageCells seg
    rw [threadArea_cons, Set.mem_union, ih, pages_cons]
    by_cases hlt : p - start < seg.numPages
    · rw [List.getElem?_append_left (by rw [hlen]; exact hlt), getElem?_pieceCells hlt]
      constructor
      · rintro (hp | ⟨hle, -⟩)
        · split_ifs at hp with hs
          · exact ⟨hp.1, _, rfl, hs⟩
          · cases hp
        · omega
      · rintro ⟨hle, a, ha, hthread⟩
        obtain rfl := Option.some.inj ha
        left
        rw [if_pos (show seg.OfThread ct from hthread)]
        exact ⟨hle, by omega⟩
    · rw [List.getElem?_append_right (by rw [hlen]; omega), hlen, Nat.sub_sub]
      constructor
      · rintro (hp | ⟨hle, ha⟩)
        · split_ifs at hp
          · exact absurd hp.2 (by have := hp.1; omega)
          · cases hp
        · exact ⟨by omega, ha⟩
      · rintro ⟨hle, a, ha, hthread⟩
        refine Or.inr ⟨?_, a, ha, hthread⟩
        omega

theorem threadPages_eq (pm : ProcMem) (ct : ℕ) : pm.threadPages ct = ThreadArea ct 0 pm.segs := by
  ext p
  rw [mem_threadArea]
  simp [ProcMem.threadPages, ProcMem.attr]

/-- The last element with a property. -/
theorem exists_last {α : Type*} {P : α → Prop} {l : List α} (h : ∃ a ∈ l, P a) :
    ∃ l₁ a l₂, l = l₁ ++ a :: l₂ ∧ P a ∧ ∀ b ∈ l₂, ¬ P b := by
  induction l with
  | nil =>
    obtain ⟨a, ha, -⟩ := h
    exact absurd ha List.not_mem_nil
  | cons c l ih =>
    by_cases hl : ∃ a ∈ l, P a
    · obtain ⟨l₁, a, l₂, rfl, ha, hnone⟩ := ih hl
      exact ⟨c :: l₁, a, l₂, rfl, ha, hnone⟩
    · obtain ⟨a, ha, hP⟩ := h
      obtain rfl | ha := List.mem_cons.1 ha
      · exact ⟨[], a, l, rfl, hP, fun b hb hPb => hl ⟨b, hb, hPb⟩⟩
      · exact absurd ⟨a, ha, hP⟩ hl

end Entries

/-! ## The call -/

/-- A segment that is neither free nor of a thread, to stand in front of a list. -/
def otherSegment : Segment := ⟨1, none, 0, none, MAP_PRIVATE, 0, 0⟩

theorem otherSegment_not_vacant : ¬ otherSegment.Vacant ct := by
  rintro (h | ⟨h, -⟩)
  · exact absurd h (by decide)
  · exact absurd h (by decide)

theorem JoinsLast.cons_other (h : JoinsLast ct segs) : JoinsLast ct (otherSegment :: segs) := by
  intro x p s y he hs hp
  cases x with
  | nil => exact absurd ((List.cons.inj he).1 ▸ hp) otherSegment_not_vacant
  | cons z x => exact h x p s y (List.cons.inj he).2 hs hp

/-- The walk does what it is to do, if it clears the right entries. -/
theorem threadUnmapped_of_entries (pm : ProcMem) (hwf : WellFormed pm.segs)
    (h : unmapThreadSegs ops ct 0 [] pm.segs w pm.ptes = some (segs', w', ptes'))
    (hptes : ptes' = clear (pm.threadPages ct) pm.ptes) (lock : Bool) :
    ThreadUnmapped ct pm ⟨lock, segs', ptes'⟩ := by
  obtain ⟨hfreed, htotal, hnone⟩ := unmapThreadSegs_freedFor h
  replace hnone := hnone (by simp)
  simp only [List.reverse_nil, List.nil_append] at hfreed
  have htotal' : numPages segs' = 0x8000000 := by
    rw [htotal, ← hwf.total]
    exact Nat.zero_add _
  refine ⟨hptes, fun p a ha => ?_, htotal'⟩
  obtain ⟨a', ha'⟩ : ∃ a', (pages segs')[p]? = some a' := by
    have hlt : p < (pages segs').length := by
      rw [length_pages, htotal', ← hwf.total, ← length_pages]
      exact (List.getElem?_eq_some_iff.1 ha).1
    exact ⟨_, List.getElem?_eq_getElem hlt⟩
  refine ⟨a', ha', fun hthread => ?_, fun hother => ?_⟩
  · rcases hfreed p a a' ha ha' with rfl | ⟨-, hfree⟩
    · obtain ⟨s, hs, hcell⟩ := List.mem_flatMap.1 (List.mem_of_getElem? ha')
      obtain ⟨i, -, rfl⟩ := List.mem_map.1 hcell
      exact absurd hthread (hnone s hs)
    · exact hfree
  · exact (hfreed p a a' ha ha').imp_right fun hboth => ⟨hboth.1.resolve_right hother, hboth.2⟩

/-- The entry of a page that is loaded. -/
def loadedEntry : PTe := { PTe.zero with gx_loaded := true }

/-- `vmUnmapThread` is right for every page table if and only if behind a segment of the thread that is
joined with the one in front there is no other one of the thread. -/
theorem vmUnmapThread_right_iff (ops : PhysMem W) (w : W) (ct : ℕ) (segs : List Segment)
    (hwf : WellFormed segs) :
    (∀ ptes, ∃ w' pm', vmUnmapThread ops ct w ⟨false, segs, ptes⟩ = some (w', pm') ∧
      ThreadUnmapped ct ⟨false, segs, ptes⟩ pm') ↔ JoinsLast ct segs := by
  constructor
  · intro hright x p s y he hs hp
    by_contra hmore
    obtain ⟨y₁, t, v, rfl, ht, hv⟩ : ∃ y₁ t v, y = y₁ ++ t :: v ∧ t.OfThread ct ∧
        ∀ b ∈ v, ¬ b.OfThread ct := exists_last (by simpa using hmore)
    obtain ⟨w', pm', hcall, hdone⟩ := hright fun _ => loadedEntry
    rw [vmUnmapThread, if_neg (by simp)] at hcall
    obtain ⟨⟨segs', w₁, ptes'⟩, hloop, hpm⟩ := Option.map_eq_some_iff.1 hcall
    obtain rfl := (Prod.mk.inj hpm).2
    have hsplit : segs = (x ++ p :: s :: y₁) ++ t :: v := by simp [he]
    obtain ⟨q, hq, hunloaded⟩ := unmapThreadSegs_ahead otherSegment
      (show 0 = (numPages [] + 0) * 0x1000 from rfl)
      hsplit ht hv hwf.pos (Or.inr ⟨otherSegment :: x, p, s, y₁, rfl, hs, hp⟩)
      (fun h => absurd h otherSegment_not_vacant) hloop
    -- every entry was loaded, so that this one must have been one of the thread
    have hentries : ptes' = clear (ProcMem.threadPages ⟨false, segs, fun _ => loadedEntry⟩ ct)
        fun _ => loadedEntry := hdone.entries
    by_cases hmem : q ∈ ProcMem.threadPages ⟨false, segs, fun _ => loadedEntry⟩ ct
    · obtain ⟨a, ha, hthread⟩ := hmem
      have hbehind : numPages (x ++ p :: s :: y₁ ++ [t]) ≤ q := by
        simp only [numPages, span_append, span_cons, span_nil] at hq ⊢
        omega
      rw [ProcMem.attr, hsplit, List.append_cons, pages_append,
        List.getElem?_append_right (by rw [length_pages]; exact hbehind)] at ha
      obtain ⟨b, hb, hcell⟩ := List.mem_flatMap.1 (List.mem_of_getElem? ha)
      obtain ⟨i, -, rfl⟩ := List.mem_map.1 hcell
      exact hv b hb hthread
    · apply hunloaded
      rw [hentries, clear, resetOn_of_not fun h => hmem h.1]
      rfl
  · intro hjoins ptes
    obtain ⟨segs', w', hloop⟩ : ∃ segs' w', unmapThreadSegs ops ct 0 [] segs w ptes =
        some (segs', w', clear (ThreadArea ct (numPages []) segs) ptes) :=
      unmapThreadSegs_right otherSegment (show 0 = numPages [] * 0x1000 from rfl)
        (by rw [hwf.total]; exact Nat.le_refl _) hjoins.cons_other (fun b hb => by cases hb) w ptes
    refine ⟨w', ⟨false, segs', _⟩, ?_,
      threadUnmapped_of_entries ⟨false, segs, ptes⟩ hwf hloop ?_ false⟩
    · rw [vmUnmapThread, if_neg (by simp), hloop]
      rfl
    · rw [threadPages_eq]
      rfl

/-- A page that is mapped for thread 1 behind free pages, at the end of the address space. -/
def threadAtEnd : List Segment :=
  [⟨0x7FFFFFF, none, 0, none, 0, 0, 0⟩,
    ⟨1, none, 0, some 1, MAP_PRIVATE ||| MAP_ANON ||| MAP_THREAD, 3, 3⟩]

theorem wellFormed_threadAtEnd : WellFormed threadAtEnd := ⟨by decide, by decide⟩

theorem joinsLast_threadAtEnd : JoinsLast 1 threadAtEnd := by
  intro x p s y he
  have hlen := congrArg List.length he
  simp only [threadAtEnd, List.length_cons, List.length_nil, List.length_append] at hlen
  obtain rfl : y = [] := List.length_eq_zero_iff.1 (by omega)
  intro _ _ t ht
  exact absurd ht List.not_mem_nil

theorem vmUnmapThread_right_threadAtEnd : JoinsLast 1 threadAtEnd ∧
    ∀ ptes, ∃ w' pm', vmUnmapThread plentiful 1 () ⟨false, threadAtEnd, ptes⟩ = some (w', pm') ∧
      ThreadUnmapped 1 ⟨false, threadAtEnd, ptes⟩ pm' :=
  ⟨joinsLast_threadAtEnd,
    (vmUnmapThread_right_iff plentiful () 1 threadAtEnd wellFormed_threadAtEnd).2 joinsLast_threadAtEnd⟩

/-- Map a page of private memory anywhere for the calling thread only. -/
def mapThread : MapArgs :=
  ⟨0, 0x1000, PROT_READ ||| PROT_WRITE, MAP_PRIVATE ||| MAP_ANON ||| MAP_THREAD, none, 0⟩

/-- A thread has mapped two pages. -/
def twoThreadPages : ProcMem := spaceAfter [.map mapThread, .map mapThread] (by decide)

/-- When it exits, the walk runs off the end of the address space. -/
theorem vmUnmapThread_runs_off : (machine plentiful).Reachable ⟨(), [twoThreadPages]⟩ ∧
    ¬ ∃ w' pm', vmUnmapThread plentiful 1 () { twoThreadPages with lock := false } = some (w', pm') ∧
      ThreadUnmapped 1 twoThreadPages pm' := by
  refine ⟨reachable_spaceAfter _, ?_⟩
  rintro ⟨w', pm', hcall, -⟩
  have hnone : (vmUnmapThread plentiful 1 () { twoThreadPages with lock := false }).isNone = true := by
    decide
  rw [hcall] at hnone
  cases hnone

end Glidix.Vm
