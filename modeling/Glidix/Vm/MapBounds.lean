import Glidix.Vm.FixedMapping
import Glidix.Vm.FixedSuccess
import Glidix.Vm.ProtectRegion

/-!
# The bounds of `vmMap`

`vmMap` compares the sum of address and length with the end of the address space, and the sum may wrap around:
then the region ends behind the last segment, and the loop that swallows segments comes to its assertion.  For
a mapped segment that is swallowed as a whole an area of the wrong size is unmapped, which may end behind the
address space as well.  All other calls are safe (`vmMap_safe_iff`).
-/

namespace Glidix.Vm

variable {W : Type} {ops : PhysMem W} {w w' : W} {ptes ptes' : ℕ → PTe} {pm pm' : ProcMem} {a : MapArgs}
  {m : Mapping} {addr n ct pos start : ℕ} {before behind segs : List Segment} {seg : Segment} {s : Machine W}

/-- What `vmMap` is to return, and what it is to leave as it is. -/
def MapsSafely (a : MapArgs) (pm : ProcMem) (result : Option (Except Errno ℕ × W × ProcMem)) : Prop :=
  ∃ r w' pm', result = some (r, w', pm') ∧
    (∀ e, r = .error e → pm'.segs = pm.segs) ∧
      ∀ addr, r = .ok addr → ADDR_MIN ≤ addr ∧ addr + (a.len + 0xFFF) / 0x1000 * 0x1000 ≤ ADDR_MAX

/-- A mapped segment that begins in the region, at a page `b`, and is swallowed as a whole lies so far behind
the beginning that the pages from `b` to `2 b - start` are not all in the address space. -/
def Overruns (segs : List Segment) (start n : ℕ) : Prop :=
  ∃ before s behind, segs = before ++ s :: behind ∧ s.flags ≠ 0 ∧ start < numPages before ∧
    numPages before + s.numPages ≤ start + n ∧ 0x8000000 < 2 * numPages before - start

/-- The call gets to the segments at a given address, which lies in the address space. -/
def ReachesSegments (a : MapArgs) (m : Mapping) : Prop :=
  vmMapCheck a = .ok m ∧ a.isFixed ∧ ¬ (has a.flags MAP_FIXED = true ∧ has a.addr 0xFFF = true) ∧
    a.addr < ADDR_MAX

/-- The end of the region does not wrap around, and nothing is unmapped behind the address space. -/
def MapFits (a : MapArgs) (pm : ProcMem) : Prop :=
  ∀ m, ReachesSegments a m →
    a.addr + a.len < 2 ^ 64 ∧ ¬ Overruns pm.segs (a.addr / 0x1000) m.numPages

/-! ## What does not return -/

section Stuck

/-- The kernel faults when an area ends behind the address space. -/
theorem unmapArea_eq_none (hpos : pos % 0x1000 = 0) (h : ADDR_MAX < pos + n * 0x1000) (hn : 0 < n) (w : W)
    (ptes : ℕ → PTe) : unmapArea ops pos n w ptes = none := by
  induction n generalizing pos w ptes with
  | zero => exact absurd hn (Nat.lt_irrefl 0)
  | succ n ih =>
    rw [unmapArea]
    by_cases hmax : pos ≥ ADDR_MAX
    · rw [unmapPage, if_pos hmax, Option.bind_none]
    · cases hpage : unmapPage ops pos w ptes with
      | none => rw [Option.bind_none]
      | some r =>
        rw [Option.bind_some]
        apply ih
        · omega
        · omega
        · unfold ADDR_MAX at h hmax
          omega

/-- `swallow` does not return if there are too few pages. -/
theorem swallow_eq_none_of_short (hshort : seg.numPages + numPages behind < n) (w : W) (ptes : ℕ → PTe) :
    swallow ops addr n seg behind w ptes = none := by
  induction behind generalizing seg w ptes with
  | nil =>
    rw [numPages, span_nil] at hshort
    rw [swallow, if_pos (by omega)]
  | cons next rest ih =>
    rw [numPages, span_cons] at hshort
    have hfit : next.numPages ≤ n - seg.numPages := by omega
    rw [swallow, if_pos (by omega)]
    simp only [if_pos hfit]
    cases hunmap : unmapOld ops next (addr + seg.numPages * 0x1000) seg.numPages w ptes with
    | none => rw [Option.bind_none]
    | some r =>
      rw [Option.bind_some]
      apply ih
      show seg.numPages + next.numPages + numPages rest < n
      rw [numPages]
      omega

/-- `swallow` does not return if an area to be unmapped ends behind the address space. -/
theorem swallow_eq_none_of_overrun {l r : List Segment} {s : Segment} (haddr : addr % 0x1000 = 0)
    (hsplit : behind = l ++ s :: r) (hflags : s.flags ≠ 0)
    (hfit : seg.numPages + numPages l + s.numPages ≤ n) (hpos : 0 < s.numPages)
    (hover : ADDR_MAX < addr + 2 * (seg.numPages + numPages l) * 0x1000) (hseg : 0 < seg.numPages) (w : W)
    (ptes : ℕ → PTe) : swallow ops addr n seg behind w ptes = none := by
  induction l generalizing seg behind w ptes with
  | nil =>
    rw [hsplit, List.nil_append, swallow, if_pos (by omega)]
    rw [numPages, span_nil, Nat.add_zero] at hfit hover
    simp only [if_pos (show s.numPages ≤ n - seg.numPages by omega)]
    rw [unmapOld, if_pos hflags, unmapArea_eq_none (by omega) (by omega) hseg, Option.bind_none]
  | cons next l ih =>
    rw [numPages, span_cons] at hfit hover
    rw [hsplit, List.cons_append, swallow, if_pos (by omega)]
    simp only [if_pos (show next.numPages ≤ n - seg.numPages by omega)]
    cases hunmap : unmapOld ops next (addr + seg.numPages * 0x1000) seg.numPages w ptes with
    | none => rw [Option.bind_none]
    | some r =>
      rw [Option.bind_some]
      rw [← numPages, ← Nat.add_assoc] at hfit hover
      apply ih rfl
      · exact hfit
      · exact hover
      · exact Nat.add_pos_left hseg _

end Stuck

/-! ## A given address -/

section At

/-- The segment that is left after the cuts: it is long enough, or it is all that there was from the address
on. -/
theorem cutToFit_numPages {before' behind' : List Segment} {seg' : Segment}
    (hp : pos = numPages before * 0x1000) (haddr : addr % 0x1000 = 0) (hle : pos ≤ addr)
    (hlt : addr < pos + seg.numPages * 0x1000)
    (h : cutToFit ops addr n pos before seg behind w = (before', seg', behind', w')) :
    seg'.numPages = n ∧ addr / 0x1000 + n < numPages before + seg.numPages ∨
      addr / 0x1000 + seg'.numPages = numPages before + seg.numPages ∧ behind' = behind := by
  unfold cutToFit at h
  by_cases hcut : pos < addr
  · simp only [if_pos hcut, cutFront] at h
    split_ifs at h with hlong
    · simp only [Prod.mk.injEq] at h
      obtain ⟨-, rfl, -, -⟩ := h
      left
      refine ⟨rfl, ?_⟩
      omega
    · simp only [Prod.mk.injEq] at h
      obtain ⟨-, rfl, rfl, -⟩ := h
      right
      refine ⟨?_, rfl⟩
      show addr / 0x1000 + (seg.numPages - (addr - pos) / 0x1000) = _
      omega
  · simp only [if_neg hcut, cutFront] at h
    split_ifs at h with hlong
    · simp only [Prod.mk.injEq] at h
      obtain ⟨-, rfl, -, -⟩ := h
      left
      refine ⟨rfl, ?_⟩
      omega
    · simp only [Prod.mk.injEq] at h
      obtain ⟨-, rfl, rfl, -⟩ := h
      right
      refine ⟨?_, rfl⟩
      omega

/-- Nothing overruns within the segment at the beginning of the region. -/
theorem not_overruns_within (hpos : ∀ s ∈ segs, 0 < s.numPages) (hsegs : segs = before ++ seg :: behind)
    (hle : numPages before ≤ start) (hn : start + n ≤ numPages before + seg.numPages) :
    ¬ Overruns segs start n := by
  rintro ⟨before', s, behind', he, -, hlt, hfit, -⟩
  have hs := hpos s (by rw [he]; simp)
  rcases append_cons_cases (hsegs.symm.trans he) with ⟨rfl, rfl, rfl⟩ | ⟨mid, rfl, -⟩ | ⟨mid, rfl, -⟩
  · omega
  · rw [numPages, span_append, span_cons] at hfit
    rw [numPages] at hn
    omega
  · rw [numPages, span_append, span_cons] at hle
    rw [numPages] at hlt
    omega

/-- The call returns at a given address in the address space if and only if the region ends there and nothing
overruns, and then it returns the address. -/
theorem vmMapAt_returns_iff (hwf : WellFormed pm.segs) (haddr : addr % 0x1000 = 0) (hn : 0 < m.numPages)
    (hin : addr / 0x1000 < 0x8000000) :
    (∃ w' pm', vmMapAt ops ct addr a m w pm = some (.ok addr, w', pm')) ∧
        addr / 0x1000 + m.numPages ≤ 0x8000000 ∧ ¬ Overruns pm.segs (addr / 0x1000) m.numPages ∨
      vmMapAt ops ct addr a m w pm = none ∧
        (0x8000000 < addr / 0x1000 + m.numPages ∨ Overruns pm.segs (addr / 0x1000) m.numPages) := by
  obtain ⟨⟨before, seg, behind, pos⟩, hfind⟩ : ∃ r, findSeg addr 0 pm.segs = some r :=
    findSeg_isSome (Nat.zero_le _) (by rw [hwf.total]; omega)
  obtain ⟨hsegs, hp, hle, hlt⟩ := findSeg_spec hfind (Nat.zero_le addr)
  rw [Nat.zero_add] at hp
  have htotal : numPages before + (seg.numPages + numPages behind) = 0x8000000 := by
    rw [← hwf.total, hsegs, numPages, numPages, numPages, span_append, span_cons]
  have hmax : ∀ {k}, addr / 0x1000 + k ≤ 0x8000000 → addr + k * 0x1000 ≤ ADDR_MAX := by
    intro k hk
    unfold ADDR_MAX
    omega
  rw [vmMapAt, hfind]
  simp only
  split_ifs with hexact
  · -- the segment is the region
    have hbound : addr / 0x1000 + m.numPages ≤ 0x8000000 := by omega
    obtain ⟨r, hr⟩ : ∃ r, unmapOld ops seg addr m.numPages (ftDown? ops w seg.ft) pm.ptes = some r :=
      unmapOld_isSome (.inr (hmax hbound)) _ _
    left
    refine ⟨?_, hbound, not_overruns_within hwf.pos hsegs (by omega) (by omega)⟩
    rw [hexact.1, hr]
    exact ⟨_, _, rfl⟩
  · rcases hcut : cutToFit ops addr m.numPages pos before seg behind w with
      ⟨before₁, seg₁, behind₁, w₁⟩
    have hpos := hwf.pos
    rw [hsegs] at hpos
    obtain ⟨-, hpos₁, hle₁, -⟩ := cutToFit_spec hpos hn haddr hp hle hlt hcut
    have hseg₁ : 0 < seg₁.numPages := hpos₁ seg₁ (by simp)
    simp only
    -- what is left to do when the segments could be swallowed
    have hdone : addr / 0x1000 + m.numPages ≤ 0x8000000 →
        (∃ r, swallow ops addr m.numPages seg₁ behind₁ w₁ pm.ptes = some r) →
          ∃ w' pm', ((swallow ops addr m.numPages seg₁ behind₁ w₁ pm.ptes).bind
            fun r => (unmapOld ops r.1 addr m.numPages r.2.2.1 r.2.2.2).map fun p =>
              fillSegment ops ct addr a m before₁ r.1 r.2.1 (ftDown? ops p.1 r.1.ft) p.2 pm) =
                some (.ok addr, w', pm') := by
      rintro hbound ⟨⟨seg₂, behind₂, w₂, ptes₂⟩, h₂⟩
      obtain ⟨r, hr⟩ : ∃ r, unmapOld ops seg₂ addr m.numPages w₂ ptes₂ = some r :=
        unmapOld_isSome (.inr (hmax hbound)) _ _
      rw [h₂, Option.bind_some]
      simp only
      rw [hr]
      exact ⟨_, _, rfl⟩
    rcases cutToFit_numPages hp haddr hle hlt hcut with ⟨hlong, hwithin⟩ | ⟨hall, rfl⟩
    · -- the region lies in one segment
      have hbound : addr / 0x1000 + m.numPages ≤ 0x8000000 := by omega
      left
      refine ⟨hdone hbound (swallow_isSome (by omega) (fun l s r hsplit hfit => ?_) _ _), hbound,
        not_overruns_within hwf.pos hsegs (by omega) (by omega)⟩
      have hs : 0 < s.numPages := hpos₁ s (by rw [hsplit]; simp)
      omega
    · have hfront : numPages (before ++ [seg]) = addr / 0x1000 + seg₁.numPages := by
        rw [hall, numPages, span_append, span_cons, span_nil, Nat.add_zero]
      have hnum : ∀ l, numPages (before ++ seg :: l) = addr / 0x1000 + (seg₁.numPages + numPages l) := by
        intro l
        rw [List.append_cons, numPages, span_append, ← Nat.add_assoc, ← hfront]
      by_cases hbound : addr / 0x1000 + m.numPages ≤ 0x8000000
      swap
      · right
        rw [swallow_eq_none_of_short (by omega), Option.bind_none]
        exact ⟨rfl, Or.inl (by omega)⟩
      by_cases hover : Overruns pm.segs (addr / 0x1000) m.numPages
      · right
        obtain ⟨before', s, behind', he, hflags, hbegin, hfit, hbeyond⟩ := id hover
        have hs := hwf.pos s (by rw [he]; simp)
        rcases append_cons_cases (hsegs.symm.trans he) with
          ⟨rfl, rfl, rfl⟩ | ⟨mid, rfl, rfl⟩ | ⟨mid, rfl, rfl⟩
        · omega
        · rw [hnum] at hbegin hfit hbeyond
          rw [swallow_eq_none_of_overrun haddr rfl hflags (by omega) hs (by unfold ADDR_MAX; omega) hseg₁,
            Option.bind_none]
          exact ⟨rfl, Or.inr hover⟩
        · rw [numPages, span_append, span_cons] at hp
          rw [numPages] at hbegin
          omega
      · left
        refine ⟨hdone hbound (swallow_isSome (by omega) (fun l s r hsplit hfit => ?_) _ _), hbound, hover⟩
        by_cases hflags : s.flags = 0
        · exact Or.inl hflags
        · right
          by_contra hmaxed
          apply hover
          refine ⟨before ++ seg :: l, s, r, by rw [hsegs, hsplit]; simp, hflags, ?_, ?_, ?_⟩
          · rw [hnum]
            omega
          · rw [hnum]
            omega
          · rw [hnum]
            unfold ADDR_MAX at hmaxed
            omega

end At

/-- Behind the address space there is no segment. -/
theorem findSeg_eq_none (h : pos + numPages segs * 0x1000 ≤ addr) : findSeg addr pos segs = none := by
  induction segs generalizing pos with
  | nil => rfl
  | cons s segs ih =>
    have hnum : numPages (s :: segs) = s.numPages + numPages segs := by rw [numPages, span_cons]
    have hnone : findSeg addr (pos + s.numPages * 0x1000) segs = none := by
      apply ih
      omega
    have hle : pos + s.numPages * 0x1000 ≤ addr := by
      rw [hnum, Nat.add_mul, ← Nat.add_assoc] at h
      exact (Nat.le_add_right _ _).trans h
    rw [findSeg, if_pos hle, hnone, Option.map_none]

/-! ## An address that is left to the call -/

/-- `vmMapAnywhere` returns a region of the address space. -/
theorem vmMapAnywhere_safe {r : Except Errno ℕ} (hwf : WellFormed pm.segs)
    (h : vmMapAnywhere ops ct a m w pm = (r, w', pm')) :
    (∀ e, r = .error e → pm' = pm) ∧
      ∀ addr, r = .ok addr → ADDR_MIN ≤ addr ∧ addr + m.numPages * 0x1000 ≤ ADDR_MAX := by
  rw [vmMapAnywhere] at h
  split at h
  · obtain ⟨rfl, -, rfl⟩ := h
    exact ⟨fun _ _ => rfl, fun _ he => by cases he⟩
  rename_i before seg behind hfind
  obtain ⟨hsegs, -, hfit⟩ := findFree_spec hfind
  have htotal : numPages before + (seg.numPages + numPages behind) = 0x8000000 := by
    rw [← hwf.total, hsegs, numPages, numPages, numPages, span_append, span_cons]
  simp only at h
  by_cases hsize : seg.numPages = m.numPages
  · rw [if_pos hsize] at h
    split_ifs at h with hmin
    · obtain ⟨rfl, -, rfl⟩ := h
      exact ⟨fun _ _ => rfl, fun _ he => by cases he⟩
    · obtain ⟨rfl, -⟩ := h
      refine ⟨fun _ he => (by cases he), fun addr he => ?_⟩
      obtain rfl := Except.ok.inj he
      exact ⟨Nat.le_of_not_lt hmin, by unfold ADDR_MAX; omega⟩
  · rw [if_neg hsize] at h
    by_cases hmin : 0x8000000000 - (numPages behind + seg.numPages) * 0x1000 +
        (seg.numPages - m.numPages) * 0x1000 < ADDR_MIN
    · rw [if_pos hmin] at h
      obtain ⟨rfl, -, rfl⟩ := h
      exact ⟨fun _ _ => rfl, fun _ he => by cases he⟩
    · rw [if_neg hmin] at h
      obtain ⟨rfl, -⟩ := h
      refine ⟨fun _ he => (by cases he), fun addr he => ?_⟩
      obtain rfl := Except.ok.inj he
      exact ⟨Nat.le_of_not_lt hmin, by unfold ADDR_MAX; omega⟩

/-! ## All calls -/

/-- What the checks say about the bounds of the region. -/
theorem vmMapCheck_bounds (hm : vmMapCheck a = .ok m) (hfixed : a.isFixed) :
    ADDR_MIN ≤ a.addr ∧ (a.addr + a.len) % 2 ^ 64 ≤ ADDR_MAX := by
  rw [vmMapCheck] at hm
  rcases ha : mapAccess a with e | access
  · simp only [ha, Except.bind] at hm
    split_ifs at hm
  · simp only [ha, Except.bind] at hm
    split_ifs at hm with h₁ h₂ h₃ h₄ h₅ h₆ h₇ h₈
    constructor
    · exact Nat.le_of_not_lt fun hlt => h₅ ⟨hfixed, hlt⟩
    · exact Nat.le_of_not_lt fun hlt => h₆ ⟨hfixed, hlt⟩

/-- In every address space that is reached, a call of `vmMap` is safe if and only if its region does not wrap
around and nothing is unmapped behind the address space. -/
theorem vmMap_safe_iff (hs : (machine ops).Reachable s) (hpm : pm ∈ s.spaces) (haddr : a.addr < 2 ^ 64)
    (hlen : a.len < 2 ^ 64) (w : W) :
    MapsSafely a pm (vmMap ops ct a w { pm with lock := false }) ↔ MapFits a pm := by
  have hwf := reachable_wellFormed hs hpm
  by_cases hreach : ∃ m, ReachesSegments a m
  · obtain ⟨m, hm, hfixed, hrounded, hin⟩ := id hreach
    obtain ⟨hpages, hn, -⟩ := vmMapCheck_ok hm
    obtain ⟨hmin, hmax⟩ := vmMapCheck_bounds hm hfixed
    have hany : ¬ (a.addr = 0 ∧ ¬ has a.flags MAP_FIXED = true) := by
      rintro ⟨h₀, h₁⟩
      exact hfixed.elim (fun h => h h₀) h₁
    have hcall : vmMap ops ct a w { pm with lock := false } =
        vmMapAt ops ct (a.addr / 0x1000 * 0x1000) a m w { pm with lock := false } := by
      rw [vmMap, hm]
      simp only [if_neg hany, if_neg hrounded]
      exact if_neg Bool.false_ne_true
    have hfits : MapFits a pm ↔
        a.addr + a.len < 2 ^ 64 ∧ ¬ Overruns pm.segs (a.addr / 0x1000) m.numPages := by
      constructor
      · exact fun h => h m ⟨hm, hfixed, hrounded, hin⟩
      · intro h m' hm'
        obtain rfl := Except.ok.inj (hm.symm.trans hm'.1)
        exact h
    unfold ADDR_MIN at hmin
    unfold ADDR_MAX at hmax hin
    have hpage : a.addr / 0x1000 * 0x1000 / 0x1000 = a.addr / 0x1000 := Nat.mul_div_cancel _ (by decide)
    -- the sum wraps around exactly if the region ends behind the last segment
    have hwrap : a.addr + a.len < 2 ^ 64 ↔ a.addr / 0x1000 + m.numPages ≤ 0x8000000 := by omega
    rw [hfits, hcall, hwrap]
    have hfound : a.addr / 0x1000 * 0x1000 / 0x1000 < 0x8000000 := by omega
    rcases vmMapAt_returns_iff (show WellFormed ({ pm with lock := false } : ProcMem).segs from hwf)
      (Nat.mul_mod_left _ _) hn hfound with ⟨⟨w', pm', hat⟩, hright⟩ | ⟨hat, hwrong⟩
    · rw [hpage] at hright
      refine iff_of_true ⟨_, w', pm', hat, fun _ he => (by cases he), fun addr he => ?_⟩ hright
      obtain rfl := Except.ok.inj he
      unfold ADDR_MIN ADDR_MAX
      omega
    · rw [hpage] at hwrong
      refine iff_of_false ?_ ?_
      · rintro ⟨r, w', pm', hr, -⟩
        rw [hat] at hr
        cases hr
      · rintro ⟨hbound, hover⟩
        exact hwrong.elim (fun h => absurd hbound (Nat.not_le.2 h)) hover
  · refine iff_of_true ?_ fun m hm => absurd ⟨m, hm⟩ hreach
    cases hm : vmMapCheck a with
    | error e =>
      refine ⟨.error e, w, { pm with lock := false }, ?_, fun _ _ => rfl, fun _ he => by cases he⟩
      rw [vmMap, hm]
    | ok m =>
      rw [vmMap, hm]
      simp only [if_neg Bool.false_ne_true]
      split_ifs with hany hrounded
      · -- the call finds a place
        obtain ⟨hpages, hn, -⟩ := vmMapCheck_ok hm
        rcases hcall : vmMapAnywhere ops ct a m w { pm with lock := false } with ⟨r, w', pm'⟩
        obtain ⟨herr, hok⟩ :=
          vmMapAnywhere_safe (show WellFormed ({ pm with lock := false } : ProcMem).segs from hwf) hcall
        refine ⟨r, w', pm', rfl, fun e he => by rw [herr e he], fun addr he => ?_⟩
        have hround : (a.len + 0xFFF) / 0x1000 = m.numPages := by omega
        rw [hround]
        exact hok addr he
      · exact ⟨_, w, { pm with lock := false }, rfl, fun _ _ => rfl, fun _ he => by cases he⟩
      · have hfixed : a.isFixed := by
          by_contra hno
          rw [MapArgs.isFixed, not_or, not_not] at hno
          exact hany hno
        have hbeyond : ADDR_MAX ≤ a.addr := by
          by_contra hlt
          exact hreach ⟨m, hm, hfixed, hrounded, Nat.lt_of_not_le hlt⟩
        unfold ADDR_MAX at hbeyond
        refine ⟨.error .ENOMEM, w, { pm with lock := false }, ?_, fun _ _ => rfl, fun _ he => by cases he⟩
        have htotal := hwf.total
        have hnone : findSeg (a.addr / 0x1000 * 0x1000) 0 pm.segs = none := findSeg_eq_none (by omega)
        simp only [vmMapAt, hnone]

/-! ## Unmapping -/

/-- The arguments with which `sys_munmap` calls `vmMap`. -/
def munmapArgs (addr size : ℕ) : MapArgs :=
  ⟨addr, size, 0, MAP_PRIVATE ||| MAP_FIXED ||| MAP_ANON ||| MAP_UN, none, 0⟩

theorem vmMap_safe_fresh : MapsSafely (munmapArgs 0x200000 0x1000) freshSpace
    (vmMap plentiful 1 (munmapArgs 0x200000 0x1000) () { freshSpace with lock := false }) := by
  apply (vmMap_safe_iff reachable_freshSpace (List.mem_singleton_self _) (by decide) (by decide) ()).2
  intro m _
  refine ⟨by decide, ?_⟩
  rintro ⟨before, s, behind, hsegs, hflags, -⟩
  -- the only segment is free
  have hmem : s ∈ freshSpace.segs := by rw [hsegs]; simp
  exact hflags (congrArg Segment.flags (List.mem_singleton.1 hmem))

/-- Everything from the first page on is to be unmapped, and the assertion fails. -/
theorem vmMap_not_safe : (machine plentiful).Reachable ⟨(), [freshSpace]⟩ ∧
    ¬ MapsSafely (munmapArgs 0x200000 (2 ^ 64 - 0x200000)) freshSpace
      (vmMap plentiful 1 (munmapArgs 0x200000 (2 ^ 64 - 0x200000)) () { freshSpace with lock := false }) := by
  refine ⟨reachable_freshSpace, ?_⟩
  have hnone : vmMap plentiful 1 (munmapArgs 0x200000 (2 ^ 64 - 0x200000)) ()
      { freshSpace with lock := false } = none := by
    apply Option.map_eq_none_iff.1
    show Option.map (fun _ => ()) _ = none
    decide
  rintro ⟨r, w', pm', hr, -⟩
  rw [hnone] at hr
  cases hr

end Glidix.Vm
