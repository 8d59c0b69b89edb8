import Glidix.Vm.CallSpecs

/-!
# Fixed mappings

A mapping at a fixed address is right (`Maps`) exactly when the pages that `vmMap` unmaps are, as far
as they are loaded, those of its region.  The attributes of the pages are always right.  But for a
segment that it swallows as a whole, `vmMap` unmaps as many pages as it has gathered before, and not
as many as the segment has; and it unmaps the rest of the region only if the segment at its beginning
was mapped.
-/

namespace Glidix.Vm

variable {W : Type} {ops : PhysMem W} {w w' : W} {pm pm' : ProcMem} {ct r : ℕ} {a : MapArgs}
  {m : Mapping} {s : Machine W}

/-- The region of the call is mapped as asked for, without a page left from earlier; all other pages
keep their attributes and entries. -/
structure Maps (ct : ℕ) (a : MapArgs) (m : Mapping) (pm pm' : ProcMem) : Prop where
  outside : ∀ p ∉ pageRange (a.addr / 0x1000) m.numPages,
    pm'.attr p = pm.attr p ∧ pm'.ptes p = pm.ptes p
  inside : ∃ ft, (∀ fp ∈ a.fp, ft = fp.ft) ∧
    (a.fp = none → has a.flags MAP_SHARED = false → ft = none) ∧
      ∀ i < m.numPages, ¬ (pm'.ptes (a.addr / 0x1000 + i)).Loaded ∧
        pm'.attr (a.addr / 0x1000 + i) = some
          { ft, offset := (a.off + i * 0x1000) % 2 ^ 64,
            creator := if has a.flags MAP_THREAD then some ct else none,
            flags := a.fixedFlags, prot := m.prot, access := m.access }

/-- Of the loaded pages, those of the region and no others are swept. -/
def SweptRight (pm : ProcMem) (a : MapArgs) (m : Mapping) : Prop :=
  ∀ p, (pm.ptes p).Loaded → (p ∈ Swept pm.segs (a.addr / 0x1000) m.numPages ↔
    p ∈ pageRange (a.addr / 0x1000) m.numPages)

theorem mapTree_file (ops : PhysMem W) (hm : vmMapCheck a = .ok m) (w : W) :
    (∀ fp ∈ a.fp, (mapTree ops a w).1 = fp.ft) ∧
      (a.fp = none → has a.flags MAP_SHARED = false → (mapTree ops a w).1 = none) := by
  obtain ⟨-, -, -, -, hanon⟩ := vmMapCheck_ok hm
  refine ⟨fun fp hfp => ?_, fun hfp hshared => ?_⟩
  · have hno : ¬ (has a.flags MAP_SHARED = true ∧ has a.flags MAP_ANON = true) := fun h => by
      rw [hanon h.2] at hfp
      cases hfp
    rw [mapTree, if_neg hno]
    simp only [Option.mem_def.1 hfp]
  · rw [mapTree, if_neg (by simp [hshared])]
    simp only [hfp]

theorem mem_pageRange {a n p : ℕ} : p ∈ pageRange a n ↔ ∃ i < n, p = a + i := by
  constructor
  · rintro ⟨hle, hlt⟩
    exact ⟨p - a, by omega, by omega⟩
  · rintro ⟨i, hi, rfl⟩
    exact ⟨Nat.le_add_right _ _, by omega⟩

/-- In every address space that is reached, a call of `vmMap` with a fixed address that succeeds maps
the region as it should exactly when the swept pages are right. -/
theorem vmMap_maps_iff (hs : (machine ops).Reachable s) (hpm : pm ∈ s.spaces)
    (hfixed : a.isFixed) (hm : vmMapCheck a = .ok m)
    (h : vmMap ops ct a w { pm with lock := false } = some (.ok r, w', pm')) :
    Maps ct a m pm pm' ↔ SweptRight pm a m := by
  have hwf := reachable_wellFormed hs hpm
  obtain ⟨-, hn, -⟩ := vmMapCheck_ok hm
  obtain ⟨-, -, hptes, w₀, hrep⟩ := vmMapAt_spec
    (show ∀ s ∈ ({ pm with lock := false } : ProcMem).segs, 0 < s.numPages from hwf.pos)
    (Nat.mul_mod_left _ _) hn (vmMap_fixed_eq hm hfixed h)
  rw [Nat.mul_div_cancel _ (by decide)] at hptes hrep
  simp only at hptes hrep
  constructor
  · intro hmaps p hp
    by_cases hregion : p ∈ pageRange (a.addr / 0x1000) m.numPages
    · refine iff_of_true ?_ hregion
      by_contra hno
      obtain ⟨ft, -, -, hinside⟩ := hmaps.inside
      obtain ⟨i, hi, rfl⟩ := mem_pageRange.1 hregion
      have hunloaded := (hinside i hi).1
      rw [hptes, clear, resetOn_of_not fun h => hno h.1] at hunloaded
      exact hunloaded hp
    · refine iff_of_false (fun hswept => ?_) hregion
      have hsame := (hmaps.outside p hregion).2
      rw [hptes, clear, resetOn_of_mem hswept hp] at hsame
      exact PTe.not_loaded_zero (hsame ▸ hp)
  · intro hright
    refine ⟨fun p hp => ⟨hrep.getElem?_of_notMem hp, ?_⟩, ?_⟩
    · rw [hptes, clear, resetOn_of_not]
      exact fun h => hp ((hright p h.2).1 h.1)
    · obtain ⟨hfile, hanon⟩ := mapTree_file ops hm w₀
      refine ⟨_, hfile, hanon, fun i hi => ⟨fun hl => ?_, hrep.getElem?_of_mem hi⟩⟩
      rw [hptes] at hl
      by_cases hloaded : (pm.ptes (a.addr / 0x1000 + i)).Loaded
      · have hswept := (hright _ hloaded).2 (mem_pageRange.2 ⟨i, hi, rfl⟩)
        rw [clear, resetOn_of_mem hswept hloaded] at hl
        exact PTe.not_loaded_zero hl
      · rw [clear, resetOn_of_not fun h => hloaded h.2] at hl
        exact hloaded hl

/-! ## Some runs -/

/-- A physical memory that has a frame whenever one is needed. -/
def plentiful : PhysMem Unit where
  piNew _ := (1, ())
  piIncref _ _ := ()
  piDecref _ _ := ()
  piMarkAccessed _ _ := ()
  piMarkDirty _ _ := ()
  piNeedsCopyOnWrite _ _ := false
  frameWrite _ _ _ := ()
  ftUp _ _ := ()
  ftDown _ _ := ()
  ftCreate _ := (1, ())
  ftGetPage _ _ _ := (1, ())

/-- Map private anonymous memory at an address. -/
def mapAnon (addr len : ℕ) : MapArgs :=
  ⟨addr, len, PROT_READ ||| PROT_WRITE, MAP_PRIVATE ||| MAP_ANON ||| MAP_FIXED, none, 0⟩

def freshSpace : ProcMem := vmNew ⟨0, none, 0, none, 0, 0, 0⟩

/-- Calls of one thread in one address space, one after the other. -/
def runCalls (ops : PhysMem W) (ct : ℕ) : List Call → W → ProcMem → Option (W × ProcMem)
  | [], w, pm => some (w, pm)
  | c :: cs, w, pm =>
    match runCall ops ct c w { pm with lock := false } with
    | some (w, pm, none) => runCalls ops ct cs w pm
    | _ => none

theorem runCalls_cons {c : Call} {cs : List Call}
    (h : runCalls ops ct (c :: cs) w pm = some (w', pm')) :
    ∃ w₁ pm₁, runCall ops ct c w { pm with lock := false } = some (w₁, pm₁, none) ∧
      runCalls ops ct cs w₁ pm₁ = some (w', pm') := by
  rw [runCalls] at h
  split at h
  · rename_i w₁ pm₁ hcall
    exact ⟨w₁, pm₁, hcall, h⟩
  · cases h

theorem reachesBy_runCall {cond : Machine W → Event W → Prop} {c : Call}
    (hs : (machine ops).ReachesBy cond ⟨w, [pm]⟩) (hc : cond ⟨w, [pm]⟩ (.call 0 ct c))
    (h : runCall ops ct c w { pm with lock := false } = some (w', pm', none)) :
    (machine ops).ReachesBy cond ⟨w', [pm']⟩ :=
  .step hs hc ⟨pm, w', pm', none, rfl, h, by simp⟩

theorem reachable_runCalls {cs : List Call} (hs : (machine ops).Reachable ⟨w, [pm]⟩)
    (h : runCalls ops ct cs w pm = some (w', pm')) : (machine ops).Reachable ⟨w', [pm']⟩ := by
  induction cs generalizing w pm with
  | nil =>
    obtain ⟨rfl, rfl⟩ := Prod.mk.inj (Option.some.inj h)
    exact hs
  | cons c cs ih =>
    obtain ⟨w₁, pm₁, hcall, hrest⟩ := runCalls_cons h
    exact ih (reachesBy_runCall hs trivial hcall) hrest

theorem reachable_freshSpace : (machine plentiful).Reachable ⟨(), [freshSpace]⟩ :=
  .init ⟨⟨0, none, 0, none, 0, 0, 0⟩, rfl⟩

/-- The address space after some calls on a new one. -/
def spaceAfter (cs : List Call) (h : (runCalls plentiful 1 cs () freshSpace).isSome = true) :
    ProcMem := ((runCalls plentiful 1 cs () freshSpace).get h).2

theorem reachable_spaceAfter {cs : List Call}
    (h : (runCalls plentiful 1 cs () freshSpace).isSome = true) :
    (machine plentiful).Reachable ⟨(), [spaceAfter cs h]⟩ :=
  reachable_runCalls reachable_freshSpace (Option.some_get h).symm

theorem exists_of_fst {α : Type} {o : Option (α × W × ProcMem)} {x : α}
    (h : o.map Prod.fst = some x) : ∃ w' pm', o = some (x, w', pm') := by
  obtain ⟨⟨_, w', pm'⟩, rfl, rfl⟩ := Option.map_eq_some_iff.1 h
  exact ⟨w', pm', rfl⟩

/-- A page is mapped and loaded. -/
def loadedPage : ProcMem :=
  spaceAfter [.map (mapAnon 0x200000 0x1000), .fault 0x200000 0] (by decide)

/-- It is mapped again. -/
theorem vmMap_maps_iff_again : (loadedPage.ptes 0x200).Loaded ∧
    ∃ w' pm', vmMap plentiful 1 (mapAnon 0x200000 0x1000) () { loadedPage with lock := false } =
        some (.ok 0x200000, w', pm') ∧
      (Maps 1 (mapAnon 0x200000 0x1000) ⟨1, 3, 3⟩ loadedPage pm' ↔
        SweptRight loadedPage (mapAnon 0x200000 0x1000) ⟨1, 3, 3⟩) := by
  obtain ⟨w', pm', h⟩ := exists_of_fst (x := .ok 0x200000)
    (o := vmMap plentiful 1 (mapAnon 0x200000 0x1000) () { loadedPage with lock := false })
    (by decide)
  exact ⟨by decide, w', pm', h, vmMap_maps_iff (reachable_spaceAfter _)
    (List.mem_singleton_self _) (by decide) (by decide) h⟩

/-- Two pages are mapped, with one between them that is not, and the second is loaded. -/
def twoPages : ProcMem :=
  spaceAfter [.map (mapAnon 0x203000 0x1000), .map (mapAnon 0x205000 0x1000), .fault 0x205000 0]
    (by decide)

/-- A mapping of the four pages up to the first one takes away the second one as well. -/
theorem vmMap_not_maps : (machine plentiful).Reachable ⟨(), [twoPages]⟩ ∧
    vmMapCheck (mapAnon 0x200000 0x4000) = .ok ⟨4, 3, 3⟩ ∧
      ∃ w' pm', vmMap plentiful 1 (mapAnon 0x200000 0x4000) () { twoPages with lock := false } =
          some (.ok 0x200000, w', pm') ∧
        ¬ Maps 1 (mapAnon 0x200000 0x4000) ⟨4, 3, 3⟩ twoPages pm' := by
  have hlost : (vmMap plentiful 1 (mapAnon 0x200000 0x4000) () { twoPages with lock := false }).map
      (fun x => (x.2.2.ptes 0x205).gx_loaded) = some false := by decide
  obtain ⟨w', pm', h⟩ := exists_of_fst (x := .ok 0x200000)
    (o := vmMap plentiful 1 (mapAnon 0x200000 0x4000) () { twoPages with lock := false })
    (by decide)
  refine ⟨reachable_spaceAfter _, by decide, w', pm', h, fun hmaps => ?_⟩
  have hsame := (hmaps.outside 0x205 fun hp => absurd hp.2 (by decide)).2
  rw [h, Option.map_some, Option.some.injEq, hsame] at hlost
  exact absurd hlost (by decide)

end Glidix.Vm
