import Glidix.Vm.FixedMapping

/-!
# Shared mappings of files that are not open for writing

Such a mapping is never writable as long as no entry that an earlier mapping left in its pages is.
`vmMap` does not clear the entries of pages that are not loaded, although `vmFault` and `vmProtect` may
have set the write permission there; and it leaves loaded pages behind (`SweptRight`).
-/

namespace Glidix.Vm

variable {W : Type} {ops : PhysMem W} {w w' : W} {pm pm' : ProcMem} {ct : ℕ} {s : Machine W}

/-- A page of a `MAP_SHARED` segment whose access lacks `O_WRONLY`. -/
def PageAttr.ReadOnlyShared (a : PageAttr) : Prop :=
  has a.flags MAP_SHARED = true ∧ has a.access O_WRONLY = false

/-- No such page may be written. -/
def WriteProtected (pm : ProcMem) : Prop :=
  ∀ p at', pm.attr p = some at' → at'.ReadOnlyShared →
    (pm.ptes p).gx_w = false ∧ (pm.ptes p).rw = false

/-- An entry that neither permits to write nor will: not a private page, which may be copied. -/
structure PTe.Clean (e : PTe) : Prop where
  gx_w : e.gx_w = false
  rw : e.rw = false
  shared : e.gx_loaded = true → e.gx_shared = true ∧ e.gx_cow = false

/-- A `vmMap` call that maps a file shared, without write access, leaves only clean entries in the
pages it is to map. -/
def LeavesClean (pm : ProcMem) : Call → Prop
  | .map a => ∀ m, vmMapCheck a = .ok m → has a.flags MAP_SHARED = true →
      has m.access O_WRONLY = false → ∀ p ∈ mapRegion pm.segs a m,
        p ∈ mapCleared pm.segs a m ∧ (pm.ptes p).Loaded ∨ (pm.ptes p).Clean
  | _ => True

/-! ## Entries -/

section Entries

variable {e e' : PTe} {seg : Segment} {prot : ℕ} {S : Set ℕ} {ptes : ℕ → PTe} {p : ℕ}

theorem PTe.clean_zero : PTe.zero.Clean := ⟨rfl, rfl, fun h => absurd h Bool.false_ne_true⟩

theorem PTe.Clean.clear (h : (ptes p).Clean) : (clear S ptes p).Clean := by
  by_cases hp : p ∈ S ∧ (ptes p).Loaded
  · rw [Vm.clear, resetOn_of_mem hp.1 hp.2]
    exact PTe.clean_zero
  · rwa [Vm.clear, resetOn_of_not hp]

theorem PTe.Clean.setPerm (h : e.Clean) (hprot : has seg.prot PROT_WRITE = false) :
    (e.setPerm seg).Clean := by
  rw [PTe.setPerm]
  split_ifs
  · exact h
  · exact ⟨by rw [h.gx_w, hprot]; rfl, h.rw, h.shared⟩

theorem PTe.Clean.load (h : e.Clean) (hshared : has seg.flags MAP_SHARED = true)
    (hprivate : has seg.flags MAP_PRIVATE = false) (frame : ℕ) : (e.load seg frame).Clean where
  gx_w := h.gx_w
  rw := by simp [PTe.load, hprivate, h.gx_w, h.rw]
  shared := fun _ => ⟨hshared, hprivate⟩

theorem PTe.Clean.protect (h : e.Clean) (hprot : has prot PROT_WRITE = false) :
    (e.protect prot).Clean where
  gx_w := hprot
  rw := by simp [PTe.protect, h.rw]
  shared := h.shared

theorem PTe.Clean.clone (h : e.Clean) : e.clone.Clean := by
  rw [PTe.clone, if_neg]
  · exact h
  · rintro ⟨hl, hs⟩
    exact hs (h.shared hl).1

theorem PTe.Clean.handled (h : e.Clean) (hprot : has seg.prot PROT_WRITE = false)
    (hshared : has seg.flags MAP_SHARED = true) (hprivate : has seg.flags MAP_PRIVATE = false)
    (he : Handled seg e e') : e'.Clean := by
  have hresolved : ∀ e₁, Resolved seg e e₁ → e₁.Clean := by
    rintro e₁ ⟨-, rfl | ⟨frame, rfl⟩⟩
    · exact h.setPerm hprot
    · exact (h.setPerm hprot).load hshared hprivate frame
  rcases he with rfl | he | ⟨e₁, frame, he, hcow, rfl⟩
  · exact h.setPerm hprot
  · exact hresolved e' he
  · -- a page that is shared is not to be copied
    rw [((hresolved e₁ he).shared he.1).2] at hcow
    cases hcow

end Entries

/-! ## Flags -/

theorem has_and_of_and {x : ℕ} (mask bit : ℕ) (h : mask &&& bit = bit) :
    has (x &&& mask) bit = has x bit := by
  rw [has, has, Nat.land_assoc, h]

/-- The type of a mapping is shared or private, not both. -/
theorem mappingType_shared {flags : ℕ} (h : has flags MAP_SHARED = true)
    (htype : flags &&& 3 = MAP_PRIVATE ∨ flags &&& 3 = MAP_SHARED) :
    flags &&& 3 = MAP_SHARED ∧ has flags MAP_PRIVATE = false := by
  have hshared := has_and_of_and (x := flags) 3 MAP_SHARED rfl
  have hprivate := has_and_of_and (x := flags) 3 MAP_PRIVATE rfl
  rcases htype with ht | ht
  · rw [ht, h] at hshared
    exact absurd hshared (by decide)
  · rw [ht] at hprivate
    exact ⟨ht, by rw [← hprivate]; decide⟩

theorem PageAttr.readOnlyShared_clone {a : PageAttr} (h : a.clone.ReadOnlyShared) :
    a.ReadOnlyShared ∧ a.clone.prot = a.prot ∧
      has a.clone.flags MAP_PRIVATE = has a.flags MAP_PRIVATE := by
  rw [PageAttr.clone] at h ⊢
  split_ifs at h ⊢
  · refine ⟨⟨?_, h.2⟩, rfl, has_and_of_and _ _ (by decide)⟩
    rw [← h.1]
    exact (has_and_of_and _ _ (by decide)).symm
  · exact ⟨h, rfl, rfl⟩

/-! ## The invariant -/

/-- The pages of shared mappings without write access are not to be written and have clean entries. -/
structure Guarded (pm : ProcMem) : Prop where
  wellFormed : WellFormed pm.segs
  prot : ∀ p at', pm.attr p = some at' → at'.ReadOnlyShared →
    has at'.prot PROT_WRITE = false ∧ has at'.flags MAP_PRIVATE = false
  clean : ∀ p at', pm.attr p = some at' → at'.ReadOnlyShared → (pm.ptes p).Clean

theorem PageAttr.not_readOnlyShared_of_free {a : PageAttr} (h : a.flags = 0) :
    ¬ a.ReadOnlyShared := by
  rintro ⟨hs, -⟩
  rw [h] at hs
  exact absurd hs (by decide)

theorem Guarded.map {a : MapArgs} {r : Except Errno ℕ} (hpm : Guarded pm)
    (hcond : LeavesClean pm (.map a)) (h : vmMap ops ct a w pm = some (r, w', pm')) :
    Guarded pm' := by
  rcases vmMap_spec hpm.wellFormed h with rfl | ⟨m, hm, hmap, hptes, -⟩
  · exact hpm
  obtain ⟨-, -, htype, hwrite, -⟩ := vmMapCheck_ok hm
  refine ⟨⟨hmap.pos, hmap.total.trans hpm.wellFormed.total⟩, fun p at' hat hro => ?_,
    fun p at' hat hro => ?_⟩
  · rcases hmap.attr p at' hat with ⟨hp, hflags, hprot, haccess⟩ | hfree | hold
    · obtain ⟨hs, hprivate⟩ := mappingType_shared (hflags ▸ hro.1) htype
      refine ⟨?_, hflags ▸ hprivate⟩
      rw [hprot]
      by_contra hw
      have := hwrite hs (by simpa using hw)
      rw [← haccess, hro.2] at this
      cases this
    · exact absurd hro (PageAttr.not_readOnlyShared_of_free hfree)
    · exact hpm.prot p at' hold hro
  · rw [hptes]
    rcases hmap.attr p at' hat with ⟨hp, hflags, hprot, haccess⟩ | hfree | hold
    · rcases hcond m hm (hflags ▸ hro.1) (haccess ▸ hro.2) p hp with ⟨hcleared, hl⟩ | hclean
      · rw [Vm.clear, resetOn_of_mem hcleared hl]
        exact PTe.clean_zero
      · exact hclean.clear
    · exact absurd hro (PageAttr.not_readOnlyShared_of_free hfree)
    · exact (hpm.clean p at' hold hro).clear

theorem Guarded.faultEffect {addr : ℕ} (hpm : Guarded pm) (h : FaultEffect pm addr pm') :
    Guarded pm' := by
  rcases h with rfl | ⟨seg, i, e', hattr, hhandled, rfl⟩
  · exact hpm
  refine ⟨hpm.wellFormed, hpm.prot, fun p at' hat hro => ?_⟩
  by_cases hp : p = addr / 0x1000
  · subst hp
    obtain rfl := Option.some.inj (hat.symm.trans hattr)
    obtain ⟨hprot, hprivate⟩ := hpm.prot _ _ hattr hro
    simp only [ProcMem.setPte, Function.update_self]
    exact (hpm.clean _ _ hattr hro).handled hprot hro.1 hprivate hhandled
  · simp only [ProcMem.setPte, Function.update_of_ne hp]
    exact hpm.clean p at' hat hro

theorem Guarded.protect {base len prot : ℕ} {r : Except Errno Unit} (hpm : Guarded pm)
    (h : vmProtect base len prot w pm = some (r, w', pm')) : Guarded pm' := by
  obtain ⟨hsegs, hptes⟩ := vmProtect_spec h
  have hattr : ∀ p, pm'.attr p = pm.attr p := fun p => by rw [ProcMem.attr, ProcMem.attr, hsegs]
  refine ⟨hsegs ▸ hpm.wellFormed, fun p at' hat => hpm.prot p at' (hattr p ▸ hat),
    fun p at' hat hro => ?_⟩
  rw [hattr] at hat
  rcases hptes p with he | ⟨⟨at'', hat', -, hdenied⟩, he⟩
  · rw [he]
    exact hpm.clean p at' hat hro
  · obtain rfl := Option.some.inj (hat.symm.trans hat')
    rw [he]
    refine (hpm.clean p at' hat hro).protect ?_
    by_contra hw
    exact hdenied ⟨by simpa using hw, hro.1, by rw [hro.2]; decide⟩

theorem Guarded.unmapThread (hpm : Guarded pm)
    (h : vmUnmapThread ops ct w pm = some (w', pm')) : Guarded pm' := by
  obtain ⟨⟨S, hptes⟩, hfreed, hpos⟩ := vmUnmapThread_spec h
  refine ⟨⟨hpos hpm.wellFormed.pos, hfreed.total.trans hpm.wellFormed.total⟩,
    fun p at' hat hro => ?_, fun p at' hat hro => ?_⟩
  · rcases hfreed.attr p at' hat with hfree | hold
    · exact absurd hro (PageAttr.not_readOnlyShared_of_free hfree)
    · exact hpm.prot p at' hold hro
  · rcases hfreed.attr p at' hat with hfree | hold
    · exact absurd hro (PageAttr.not_readOnlyShared_of_free hfree)
    · rw [hptes]
      exact (hpm.clean p at' hold hro).clear

theorem Guarded.clone {new : ProcMem} (hpm : Guarded pm)
    (h : vmClone ops w pm = some (new, w', pm')) : Guarded pm' ∧ Guarded new := by
  have hrun : runCall ops 0 .clone w pm = some (w', pm', some new) := by
    rw [runCall, h]
    rfl
  have hwf := runCall_wellFormed hpm.wellFormed hrun
  obtain ⟨hnew, hsegs, hnewPtes, hptes⟩ := vmClone_spec h
  have hattr : ∀ p, pm'.attr p = pm.attr p := fun p => by rw [ProcMem.attr, ProcMem.attr, hsegs]
  have hattrNew : ∀ p at', new.attr p = some at' → ∃ a, pm.attr p = some a ∧ at' = a.clone := by
    intro p at' hat
    rw [ProcMem.attr, hnew, pages_clone, List.getElem?_map] at hat
    obtain ⟨a, ha, rfl⟩ := Option.map_eq_some_iff.1 hat
    exact ⟨a, ha, rfl⟩
  refine ⟨⟨hwf.1, fun p at' hat => hpm.prot p at' (hattr p ▸ hat), fun p at' hat hro => ?_⟩,
    hwf.2 new rfl, fun p at' hat hro => ?_, fun p at' hat hro => ?_⟩
  · rw [hptes]
    exact (hpm.clean p at' (hattr p ▸ hat) hro).clone
  · obtain ⟨a, ha, rfl⟩ := hattrNew p at' hat
    obtain ⟨hro', hprot, hprivate⟩ := PageAttr.readOnlyShared_clone hro
    rw [hprot, hprivate]
    exact hpm.prot p a ha hro'
  · obtain ⟨a, ha, rfl⟩ := hattrNew p at' hat
    rw [hnewPtes]
    exact (hpm.clean p a ha (PageAttr.readOnlyShared_clone hro).1).clone

theorem Guarded.vmNew (junk : Segment) : Guarded (vmNew junk) := by
  have hfree : ∀ p at', (Vm.vmNew junk).attr p = some at' → at'.flags = 0 := by
    intro p at' hat
    have hmem := List.mem_of_getElem? hat
    simp only [Vm.vmNew, pages, cells_cons, cells_nil, List.append_nil, pieceCells,
      List.mem_map] at hmem
    obtain ⟨i, -, rfl⟩ := hmem
    rfl
  exact ⟨⟨by simp [Vm.vmNew], by simp [Vm.vmNew, numPages]⟩,
    fun p at' hat hro => absurd hro (PageAttr.not_readOnlyShared_of_free (hfree p at' hat)),
    fun p at' hat hro => absurd hro (PageAttr.not_readOnlyShared_of_free (hfree p at' hat))⟩

theorem Guarded.touch {page : ℕ} {write : Bool} (hpm : Guarded pm) :
    Guarded { pm with ptes := Function.update pm.ptes page ((pm.ptes page).touch write) } := by
  refine ⟨hpm.wellFormed, hpm.prot, fun p at' hat hro => ?_⟩
  have hclean := hpm.clean p at' hat hro
  by_cases hp : p = page
  · subst hp
    simp only [Function.update_self]
    exact ⟨hclean.gx_w, hclean.rw, hclean.shared⟩
  · simp only [Function.update_of_ne hp]
    exact hclean

/-- One call. -/
theorem Guarded.runCall {c : Call} {new : Option ProcMem} (hpm : Guarded pm)
    (hcond : LeavesClean pm c) (h : runCall ops ct c w pm = some (w', pm', new)) :
    Guarded pm' ∧ ∀ n ∈ new, Guarded n := by
  cases c with
  | map a =>
    obtain ⟨⟨r, w₁, pm₁⟩, hcall, he⟩ := Option.map_eq_some_iff.1 h
    obtain ⟨-, rfl, rfl⟩ := by simpa using he
    exact ⟨hpm.map hcond hcall, by simp⟩
  | protect base len prot =>
    obtain ⟨⟨r, w₁, pm₁⟩, hcall, he⟩ := Option.map_eq_some_iff.1 h
    obtain ⟨-, rfl, rfl⟩ := by simpa using he
    exact ⟨hpm.protect hcall, by simp⟩
  | fault addr flags =>
    obtain ⟨⟨r, w₁, pm₁⟩, hcall, he⟩ := Option.map_eq_some_iff.1 h
    obtain ⟨-, rfl, rfl⟩ := by simpa using he
    exact ⟨hpm.faultEffect (vmFault_spec hcall), by simp⟩
  | getPhys addr perms =>
    obtain ⟨⟨r, w₁, pm₁⟩, hcall, he⟩ := Option.map_eq_some_iff.1 h
    obtain ⟨-, rfl, rfl⟩ := by simpa using he
    exact ⟨hpm.faultEffect (vmGetPhys_spec hcall), by simp⟩
  | unmapThread =>
    obtain ⟨⟨w₁, pm₁⟩, hcall, he⟩ := Option.map_eq_some_iff.1 h
    obtain ⟨-, rfl, rfl⟩ := by simpa using he
    exact ⟨hpm.unmapThread hcall, by simp⟩
  | clone =>
    obtain ⟨⟨new₁, w₁, pm₁⟩, hcall, he⟩ := Option.map_eq_some_iff.1 h
    obtain ⟨-, rfl, rfl⟩ := by simpa using he
    obtain ⟨hold, hnew⟩ := hpm.clone hcall
    exact ⟨hold, by simpa using hnew⟩

/-- In every run whose mappings leave only clean entries, shared mappings without write access are
never writable, in any address space and at any time. -/
theorem readOnlyShared_writeProtected (hs : (machine ops).ReachesBy (Meets LeavesClean) s) :
    ∀ pm ∈ s.spaces, WriteProtected pm := by
  have hguarded := spaces_invariant (I := Guarded) hs Guarded.vmNew
    (fun ct c w w' pm pm' new hpm hcond hrun => ?_) (fun pm page write hpm _ => hpm.touch)
  · exact fun pm hpm p at' hat hro => ⟨((hguarded pm hpm).clean p at' hat hro).gx_w,
      ((hguarded pm hpm).clean p at' hat hro).rw⟩
  · have hfree : Guarded { pm with lock := false } := ⟨hpm.wellFormed, hpm.prot, hpm.clean⟩
    exact hfree.runCall (by cases c <;> exact hcond) hrun

/-! ## A file opened read-only -/

/-- A file with the tree 7, opened with `O_RDONLY`. -/
def readOnlyFile : File := ⟨some 7, 2⟩

/-- Map the first page of it shared. -/
def mapShared (addr : ℕ) : MapArgs :=
  ⟨addr, 0x1000, PROT_READ, MAP_SHARED ||| MAP_FIXED, some readOnlyFile, 0⟩

/-- The attributes of a page in the second of the segments. -/
theorem attr_second {s₀ s₁ : Segment} {rest : List Segment} (hsegs : pm.segs = s₀ :: s₁ :: rest)
    (hpos : 0 < s₁.numPages) : pm.attr s₀.numPages = some (s₁.page 0) := by
  rw [ProcMem.attr, hsegs]
  have h : (cells Segment.numPages Segment.page ([s₀] ++ s₁ :: rest))[
      span Segment.numPages [s₀] + 0]? = some (s₁.page 0) := getElem?_cells hpos
  simpa using h

/-- A page of the file is mapped and read. -/
def fileRead : ProcMem := spaceAfter [.map (mapShared 0x200000), .fault 0x200000 0] (by decide)

theorem readOnlyShared_writeProtected_read :
    (fileRead.ptes 0x200).Loaded ∧ ∀ pm ∈ [fileRead], WriteProtected pm := by
  have hrun : runCalls plentiful 1 [.map (mapShared 0x200000), .fault 0x200000 0] () freshSpace =
      some ((), fileRead) := (Option.some_get (by decide)).symm
  obtain ⟨w₁, pm₁, hmap, hrun⟩ := runCalls_cons hrun
  obtain ⟨w₂, pm₂, hfault, hrun⟩ := runCalls_cons hrun
  obtain ⟨-, rfl⟩ := Prod.mk.inj (Option.some.inj hrun)
  have h₀ : (machine plentiful).ReachesBy (Meets LeavesClean) ⟨(), [freshSpace]⟩ :=
    .init ⟨⟨0, none, 0, none, 0, 0, 0⟩, rfl⟩
  have h₁ := reachesBy_runCall h₀ (by
    rintro pm hpm m - - - p -
    obtain rfl := Option.some.inj hpm
    exact Or.inr PTe.clean_zero) hmap
  have h₂ := reachesBy_runCall (c := .fault 0x200000 0) h₁ (fun pm _ => trivial) hfault
  exact ⟨by decide, readOnlyShared_writeProtected h₂⟩

/-- Some calls that leave the write permission behind: anonymous memory, whose protection is set
together with that of the page behind it, which fails; then it is unmapped without having been used. -/
def leftover : ProcMem :=
  spaceAfter [.map (mapAnon 0x200000 0x1000), .protect 0x200000 0x2000 (PROT_READ ||| PROT_WRITE),
    .map { mapAnon 0x200000 0x1000 with
      flags := MAP_PRIVATE ||| MAP_ANON ||| MAP_FIXED ||| MAP_UN },
    .map (mapShared 0x200000)] (by decide)

/-- The page of a file that is open for reading only can be written after a fault. -/
theorem readOnlyShared_not_writeProtected :
    (machine plentiful).Reachable ⟨(), [leftover]⟩ ∧
      ∃ w' pm', vmFault plentiful 0x200000 PF_WRITE () leftover = some (.ok (), w', pm') ∧
        (∃ at', pm'.attr 0x200 = some at' ∧ at'.ReadOnlyShared) ∧
          (pm'.ptes 0x200).gx_w = true ∧ (pm'.ptes 0x200).rw = true := by
  obtain ⟨w', pm', h⟩ := exists_of_fst (x := .ok ())
    (o := vmFault plentiful 0x200000 PF_WRITE () leftover) (by decide)
  have hpte : (vmFault plentiful 0x200000 PF_WRITE () leftover).map (fun x =>
      ((x.2.2.ptes 0x200).gx_w, (x.2.2.ptes 0x200).rw)) = some (true, true) := by decide
  have hsegs : (vmFault plentiful 0x200000 PF_WRITE () leftover).map (fun x => x.2.2.segs) =
      some [⟨0x200, none, 0, none, 0, 0, 0⟩, ⟨1, some 7, 0, none, 10, 1, 2⟩,
        ⟨0x7FFFDFF, none, 0x201000, none, 0, 0, 0⟩] := by decide
  rw [h, Option.map_some, Option.some.injEq] at hpte hsegs
  exact ⟨reachable_spaceAfter _, w', pm', h, ⟨_, attr_second hsegs (by decide), by decide, by decide⟩,
    congrArg Prod.fst hpte, congrArg Prod.snd hpte⟩

end Glidix.Vm
