import Glidix.Vm.FixedMapping

/-!
# Faults that return

A fault that does not end in a signal leaves an entry that permits the access, as long as
`vmProtect` grants no permission for a page that is loaded already, other than to write one that is
to be copied on write.  `vmProtect` clears the bits of the hardware and never sets them, and
`vmFault` sets them only when it loads or copies a page.
-/

namespace Glidix.Vm

variable {W : Type} {ops : PhysMem W} {w w' : W} {pm pm' : ProcMem} {ct : ℕ} {s : Machine W}

/-- The processor does not fault on such an access. -/
def PTe.Permits (e : PTe) (flags : ℕ) : Prop :=
  e.present = true ∧ (has flags PF_WRITE = true → e.rw = true) ∧
    (has flags PF_FETCH = true → e.xd = false)

/-- A fault that returns leaves an entry that permits the access. -/
def FaultsComplete (ops : PhysMem W) (pm : ProcMem) : Prop :=
  ∀ addr flags w w' pm', vmFault ops addr flags w { pm with lock := false } =
    some (.ok (), w', pm') → (pm'.ptes (addr / 0x1000)).Permits flags

/-- The permissions give a page nothing that it does not have, if it is loaded. -/
def PTe.Covers (e : PTe) (prot : ℕ) : Prop :=
  e.gx_loaded = true →
    (has prot PROT_READ = true → e.gx_r = true) ∧
      (has prot PROT_WRITE = true → e.gx_w = true ∨ e.gx_cow = true) ∧
        (has prot PROT_EXEC = true → e.gx_x = true)

/-- The number of pages in the area of a `vmProtect` call. -/
def protectCount (base len : ℕ) : ℕ := ((base + len) % 2 ^ 64 - base + 0xFFF) / 0x1000

/-- The pages whose permissions are set: those in front of the first that may not be set. -/
def protectArea (segs : List Segment) (prot start count : ℕ) : Set ℕ :=
  {p | p ∈ pageRange start count ∧ ∀ q, start ≤ q → q ≤ p → Protectable segs prot q}

/-- A `vmProtect` call grants nothing for loaded pages. -/
def GrantsNothingLoaded (pm : ProcMem) : Call → Prop
  | .protect base len prot => prot ≤ PROT_ALL → ¬ has base 0xFFF = true →
      ADDR_MIN ≤ base → base < ADDR_MAX →
        ∀ p ∈ protectArea pm.segs (impliedProt prot) (base / 0x1000) (protectCount base len),
          (pm.ptes p).Covers (impliedProt prot)
  | _ => True

/-! ## Entries -/

/-- An entry whose bits for the hardware are those of its permissions, once it is loaded, but for
writing to a page that is to be copied. -/
structure PTe.Ready (e : PTe) : Prop where
  perm : e.gx_loaded = true → e.gx_perm_ovr = true
  present : e.gx_loaded = true → e.gx_r = true → e.present = true
  rw : e.gx_loaded = true → e.gx_w = true → e.rw = true ∨ e.gx_cow = true
  xd : e.xd = true → e.gx_loaded = true ∧ e.gx_x = false

section Entries

variable {e e' : PTe} {seg : Segment} {prot : ℕ} {S : Set ℕ} {ptes : ℕ → PTe} {p : ℕ}

theorem PTe.ready_zero : PTe.zero.Ready := by
  constructor <;> simp [PTe.zero]

theorem PTe.Ready.clear (h : (ptes p).Ready) : (clear S ptes p).Ready := by
  by_cases hp : p ∈ S ∧ (ptes p).Loaded
  · rw [Vm.clear, resetOn_of_mem hp.1 hp.2]
    exact PTe.ready_zero
  · rwa [Vm.clear, resetOn_of_not hp]

theorem PTe.Ready.setPerm (h : e.Ready) : (e.setPerm seg).Ready := by
  rw [PTe.setPerm]
  split_ifs with hperm
  · exact h
  · have hl : ¬ e.gx_loaded = true := fun hl => hperm (h.perm hl)
    exact ⟨fun _ => rfl, fun hl' => absurd hl' hl, fun hl' => absurd hl' hl,
      fun hx => absurd (h.xd hx).1 hl⟩

theorem PTe.Ready.load (h : e.Ready) (hperm : e.gx_perm_ovr = true) (frame : ℕ) :
    (e.load seg frame).Ready where
  perm := fun _ => hperm
  present := fun _ hr => by
    simp only [PTe.load] at hr ⊢
    rw [hr, Bool.true_or]
  rw := fun _ hw => by
    simp only [PTe.load] at hw ⊢
    cases has seg.flags MAP_PRIVATE with
    | true => exact Or.inr rfl
    | false => simp [hw]
  xd := fun hx => by
    refine ⟨rfl, ?_⟩
    simp only [PTe.load, Bool.or_eq_true, Bool.not_eq_true'] at hx ⊢
    exact hx.elim id fun hx => (h.xd hx).2

theorem PTe.setPerm_perm : (e.setPerm seg).gx_perm_ovr = true := by
  rw [PTe.setPerm]
  split_ifs with hperm
  · exact hperm
  · rfl

theorem PTe.Ready.resolved (h : e.Ready) (hr : Resolved seg e e') : e'.Ready := by
  rcases hr.2 with rfl | ⟨frame, rfl⟩
  · exact h.setPerm
  · exact h.setPerm.load PTe.setPerm_perm frame

theorem PTe.Ready.handled (h : e.Ready) (hh : Handled seg e e') : e'.Ready := by
  rcases hh with rfl | hr | ⟨e₁, frame, hr, -, rfl⟩
  · exact h.setPerm
  · exact h.resolved hr
  · have h₁ := h.resolved hr
    exact ⟨h₁.perm, h₁.present, fun _ _ => Or.inl rfl, h₁.xd⟩

theorem PTe.Ready.protect (h : e.Ready) (hcovers : e.Covers prot) : (e.protect prot).Ready where
  perm := fun _ => rfl
  present := fun hl hr => by
    have hl' : e.gx_loaded = true := hl
    have hr' : has prot PROT_READ = true := hr
    simp [PTe.protect, hr', h.present hl' ((hcovers hl').1 hr')]
  rw := fun hl hw => by
    have hl' : e.gx_loaded = true := hl
    have hw' : has prot PROT_WRITE = true := hw
    rcases (hcovers hl').2.1 hw' with hgw | hcow
    · rcases h.rw hl' hgw with hrw | hcow
      · exact Or.inl (by simp [PTe.protect, hw', hrw])
      · exact Or.inr hcow
    · exact Or.inr hcow
  xd := fun hx => by
    simp only [PTe.protect, Bool.or_eq_true, Bool.and_eq_true, Bool.not_eq_true'] at hx ⊢
    rcases hx with hx | hx
    · refine ⟨(h.xd hx).1, ?_⟩
      by_contra hexec
      have := (hcovers (h.xd hx).1).2.2 (by simpa using hexec)
      rw [(h.xd hx).2] at this
      cases this
    · exact hx

theorem PTe.Ready.clone (h : e.Ready) : e.clone.Ready := by
  rw [PTe.clone]
  split_ifs with hc
  · exact ⟨h.perm, h.present, fun _ _ => Or.inr rfl, h.xd⟩
  · exact h

theorem PTe.Ready.touch (h : e.Ready) (write : Bool) : (e.touch write).Ready :=
  ⟨h.perm, h.present, h.rw, h.xd⟩

end Entries

/-! ## Faults -/

section Fault

variable {seg : Segment} {pos faultAddr flags : ℕ} {e e' : PTe}

theorem copyOnWrite_ok (h : copyOnWrite ops w e = some (true, w', e')) :
    e' = e ∧ e.gx_cow = false ∨ e'.present = e.present ∧ e'.rw = true ∧ e'.xd = e.xd := by
  rw [copyOnWrite] at h
  by_cases hcow : e.gx_cow = true
  · rw [if_pos hcow] at h
    simp only at h
    split_ifs at h
    · cases h
    · cases h
      exact Or.inr ⟨rfl, rfl, rfl⟩
    · cases h
      exact Or.inr ⟨rfl, rfl, rfl⟩
  · rw [if_neg hcow] at h
    cases h
    exact Or.inl ⟨rfl, Bool.not_eq_true _ ▸ hcow⟩

/-- A page that is touched without a signal permits the access, if its entry was ready. -/
theorem PTe.Ready.touchPage (he : e.Ready)
    (h : touchPage ops (has flags PF_WRITE) (has flags PF_FETCH) (has flags PF_WRITE) seg pos
      faultAddr w e = some (.ok (), w', e')) : e'.Permits flags := by
  rw [Vm.touchPage] at h
  simp only at h
  by_cases hdenied : has flags PF_WRITE = true ∧ ¬ (e.setPerm seg).gx_w = true ∨
      ¬ (e.setPerm seg).gx_r = true ∨ has flags PF_FETCH = true ∧ ¬ (e.setPerm seg).gx_x = true
  · rw [if_pos hdenied] at h
    cases h
  rw [if_neg hdenied] at h
  simp only [not_or, not_and, not_not] at hdenied
  obtain ⟨hw, hr, hx⟩ := hdenied
  rcases hload : loadPage ops seg pos faultAddr w (e.setPerm seg) with ⟨b, w₁, e₁⟩
  simp only [hload] at h
  rcases loadPage_spec hload with ⟨rfl, rfl⟩ | ⟨rfl, hres⟩
  · cases h
  have hready := he.resolved hres
  -- loading a page leaves its permissions
  have hgx : e₁.gx_r = (e.setPerm seg).gx_r ∧ e₁.gx_w = (e.setPerm seg).gx_w ∧
      e₁.gx_x = (e.setPerm seg).gx_x := by
    rcases hres.2 with rfl | ⟨frame, rfl⟩
    · exact ⟨rfl, rfl, rfl⟩
    · exact ⟨rfl, rfl, rfl⟩
  have hpresent : e₁.present = true := hready.present hres.1 (hgx.1.trans hr)
  have hfetch : has flags PF_FETCH = true → e₁.xd = false := by
    intro hf
    by_contra hxd
    have := (hready.xd (by simpa using hxd)).2
    rw [hgx.2.2, hx hf] at this
    cases this
  rw [if_pos rfl] at h
  by_cases hwrite : has flags PF_WRITE = true
  · rw [if_pos hwrite] at h
    obtain ⟨⟨b, w₂, e₂⟩, hcow, heq⟩ := Option.map_eq_some_iff.1 h
    cases b with
    | false => cases heq
    | true =>
      obtain ⟨-, -, rfl⟩ := by simpa using heq
      rcases copyOnWrite_ok hcow with ⟨rfl, hno⟩ | ⟨hp, hrw, hxd⟩
      · refine ⟨hpresent, fun _ => ?_, hfetch⟩
        refine (hready.rw hres.1 (hgx.2.1.trans (hw hwrite))).resolve_right ?_
        rw [hno]
        decide
      · exact ⟨hp.trans hpresent, fun _ => hrw, fun hf => hxd.trans (hfetch hf)⟩
  · rw [if_neg hwrite] at h
    cases h
    exact ⟨hpresent, fun hw' => absurd hw' hwrite, hfetch⟩

theorem faultsComplete_of_ready (h : ∀ p, (pm.ptes p).Ready) : FaultsComplete ops pm := by
  intro addr flags w w' pm' hf
  rw [vmFault] at hf
  by_cases hrange : addr < ADDR_MIN ∨ addr ≥ ADDR_MAX
  · rw [if_pos hrange] at hf
    cases hf
  rw [if_neg hrange, if_neg Bool.false_ne_true] at hf
  obtain ⟨⟨before, seg, behind, pos⟩, hfind, hf⟩ := Option.bind_eq_some_iff.1 hf
  simp only at hf
  by_cases hfree : seg.flags = 0
  · rw [if_pos hfree] at hf
    cases hf
  · rw [if_neg hfree] at hf
    obtain ⟨⟨r, w₁, e₁⟩, htouch, heq⟩ := Option.map_eq_some_iff.1 hf
    obtain ⟨rfl, -, rfl⟩ := by simpa using heq
    simp only [ProcMem.setPte, Function.update_self]
    exact (h _).touchPage htouch

end Fault

/-! ## Protection -/

section Protect

variable {prot count addr pos base len : ℕ} {segs : List Segment} {ptes ptes' : ℕ → PTe}

/-- Only the pages of the area are changed. -/
theorem protectPages_area {r : Except Errno Unit} (before : List Segment)
    (hpos : pos = numPages before * 0x1000) (hle : pos ≤ addr)
    (h : protectPages prot count addr pos segs ptes = some (r, ptes')) :
    ∀ p, ptes' p = ptes p ∨ p ∈ protectArea (before ++ segs) prot (addr / 0x1000) count := by
  induction count generalizing addr pos segs before ptes with
  | zero =>
    intro p
    obtain rfl := (Prod.mk.inj (Option.some.inj h)).2
    exact Or.inl rfl
  | succ count ih =>
    obtain ⟨⟨b, seg, behind, pos'⟩, hfind, h⟩ := Option.bind_eq_some_iff.1 h
    obtain ⟨rfl, rfl, hle', hlt⟩ := findSeg_spec hfind hle
    simp only at h
    split_ifs at h with hfree hdenied
    · intro p
      obtain rfl := (Prod.mk.inj (Option.some.inj h)).2
      exact Or.inl rfl
    · intro p
      obtain rfl := (Prod.mk.inj (Option.some.inj h)).2
      exact Or.inl rfl
    · have hnum : numPages (before ++ b) = numPages before + numPages b := by simp [numPages]
      have hrest := ih (before ++ b) (by rw [hnum]; omega) (by omega) h
      rw [List.append_assoc] at hrest
      obtain ⟨i, hi⟩ := getElem?_pages (p := addr / 0x1000) (before ++ b) behind seg
        (by rw [hnum]; omega) (by rw [hnum]; omega)
      have hfirst : Protectable (before ++ (b ++ seg :: behind)) prot (addr / 0x1000) :=
        ⟨_, by rwa [← List.append_assoc], hfree, hdenied⟩
      intro p
      by_cases hp : p = addr / 0x1000
      · subst hp
        refine Or.inr ⟨⟨le_rfl, by omega⟩, fun q hq hqp => ?_⟩
        rwa [Nat.le_antisymm hqp hq]
      · rcases hrest p with he | ⟨⟨hge, hltp⟩, hall⟩
        · rw [Function.update_of_ne hp] at he
          exact Or.inl he
        · refine Or.inr ⟨⟨by omega, by omega⟩, fun q hq hqp => ?_⟩
          by_cases hqa : q = addr / 0x1000
          · exact hqa ▸ hfirst
          · exact hall q (by omega) hqp

theorem vmProtect_ready {r : Except Errno Unit} (hpm : ∀ p, (pm.ptes p).Ready)
    (hcond : GrantsNothingLoaded pm (.protect base len prot))
    (h : vmProtect base len prot w pm = some (r, w', pm')) : ∀ p, (pm'.ptes p).Ready := by
  have hspec := (vmProtect_spec h).2
  intro p
  rcases hspec p with he | ⟨-, he⟩
  · rw [he]
    exact hpm p
  by_cases hsame : pm'.ptes p = pm.ptes p
  · rw [hsame]
    exact hpm p
  rw [he]
  refine (hpm p).protect ?_
  rw [vmProtect] at h
  split_ifs at h with h₁ h₂ h₃
  iterate 3
    cases h
    exact absurd rfl hsame
  obtain ⟨⟨r', ptes'⟩, hloop, heq⟩ := Option.map_eq_some_iff.1 h
  obtain ⟨-, -, rfl⟩ := by simpa using heq
  rw [not_or, Nat.not_lt, Nat.not_le] at h₃
  rcases protectPages_area [] (by simp) (Nat.zero_le base) hloop p with he' | harea
  · exact absurd he' hsame
  · exact hcond (Nat.le_of_not_lt h₁) h₂ h₃.1 h₃.2 p harea

end Protect

/-! ## Runs -/

theorem FaultEffect.ready {addr : ℕ} (h : FaultEffect pm addr pm') (hpm : ∀ p, (pm.ptes p).Ready) :
    ∀ p, (pm'.ptes p).Ready := by
  rcases h with rfl | ⟨seg, i, e', -, hhandled, rfl⟩
  · exact hpm
  intro p
  by_cases hp : p = addr / 0x1000
  · subst hp
    simp only [ProcMem.setPte, Function.update_self]
    exact (hpm _).handled hhandled
  · simp only [ProcMem.setPte, Function.update_of_ne hp]
    exact hpm p

/-- One call. -/
theorem runCall_ready {c : Call} {new : Option ProcMem} (hwf : WellFormed pm.segs)
    (hpm : ∀ p, (pm.ptes p).Ready) (hcond : GrantsNothingLoaded pm c)
    (h : runCall ops ct c w pm = some (w', pm', new)) :
    (∀ p, (pm'.ptes p).Ready) ∧ ∀ n ∈ new, ∀ p, (n.ptes p).Ready := by
  cases c with
  | map a =>
    obtain ⟨⟨r, w₁, pm₁⟩, hcall, he⟩ := Option.map_eq_some_iff.1 h
    obtain ⟨-, rfl, rfl⟩ := by simpa using he
    refine ⟨?_, by simp⟩
    rcases vmMap_spec hwf hcall with rfl | ⟨m, -, -, hptes, -⟩
    · exact hpm
    · rw [hptes]
      exact fun p => (hpm p).clear
  | protect base len prot =>
    obtain ⟨⟨r, w₁, pm₁⟩, hcall, he⟩ := Option.map_eq_some_iff.1 h
    obtain ⟨-, rfl, rfl⟩ := by simpa using he
    exact ⟨vmProtect_ready hpm hcond hcall, by simp⟩
  | fault addr flags =>
    obtain ⟨⟨r, w₁, pm₁⟩, hcall, he⟩ := Option.map_eq_some_iff.1 h
    obtain ⟨-, rfl, rfl⟩ := by simpa using he
    exact ⟨(vmFault_spec hcall).ready hpm, by simp⟩
  | getPhys addr perms =>
    obtain ⟨⟨r, w₁, pm₁⟩, hcall, he⟩ := Option.map_eq_some_iff.1 h
    obtain ⟨-, rfl, rfl⟩ := by simpa using he
    exact ⟨(vmGetPhys_spec hcall).ready hpm, by simp⟩
  | unmapThread =>
    obtain ⟨⟨w₁, pm₁⟩, hcall, he⟩ := Option.map_eq_some_iff.1 h
    obtain ⟨-, rfl, rfl⟩ := by simpa using he
    obtain ⟨⟨S, hptes⟩, -, -⟩ := vmUnmapThread_spec hcall
    rw [hptes]
    exact ⟨fun p => (hpm p).clear, by simp⟩
  | clone =>
    obtain ⟨⟨new₁, w₁, pm₁⟩, hcall, he⟩ := Option.map_eq_some_iff.1 h
    obtain ⟨-, rfl, rfl⟩ := by simpa using he
    obtain ⟨-, -, hnew, hptes⟩ := vmClone_spec hcall
    refine ⟨fun p => hptes ▸ (hpm p).clone, fun n hn p => ?_⟩
    obtain rfl := Option.mem_some_iff.1 hn
    rw [hnew]
    exact (hpm p).clone

/-- In every run whose `vmProtect` calls grant nothing for loaded pages, every fault that returns
leaves an entry that permits the access, in any address space and at any time. -/
theorem vmFault_completes (hs : (machine ops).ReachesBy (Meets GrantsNothingLoaded) s) :
    ∀ pm ∈ s.spaces, FaultsComplete ops pm := by
  have hready := spaces_invariant (I := fun pm => WellFormed pm.segs ∧ ∀ p, (pm.ptes p).Ready) hs
    (fun junk => ?_) (fun ct c w w' pm pm' new hpm hcond hrun => ?_)
    (fun pm page write hpm _ => ⟨hpm.1, fun p => ?_⟩)
  · exact fun pm hpm => faultsComplete_of_ready (hready pm hpm).2
  · exact ⟨⟨by simp [vmNew], by simp [vmNew, numPages]⟩, fun p => PTe.ready_zero⟩
  · have hwf := runCall_wellFormed
      (show WellFormed ({ pm with lock := false } : ProcMem).segs from hpm.1) hrun
    have hready := runCall_ready (show WellFormed ({ pm with lock := false } : ProcMem).segs
      from hpm.1) hpm.2 (by cases c <;> exact hcond) hrun
    exact ⟨⟨hwf.1, hready.1⟩, fun n hn => ⟨hwf.2 n hn, hready.2 n hn⟩⟩
  · by_cases hp : p = page
    · subst hp
      simp only [Function.update_self]
      exact (hpm.2 p).touch write
    · simp only [Function.update_of_ne hp]
      exact hpm.2 p

/-- A page is mapped and written, and then made read-only. -/
def madeReadOnly : ProcMem :=
  spaceAfter [.map (mapAnon 0x200000 0x1000), .fault 0x200000 PF_WRITE,
    .protect 0x200000 0x1000 PROT_READ] (by decide)

theorem vmFault_completes_readOnly : (madeReadOnly.ptes 0x200).Loaded ∧
    (madeReadOnly.ptes 0x200).gx_w = false ∧
      ∀ pm ∈ [madeReadOnly], FaultsComplete plentiful pm := by
  have hrun : runCalls plentiful 1 [.map (mapAnon 0x200000 0x1000), .fault 0x200000 PF_WRITE,
      .protect 0x200000 0x1000 PROT_READ] () freshSpace = some ((), madeReadOnly) :=
    (Option.some_get (by decide)).symm
  have hread : (runCalls plentiful 1 [.map (mapAnon 0x200000 0x1000), .fault 0x200000 PF_WRITE] ()
      freshSpace).map (fun x => (x.2.ptes 0x200).gx_r) = some true := by decide
  obtain ⟨w₁, pm₁, hmap, hrun⟩ := runCalls_cons hrun
  obtain ⟨w₂, pm₂, hfault, hrun⟩ := runCalls_cons hrun
  obtain ⟨w₃, pm₃, hprotect, hrun⟩ := runCalls_cons hrun
  obtain ⟨-, rfl⟩ := Prod.mk.inj (Option.some.inj hrun)
  simp only [runCalls, hmap, hfault, Option.map_some, Option.some.injEq] at hread
  have h₀ : (machine plentiful).ReachesBy (Meets GrantsNothingLoaded) ⟨(), [freshSpace]⟩ :=
    .init ⟨⟨0, none, 0, none, 0, 0, 0⟩, rfl⟩
  have h₁ := reachesBy_runCall (c := .map _) h₀ (fun pm _ => trivial) hmap
  have h₂ := reachesBy_runCall (c := .fault _ _) h₁ (fun pm _ => trivial) hfault
  have h₃ := reachesBy_runCall h₂ (by
    rintro pm hpm - - - - p ⟨hp, -⟩ -
    obtain rfl := Option.some.inj hpm
    obtain rfl : p = 0x200 := Nat.le_antisymm (Nat.le_of_lt_succ hp.2) hp.1
    exact ⟨fun _ => hread, fun h => absurd h (by decide), fun h => absurd h (by decide)⟩) hprotect
  exact ⟨by decide, by decide, vmFault_completes h₃⟩

/-- A page is mapped and read, and access to it is taken away and given back. -/
def givenBack : ProcMem :=
  spaceAfter [.map (mapAnon 0x200000 0x1000), .fault 0x200000 0, .protect 0x200000 0x1000 0,
    .protect 0x200000 0x1000 PROT_READ] (by decide)

/-- A fault on reading that page returns, and the page is still not present. -/
theorem vmFault_not_completes : ¬ ∀ s : Machine Unit, (machine plentiful).Reachable s →
    ∀ pm ∈ s.spaces, FaultsComplete plentiful pm := by
  intro h
  have habsent : (vmFault plentiful 0x200000 0 () { givenBack with lock := false }).map
      (fun x => (x.2.2.ptes 0x200).present) = some false := by decide
  obtain ⟨w', pm', hf⟩ := exists_of_fst (x := .ok ())
    (o := vmFault plentiful 0x200000 0 () { givenBack with lock := false }) (by decide)
  have hpresent := (h _ (reachable_spaceAfter _) givenBack (List.mem_singleton_self _)
    0x200000 0 () w' pm' hf).1
  rw [hf, Option.map_some, Option.some.injEq] at habsent
  exact absurd (hpresent.symm.trans habsent) (by decide)

end Glidix.Vm
