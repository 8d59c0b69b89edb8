import Glidix.Vm.FixedMapping

/-!
# The bits of the processor

A loaded entry permits to the processor no more than its software permissions say, in every run in which
`vmGetPhys` makes only those pages writable that may be written (`loaded_confined`): it resolves copy on
write whatever the page is wanted for, and sets the write bit without asking for `gx_w`.
-/

namespace Glidix.Vm

variable {W : Type} {ops : PhysMem W} {w w' : W} {pm pm' : ProcMem} {ct : ℕ} {s : Machine W}

/-- The processor is permitted at most what the software permissions say. -/
def PTe.Confined (e : PTe) : Prop :=
  (e.rw = true → e.gx_w = true) ∧ (e.present = true → e.gx_r = true) ∧ (e.xd = false → e.gx_x = true)

instance (e : PTe) : Decidable e.Confined := inferInstanceAs (Decidable (_ ∧ _))

/-- The page may be written, by its own permissions or else by those of its segment. -/
def PTe.Writable (e : PTe) (a : PageAttr) : Prop :=
  e.gx_w = true ∨ e.gx_perm_ovr = false ∧ has a.prot PROT_WRITE = true

/-- The page is to be copied on write, at least once it is loaded. -/
def PTe.ToCopy (e : PTe) (a : PageAttr) : Prop :=
  if e.gx_loaded then e.gx_cow = true else has a.flags MAP_PRIVATE = true

/-- A `vmGetPhys` call that does not ask for write permission is not made for a page that is to be copied
and may not be written. -/
def CopiesWritable (pm : ProcMem) : Call → Prop
  | .getPhys addr perms => has perms PROT_WRITE = true ∨
      ∀ a, pm.attr (addr / 0x1000) = some a → (pm.ptes (addr / 0x1000)).ToCopy a →
        (pm.ptes (addr / 0x1000)).Writable a
  | _ => True

/-- An entry in order: a page that is not loaded is neither present nor writable. -/
structure PTe.Sound (e : PTe) : Prop where
  loaded : e.gx_loaded = true → e.Confined
  unloaded : e.gx_loaded = false → e.rw = false ∧ e.present = false

/-! ## Entries -/

section Entries

variable {e e' : PTe} {seg : Segment} {prot pos faultAddr i : ℕ} {S : Set ℕ} {ptes : ℕ → PTe} {p : ℕ}

theorem PTe.sound_zero : PTe.zero.Sound := ⟨fun h => absurd h (by decide), fun _ => ⟨rfl, rfl⟩⟩

theorem PTe.Sound.clear (h : (ptes p).Sound) : (clear S ptes p).Sound := by
  by_cases hp : p ∈ S ∧ (ptes p).Loaded
  · rw [Vm.clear, resetOn_of_mem hp.1 hp.2]
    exact PTe.sound_zero
  · rwa [Vm.clear, resetOn_of_not hp]

theorem PTe.Sound.setPerm (h : e.Sound) : (e.setPerm seg).Sound := by
  unfold PTe.setPerm
  split_ifs
  · exact h
  · refine ⟨fun hl => ?_, h.unloaded⟩
    obtain ⟨hw, hr, hx⟩ := h.loaded hl
    refine ⟨fun hrw => ?_, fun hp => ?_, fun hxd => ?_⟩
    · simp [hw hrw]
    · simp [hr hp]
    · simp [hx hxd]

theorem PTe.Sound.load (h : e.Sound) (hl : e.gx_loaded = false) (frame : ℕ) :
    (e.load seg frame).Sound := by
  obtain ⟨hrw, hpresent⟩ := h.unloaded hl
  refine ⟨fun _ => ⟨fun hw => ?_, fun hp => ?_, fun hx => ?_⟩, fun hno => by cases hno⟩
  · simp only [PTe.load, hrw, Bool.or_false] at hw ⊢
    split_ifs at hw
    exact hw
  · simpa [PTe.load, hpresent] using hp
  · simp only [PTe.load, Bool.or_eq_false_iff, Bool.not_eq_false'] at hx
    exact hx.1

theorem PTe.Sound.protect (h : e.Sound) : (e.protect prot).Sound := by
  refine ⟨fun hl => ?_, fun hl => ?_⟩
  · have hl' : e.gx_loaded = true := hl
    refine ⟨fun hw => ?_, fun hp => ?_, fun hx => ?_⟩
    · simp only [PTe.protect, hl', Bool.not_true, Bool.false_or, Bool.and_eq_true] at hw
      exact hw.2
    · simp only [PTe.protect, hl', Bool.not_true, Bool.false_or, Bool.and_eq_true] at hp
      exact hp.2
    · simp only [PTe.protect, hl', Bool.true_and, Bool.or_eq_false_iff, Bool.not_eq_false'] at hx
      exact hx.2
  · obtain ⟨hrw, hpresent⟩ := h.unloaded hl
    simp [PTe.protect, hrw, hpresent]

theorem PTe.Sound.clone (h : e.Sound) : e.clone.Sound := by
  unfold PTe.clone
  split_ifs with hc
  · refine ⟨fun hl => ⟨fun hw => absurd hw Bool.false_ne_true, (h.loaded hl).2⟩, fun hl => ?_⟩
    exact absurd (hc.1.symm.trans hl) (by decide)
  · exact h

theorem PTe.Sound.touch (h : e.Sound) (write : Bool) : (e.touch write).Sound := ⟨h.loaded, h.unloaded⟩

/-- Resolving copy on write keeps an entry in order if the page may be written. -/
theorem PTe.Sound.copyOnWrite {b : Bool} (h : e.Sound) (hl : e.gx_loaded = true)
    (hw : e.gx_cow = true → e.gx_w = true) (hcopy : copyOnWrite ops w e = some (b, w', e')) :
    e'.Sound := by
  have hcopied : ∀ frame, e.gx_cow = true →
      PTe.Sound { e with framePhysAddr := frame, gx_cow := false, rw := true } := fun frame hcow =>
    ⟨fun _ => ⟨fun _ => hw hcow, (h.loaded hl).2⟩, fun hno => absurd (hl.symm.trans hno) (by decide)⟩
  rw [Vm.copyOnWrite] at hcopy
  by_cases hcow : e.gx_cow = true
  · simp only [if_pos hcow] at hcopy
    split_ifs at hcopy
    · simp only [Option.some.injEq, Prod.mk.injEq] at hcopy
      rw [← hcopy.2.2]
      exact h
    · simp only [Option.some.injEq, Prod.mk.injEq] at hcopy
      rw [← hcopy.2.2]
      exact hcopied _ hcow
    · simp only [Option.some.injEq, Prod.mk.injEq] at hcopy
      rw [← hcopy.2.2]
      exact hcopied e.framePhysAddr hcow
  · rw [if_neg hcow] at hcopy
    simp only [Option.some.injEq, Prod.mk.injEq] at hcopy
    rw [← hcopy.2.2]
    exact h

/-- Touching a page keeps its entry in order if it is copied only when write permission is asked for, or
when the page may be written or is not to be copied. -/
theorem PTe.Sound.touchPage {write exec copy : Bool} {r : Except Signal Unit} (h : e.Sound)
    (hcopy : copy = true → write = true ∨ (e.ToCopy (seg.page i) → e.Writable (seg.page i)))
    (htouch : touchPage ops write exec copy seg pos faultAddr w e = some (r, w', e')) : e'.Sound := by
  rw [Vm.touchPage] at htouch
  simp only at htouch
  by_cases hdenied : write = true ∧ ¬ (e.setPerm seg).gx_w = true ∨ ¬ (e.setPerm seg).gx_r = true ∨
      exec = true ∧ ¬ (e.setPerm seg).gx_x = true
  · rw [if_pos hdenied] at htouch
    rw [← (Prod.mk.inj (Prod.mk.inj (Option.some.inj htouch)).2).2]
    exact h.setPerm
  rw [if_neg hdenied] at htouch
  simp only [not_or, not_and, not_not] at hdenied
  rcases hload : loadPage ops seg pos faultAddr w (e.setPerm seg) with ⟨b, w₁, e₁⟩
  simp only [hload] at htouch
  -- after loading: in order, with the permissions that were set
  obtain ⟨hsound, hgx, hcow⟩ : e₁.Sound ∧ e₁.gx_w = (e.setPerm seg).gx_w ∧
      (b = true → e₁.gx_loaded = true ∧ (e₁.gx_cow = true → e.ToCopy (seg.page i))) := by
    have hsame : (e.setPerm seg).gx_loaded = e.gx_loaded ∧ (e.setPerm seg).gx_cow = e.gx_cow := by
      unfold PTe.setPerm
      split_ifs <;> exact ⟨rfl, rfl⟩
    rw [loadPage, hsame.1] at hload
    by_cases hl : e.gx_loaded = true
    · rw [if_pos hl, Prod.mk.injEq, Prod.mk.injEq] at hload
      obtain ⟨-, -, rfl⟩ := hload
      refine ⟨h.setPerm, rfl, fun _ => ⟨hsame.1.trans hl, fun hc => ?_⟩⟩
      rw [PTe.ToCopy, if_pos hl, ← hsame.2]
      exact hc
    · rw [if_neg hl] at hload
      simp only at hload
      split_ifs at hload
      · simp only [Prod.mk.injEq] at hload
        obtain ⟨rfl, -, rfl⟩ := hload
        exact ⟨h.setPerm, rfl, fun hb => by cases hb⟩
      · simp only [Prod.mk.injEq] at hload
        obtain ⟨-, -, rfl⟩ := hload
        refine ⟨h.setPerm.load (hsame.1.trans (by simpa using hl)) _, rfl, fun _ => ⟨rfl, fun hc => ?_⟩⟩
        rw [PTe.ToCopy, if_neg hl]
        exact hc
  cases b with
  | false =>
    obtain rfl := (Prod.mk.inj (Prod.mk.inj (Option.some.inj htouch)).2).2
    exact hsound
  | true =>
    rw [if_pos rfl] at htouch
    cases copy with
    | false =>
      obtain rfl := (Prod.mk.inj (Prod.mk.inj (Option.some.inj htouch)).2).2
      exact hsound
    | true =>
      obtain ⟨⟨b, w₂, e₂⟩, hresolve, he⟩ := Option.map_eq_some_iff.1 htouch
      obtain rfl := (Prod.mk.inj (Prod.mk.inj he).2).2
      refine hsound.copyOnWrite (hcow rfl).1 (fun hc => ?_) hresolve
      rw [hgx]
      rcases hcopy rfl with hwrite | hpage
      · exact hdenied.1 hwrite
      · rcases hpage ((hcow rfl).2 hc) with hw | ⟨hovr, hprot⟩
        · unfold PTe.setPerm
          split_ifs
          · exact hw
          · simp [hw]
        · rw [PTe.setPerm, if_neg (by simp [hovr])]
          exact Bool.or_eq_true_iff.2 (Or.inr hprot)

end Entries

/-! ## Calls -/

/-- All entries are in order. -/
def ProcMem.Sound (pm : ProcMem) : Prop := ∀ p, (pm.ptes p).Sound

theorem ProcMem.Sound.setPte {addr : ℕ} {e : PTe} (h : pm.Sound) (he : e.Sound) :
    (pm.setPte addr e).Sound := by
  intro p
  by_cases hp : p = addr / 0x1000
  · simp only [ProcMem.setPte, hp, Function.update_self]
    exact he
  · simp only [ProcMem.setPte, Function.update_of_ne hp]
    exact h p

/-- One call. -/
theorem ProcMem.Sound.runCall {c : Call} {new : Option ProcMem} (hwf : WellFormed pm.segs)
    (h : pm.Sound) (hcond : CopiesWritable pm c) (hrun : runCall ops ct c w pm = some (w', pm', new)) :
    pm'.Sound ∧ ∀ n ∈ new, n.Sound := by
  cases c with
  | map a =>
    obtain ⟨⟨r, w₁, pm₁⟩, hcall, he⟩ := Option.map_eq_some_iff.1 hrun
    obtain ⟨-, rfl, rfl⟩ := by simpa using he
    refine ⟨?_, by simp⟩
    rcases vmMap_spec hwf hcall with rfl | ⟨m, -, -, hptes, -⟩
    · exact h
    · intro p
      rw [hptes]
      exact (h p).clear
  | protect base len prot =>
    obtain ⟨⟨r, w₁, pm₁⟩, hcall, he⟩ := Option.map_eq_some_iff.1 hrun
    obtain ⟨-, rfl, rfl⟩ := by simpa using he
    refine ⟨fun p => ?_, by simp⟩
    rcases (vmProtect_spec hcall).2 p with hsame | ⟨-, hset⟩
    · rw [hsame]
      exact h p
    · rw [hset]
      exact (h p).protect
  | fault addr flags =>
    obtain ⟨⟨r, w₁, pm₁⟩, hcall, he⟩ := Option.map_eq_some_iff.1 hrun
    obtain ⟨-, rfl, rfl⟩ := by simpa using he
    refine ⟨?_, by simp⟩
    rcases vmFault_touch hcall with rfl | ⟨seg, i, pos, w₂, e', -, htouch, rfl⟩
    · exact h
    · exact h.setPte ((h _).touchPage (i := i) Or.inl htouch)
  | getPhys addr perms =>
    obtain ⟨⟨r, w₁, pm₁⟩, hcall, he⟩ := Option.map_eq_some_iff.1 hrun
    obtain ⟨-, rfl, rfl⟩ := by simpa using he
    refine ⟨?_, by simp⟩
    rcases vmGetPhys_touch hcall with rfl | ⟨seg, i, pos, r', w₂, e', hattr, htouch, rfl⟩
    · exact h
    · exact h.setPte ((h _).touchPage (fun _ => hcond.imp_right fun hc => hc _ hattr) htouch)
  | unmapThread =>
    obtain ⟨⟨w₁, pm₁⟩, hcall, he⟩ := Option.map_eq_some_iff.1 hrun
    obtain ⟨-, rfl, rfl⟩ := by simpa using he
    obtain ⟨⟨S, hptes⟩, -, -⟩ := vmUnmapThread_spec hcall
    refine ⟨fun p => ?_, by simp⟩
    rw [hptes]
    exact (h p).clear
  | clone =>
    obtain ⟨⟨new₁, w₁, pm₁⟩, hcall, he⟩ := Option.map_eq_some_iff.1 hrun
    obtain ⟨-, rfl, rfl⟩ := by simpa using he
    obtain ⟨-, -, hnew, hptes⟩ := vmClone_spec hcall
    refine ⟨fun p => hptes ▸ (h p).clone, fun n hn p => ?_⟩
    obtain rfl := Option.mem_some_iff.1 hn
    rw [hnew]
    exact (h p).clone

/-- In every run whose `vmGetPhys` calls copy only pages that may be written, no loaded entry permits more
to the processor than its software permissions say, in any address space and at any time. -/
theorem loaded_confined (hs : (machine ops).ReachesBy (Meets CopiesWritable) s) :
    ∀ pm ∈ s.spaces, ∀ p, (pm.ptes p).Loaded → (pm.ptes p).Confined := by
  have hsound := spaces_invariant (I := fun pm => WellFormed pm.segs ∧ pm.Sound) hs
    (fun junk => ?_) (fun ct c w w' pm pm' new hpm hcond hrun => ?_)
    (fun pm page write hpm _ => ⟨hpm.1, fun p => ?_⟩)
  · intro pm hpm p hl
    exact ((hsound pm hpm).2 p).loaded hl
  · exact ⟨⟨by simp [vmNew], by simp [vmNew, numPages]⟩, fun p => PTe.sound_zero⟩
  · have hwf : WellFormed ({ pm with lock := false } : ProcMem).segs := hpm.1
    have hfree : ({ pm with lock := false } : ProcMem).Sound := hpm.2
    have hwf' := runCall_wellFormed hwf hrun
    have hsound' := hfree.runCall hwf (by cases c <;> exact hcond) hrun
    exact ⟨⟨hwf'.1, hsound'.1⟩, fun n hn => ⟨hwf'.2 n hn, hsound'.2 n hn⟩⟩
  · by_cases hp : p = page
    · simp only [hp, Function.update_self]
      exact (hpm.2 page).touch write
    · simp only [Function.update_of_ne hp]
      exact hpm.2 p

/-! ## Some runs -/

/-- The calls of a run meet a condition that each of them meets anywhere. -/
theorem reachesBy_runCalls {cond : ProcMem → Call → Prop} (cs : List Call)
    (hs : (machine ops).ReachesBy (Meets cond) ⟨w, [pm]⟩) (hc : ∀ c ∈ cs, ∀ pm, cond pm c)
    (h : runCalls ops ct cs w pm = some (w', pm')) :
    (machine ops).ReachesBy (Meets cond) ⟨w', [pm']⟩ := by
  induction cs generalizing w pm with
  | nil =>
    obtain ⟨rfl, rfl⟩ := Prod.mk.inj (Option.some.inj h)
    exact hs
  | cons c cs ih =>
    obtain ⟨w₁, pm₁, hcall, hrest⟩ := runCalls_cons h
    exact ih (reachesBy_runCall hs (fun pm _ => hc c List.mem_cons_self pm) hcall)
      (fun c' hc' => hc c' (List.mem_cons_of_mem c hc')) hrest

/-- A page is mapped, its frame is asked for in order to write to it, and it is made read-only. -/
def writtenPage : List Call :=
  [.map (mapAnon 0x200000 0x1000), .getPhys 0x200000 PROT_WRITE, .protect 0x200000 0x1000 PROT_READ]

theorem loaded_confined_written :
    ((spaceAfter writtenPage (by decide)).ptes 0x200).Loaded ∧
      ∀ pm ∈ [spaceAfter writtenPage (by decide)], ∀ p, (pm.ptes p).Loaded → (pm.ptes p).Confined := by
  have hcalls : ∀ c ∈ writtenPage, ∀ pm, CopiesWritable pm c := by
    intro c hc pm
    simp only [writtenPage, List.mem_cons, List.not_mem_nil, or_false] at hc
    rcases hc with rfl | rfl | rfl
    · trivial
    · exact Or.inl (by decide)
    · trivial
  have hfresh : (machine plentiful).ReachesBy (Meets CopiesWritable) ⟨(), [freshSpace]⟩ :=
    .init ⟨⟨0, none, 0, none, 0, 0, 0⟩, rfl⟩
  have hrun : runCalls plentiful 1 writtenPage () freshSpace =
      some ((), spaceAfter writtenPage (by decide)) := (Option.some_get (by decide)).symm
  exact ⟨by decide, loaded_confined (reachesBy_runCalls writtenPage hfresh hcalls hrun)⟩

/-- A page of private memory is mapped read-only, and its frame is asked for in order to read it. -/
def readPage : List Call :=
  [.map ⟨0x200000, 0x1000, PROT_READ, MAP_PRIVATE ||| MAP_ANON ||| MAP_FIXED, none, 0⟩,
    .getPhys 0x200000 PROT_READ]

/-- The processor may write to it then. -/
theorem loaded_not_confined : ¬ ∀ s : Machine Unit, (machine plentiful).Reachable s →
    ∀ pm ∈ s.spaces, ∀ p, (pm.ptes p).Loaded → (pm.ptes p).Confined := by
  intro hall
  have hreach : (machine plentiful).Reachable ⟨(), [spaceAfter readPage (by decide)]⟩ :=
    reachable_spaceAfter _
  have hconfined := hall _ hreach _ (List.mem_singleton_self _) 0x200 (by decide)
  revert hconfined
  decide

end Glidix.Vm
