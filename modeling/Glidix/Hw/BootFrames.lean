import Glidix.Hw.BootMap

/-!
# Frames come from usable memory

`phmAllocFrame` hands out whole frames of usable entries above the kernel, each once, if the kernel ends at
a page boundary, the frames handed out early stay inside usable entries, and the frame behind each usable
entry is one of a usable entry as well, or lies in the last group of frames, which is never handed out:
`initPhysMem2` frees one frame too many for each entry.
-/

namespace Glidix.PhysMem

variable {map : MemoryMap} {s s' : BootState} {l l' : List MmapEntry} {e cur : MmapEntry}
  {f frame placementFrame cached : ℕ} {fr : Frames}

/-- The frames handed out are whole frames of usable entries above the kernel, none of the early ones is
handed out again, and `initPhysMem2` clears only bits of frames below `numSystemFrames`. -/
structure BootState.Right (s : BootState) : Prop where
  inside : ∀ f ∈ s.early ++ s.later, s.map.Inside f ∧ s.kernelEnd ≤ f * 0x1000
  once : ∀ f ∈ s.later, f ∉ s.early
  below : ∀ fr, s.frames = some fr → ∀ f, fr.used f = false → f < s.map.numSystemFrames

/-- The frame lies behind the last whole group of 64. -/
def MemoryMap.Tail (map : MemoryMap) (frame : ℕ) : Prop :=
  64 * (map.numSystemFrames / 64) ≤ frame ∧ frame < map.numSystemFrames

instance : DecidablePred map.Tail := fun _ => inferInstanceAs (Decidable (_ ∧ _))

/-- Before `initPhysMem2`, either the current entry ends and the next usable one has a whole frame, or the
next frame lies inside a usable entry. -/
def BootState.EarlyFits (s : BootState) : Prop :=
  ∀ e ∈ s.memoryMap.head?,
    if e.endFrame = s.placementFrame then
      ∀ x ∈ loadNextMemory s.memoryMap, ∀ e ∈ x.1.head?, 0x1000 ≤ e.len
    else s.map.Inside s.placementFrame

instance (s : BootState) : Decidable s.EarlyFits :=
  inferInstanceAs (Decidable (∀ e ∈ s.memoryMap.head?, _))

/-- The kernel ends at a page boundary; the early frames fit; and when `initPhysMem2` is called, the frame
behind each usable entry, unless it was handed out, lies inside a usable entry or in the tail. -/
def BootFits (s : BootState) : BootOp → Prop
  | .alloc _ => s.frames = none → 0x1000 ∣ s.kernelEnd ∧ s.EarlyFits
  | .initPhysMem2 => 0x1000 ∣ s.kernelEnd ∧ ∀ e ∈ s.map.entries, e.isUseable = true →
      s.placementFrame ≤ e.lastFrame → s.map.Inside e.lastFrame ∨ s.map.Tail e.lastFrame
  | .free _ => True

instance (s : BootState) : DecidablePred (BootFits s)
  | .alloc _ => inferInstanceAs (Decidable (s.frames = none → _ ∧ _))
  | .initPhysMem2 => inferInstanceAs (Decidable (_ ∧ ∀ e ∈ s.map.entries, e.isUseable = true →
      s.placementFrame ≤ e.lastFrame → s.map.Inside e.lastFrame ∨ s.map.Tail e.lastFrame))
  | .free _ => inferInstanceAs (Decidable True)

/-! ## Entries -/

theorem MmapEntry.covers_iff : e.covers f = true ↔
    e.baseAddr ≤ f * 0x1000 ∧ (f + 1) * 0x1000 ≤ e.baseAddr + e.len := decide_eq_true_iff

theorem MmapEntry.isUseable_iff : e.isUseable = true ↔ e.type = 1 ∧ e.baseAddr % 0x1000 = 0 :=
  decide_eq_true_iff

/-- A usable entry covers its frames up to the last one, which `initPhysMem2` frees as well. -/
theorem MmapEntry.covers_of_lt (he : e.isUseable = true) (hlo : e.baseAddr / 0x1000 ≤ f)
    (hhi : f < e.lastFrame) : e.covers f = true := by
  have hbase := (isUseable_iff.1 he).2
  unfold lastFrame at hhi
  refine covers_iff.2 ⟨by omega, by omega⟩

theorem le_foldl_max (l : List MmapEntry) (m : ℕ) :
    m ≤ l.foldl (fun memSize e => max memSize (e.baseAddr + e.len)) m ∧
      ∀ e ∈ l, e.baseAddr + e.len ≤ l.foldl (fun memSize e => max memSize (e.baseAddr + e.len)) m := by
  induction l generalizing m with
  | nil => exact ⟨Nat.le_refl m, nofun⟩
  | cons a l ih =>
    obtain ⟨hm, hl⟩ := ih (max m (a.baseAddr + a.len))
    refine ⟨Nat.le_trans (Nat.le_max_left _ _) hm, fun e he => ?_⟩
    rcases List.mem_cons.1 he with rfl | he
    · exact Nat.le_trans (Nat.le_max_right _ _) hm
    · exact hl e he

/-- A frame inside a usable entry is one of the system. -/
theorem MemoryMap.Inside.lt (h : map.Inside f) : f < map.numSystemFrames := by
  obtain ⟨e, he, -, hcov⟩ := h
  have hmax := (le_foldl_max map.entries 0).2 e he
  obtain ⟨-, hend⟩ := MmapEntry.covers_iff.1 hcov
  unfold numSystemFrames
  omega

theorem loadNextMemory_spec (h : loadNextMemory l = some (l', placementFrame)) :
    ∃ e rest, l' = e :: rest ∧ l' <:+ l.tail ∧ e.isUseable = true ∧
      placementFrame = e.baseAddr / 0x1000 := by
  induction l with
  | nil => exact nomatch h
  | cons a l ih =>
    cases l with
    | nil => exact nomatch h
    | cons e l =>
      rw [loadNextMemory] at h
      split at h
      · next he =>
        obtain ⟨rfl, rfl⟩ := Prod.mk.inj (Option.some.inj h)
        exact ⟨e, l, rfl, List.suffix_refl _, he, rfl⟩
      · obtain ⟨e', rest, hl', hsuf, hu⟩ := ih h
        exact ⟨e', rest, hl', hsuf.trans (List.suffix_cons _ _), hu⟩

/-! ## Steps -/

namespace BootState

/-- What every step keeps. -/
structure Kept (s : BootState) : Prop where
  suffix : s.memoryMap <:+ s.map.entries
  above : 0x1000 ∣ s.kernelEnd → s.kernelEnd ≤ s.placementFrame * 0x1000
  early : ∀ f ∈ s.early, f < s.placementFrame ∧ s.map.Inside f ∧ s.kernelEnd ≤ f * 0x1000
  later : ∀ f ∈ s.later, s.placementFrame ≤ f ∧ s.map.Inside f ∧ s.kernelEnd ≤ f * 0x1000
  first : s.frames = none → s.later = []
  frames : ∀ fr, s.frames = some fr → fr.numSystemFrames = s.map.numSystemFrames ∧
    ∀ f, fr.used f = false → s.placementFrame ≤ f ∧ s.kernelEnd ≤ f * 0x1000 ∧
      (s.map.Inside f ∨ s.map.Tail f)

/-- The next early frame is not before the placement frame and lies inside a usable entry. -/
theorem Kept.placement (h : s.Kept) (hfit : s.EarlyFits)
    (hp : s.placement = some (l, placementFrame)) :
    l <:+ s.map.entries ∧ s.placementFrame ≤ placementFrame ∧ s.map.Inside placementFrame := by
  unfold BootState.placement at hp
  split at hp
  · exact nomatch hp
  · next cur rest hmap =>
    have hcur := hfit cur (by rw [hmap]; rfl)
    have hsuf := hmap ▸ h.suffix
    split at hp
    · next hend =>
      rw [if_pos hend] at hcur
      obtain ⟨e, rest', rfl, hsuf', hu, rfl⟩ := loadNextMemory_spec hp
      have hlen : 0x1000 ≤ e.len := hcur _ hp e rfl
      have hrest : e :: rest' <:+ rest := by
        rw [hmap] at hsuf'
        exact hsuf'
      have hent : e :: rest' <:+ s.map.entries := hrest.trans ((List.suffix_cons cur rest).trans hsuf)
      have hasc := s.map.ascending.sublist hsuf.sublist
      have hle := (List.pairwise_cons.1 hasc).1 e (hrest.subset List.mem_cons_self)
      have hbase := (MmapEntry.isUseable_iff.1 hu).2
      unfold MmapEntry.endFrame at hend
      refine ⟨hent, by omega, e, hent.subset List.mem_cons_self, hu, MmapEntry.covers_iff.2 ?_⟩
      exact ⟨by omega, by omega⟩
    · next hend =>
      rw [if_neg hend] at hcur
      obtain ⟨rfl, rfl⟩ := Prod.mk.inj (Option.some.inj hp)
      exact ⟨h.suffix, Nat.le_refl _, hcur⟩

theorem Kept.allocEarly (h : s.Kept) (hnone : s.frames = none) (hfit : BootFits s (.alloc cached))
    (hs : s.allocEarly = some s') : s'.Kept := by
  obtain ⟨halign, hfit⟩ := hfit hnone
  obtain ⟨⟨l, p⟩, hp, hs⟩ := Option.bind_eq_some_iff.1 hs
  obtain rfl := Option.some.inj hs
  obtain ⟨hsuf, hle, hinside⟩ := h.placement hfit hp
  have habove := h.above halign
  have hmul := Nat.le_trans habove (Nat.mul_le_mul_right 0x1000 hle)
  refine ⟨hsuf, fun _ => ?_, fun f hf => ?_, fun f hf => ?_, h.first, fun fr hfr => ?_⟩
  · exact Nat.le_trans habove (Nat.mul_le_mul_right _ (Nat.le_succ_of_le hle))
  · change f < p + 1 ∧ _
    rcases List.mem_cons.1 hf with rfl | hf
    · exact ⟨Nat.lt_succ_self f, hinside, hmul⟩
    · obtain ⟨hlt, hin⟩ := h.early f hf
      exact ⟨by omega, hin⟩
  · rw [h.first hnone] at hf
    cases hf
  · exact nomatch hnone.symm.trans hfr

theorem clears_iff : s.clears f = true ↔ ∃ e ∈ s.map.entries, e.isUseable = true ∧
    e.baseAddr / 0x1000 ≤ f ∧ f < e.lastFrame + 1 ∧ s.placementFrame ≤ f := by
  unfold clears
  simp only [List.any_eq_true, Bool.and_eq_true, decide_eq_true_eq]

theorem Kept.initPhysMem2 (h : s.Kept) (hfit : BootFits s .initPhysMem2) :
    ({ s with frames := some s.initFrames } : BootState).Kept := by
  obtain ⟨halign, hfit⟩ := hfit
  refine ⟨h.suffix, h.above, h.early, h.later, nofun, fun fr hfr => ?_⟩
  obtain rfl := Option.some.inj hfr
  refine ⟨rfl, fun f hf => ?_⟩
  obtain ⟨e, he, hu, hlo, hhi, hplace⟩ := clears_iff.1 ((Bool.not_eq_false' _).mp hf)
  have hmul : s.placementFrame * 0x1000 ≤ f * 0x1000 := Nat.mul_le_mul_right _ hplace
  refine ⟨hplace, Nat.le_trans (h.above halign) hmul, ?_⟩
  by_cases hlast : f = e.lastFrame
  · subst hlast
    exact hfit e he hu hplace
  · exact .inl ⟨e, he, hu, MmapEntry.covers_of_lt hu hlo (by omega)⟩

theorem Kept.allocLater (h : s.Kept) (hs : s.allocLater cached = some s') : s'.Kept := by
  obtain ⟨fr, hfr, hs⟩ := Option.bind_eq_some_iff.1 hs
  obtain ⟨hnum, hfree⟩ := h.frames fr hfr
  split at hs
  · next f fr' halloc =>
    obtain rfl := Option.some.inj hs
    obtain ⟨hused, hlt, -, rfl⟩ := Frames.allocSingle_spec halloc
    obtain ⟨hplace, habove, hin⟩ := hfree f hused
    have hin : s.map.Inside f := hin.resolve_right fun htail => by
      rw [hnum] at hlt
      exact absurd htail.1 (Nat.not_le_of_lt hlt)
    refine ⟨h.suffix, h.above, h.early, fun g hg => ?_, nofun, fun fr' hfr' => ?_⟩
    · rcases List.mem_cons.1 hg with rfl | hg
      · exact ⟨hplace, hin, habove⟩
      · exact h.later g hg
    · obtain rfl := Option.some.inj hfr'
      exact ⟨hnum, fun g hg => hfree g ((Bool.or_eq_false_iff ..).1 hg).1⟩
  · split at hs
    · next hmem =>
      obtain rfl := Option.some.inj hs
      refine ⟨h.suffix, h.above, h.early, fun g hg => ?_, fun hnone => ?_, h.frames⟩
      · rcases List.mem_cons.1 hg with rfl | hg
        · exact h.later g hmem
        · exact h.later g hg
      · exact nomatch hfr.symm.trans hnone
    · exact nomatch hs

theorem Kept.free (h : s.Kept) (hs : s.free frame = some s') : s'.Kept := by
  obtain ⟨fr, hfr, hs⟩ := Option.bind_eq_some_iff.1 hs
  obtain ⟨hnum, hfree⟩ := h.frames fr hfr
  split at hs
  · next hmem =>
    obtain ⟨fr', hfr', hs⟩ := Option.bind_eq_some_iff.1 hs
    obtain rfl := Option.some.inj hs
    unfold Frames.phmFreeFrame at hfr'
    split at hfr'
    · exact nomatch hfr'
    · obtain rfl := Option.some.inj hfr'
      refine ⟨h.suffix, h.above, h.early, h.later, nofun, fun fr' hfr' => ?_⟩
      obtain rfl := Option.some.inj hfr'
      refine ⟨hnum, fun g hg => ?_⟩
      obtain ⟨hplace, hin, habove⟩ := h.later frame hmem
      by_cases hgf : g = frame
      · rw [hgf]
        exact ⟨hplace, habove, .inl hin⟩
      · simp only [if_neg hgf] at hg
        exact hfree g hg
  · exact nomatch hs

theorem Kept.step {op : BootOp} (h : s.Kept) (hfit : BootFits s op) (hs : s.step op = some s') :
    s'.Kept := by
  cases op with
  | alloc cached =>
    rw [BootState.step] at hs
    split at hs
    · next hnone => exact h.allocEarly (Option.isNone_iff_eq_none.1 hnone) hfit hs
    · exact h.allocLater hs
  | initPhysMem2 =>
    rw [BootState.step] at hs
    split at hs
    · obtain rfl := Option.some.inj hs
      exact h.initPhysMem2 hfit
    · exact nomatch hs
  | free frame => exact h.free hs

theorem Kept.right (h : s.Kept) : s.Right where
  inside f hf := by
    rcases List.mem_append.1 hf with hf | hf
    · exact (h.early f hf).2
    · exact (h.later f hf).2
  once f hf hearly := by
    have hlt := (h.early f hearly).1
    have hle := (h.later f hf).1
    omega
  below fr hfr f hf := by
    rcases ((h.frames fr hfr).2 f hf).2.2 with hin | htail
    · exact hin.lt
    · exact htail.2

end BootState

theorem initPhysMem_kept {endAddr : ℕ} (h : initPhysMem map endAddr = some s) : s.Kept := by
  unfold initPhysMem at h
  simp only at h
  split at h
  · obtain rfl := Option.some.inj h
    refine ⟨List.suffix_refl _, fun hdvd => ?_, nofun, nofun, fun _ => rfl, nofun⟩
    change endAddr ≤ endAddr / 0x1000 * 0x1000
    exact (Nat.div_mul_cancel hdvd).ge
  · exact nomatch h

/-- 130 usable frames, and two reserved ones behind them. -/
def smallMap : MemoryMap where
  entries := [⟨0, 0x82000, 1⟩, ⟨0x82000, 0x2000, 2⟩]
  bounded := by decide
  ascending := by decide

/-- 128 usable frames; the reserved memory starts one frame behind them. -/
def holeMap : MemoryMap where
  entries := [⟨0, 0x80000, 1⟩, ⟨0x81000, 0x7F000, 2⟩]
  bounded := by decide
  ascending := by decide

end Glidix.PhysMem
