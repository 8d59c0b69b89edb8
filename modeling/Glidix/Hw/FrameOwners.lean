import Mathlib.Data.List.Perm.Subperm
import Glidix.Hw.PhmAlloc

/-!
# A frame has one owner

The allocator hands out frames that nobody else owns, frees only frames that it owns, and counts the used
ones right, as long as a call for two to eight frames finds a free group or the storage cache is empty:
otherwise `phmAlloc8` returns a single frame from the storage cache as if it were eight.
-/

namespace Glidix.PhysMem

variable {fr fr' : Frames} {initial : ℕ → Bool} {l l' : List ℕ} {f base count : ℕ}

/-! ## Owners of frames -/

/-- The bits are those after `initPhysMem2` and the frames of the list, which are counted. -/
structure Frames.Owns (fr : Frames) (initial : ℕ → Bool) (l : List ℕ) : Prop where
  nodup : l.Nodup
  new : ∀ f ∈ l, initial f = false
  below : ∀ f ∈ l, f < fr.numSystemFrames
  used : ∀ f, fr.used f = true ↔ initial f = true ∨ f ∈ l
  count : fr.phmUsedFrames = l.length

namespace Frames.Owns

theorem perm (h : fr.Owns initial l) (hl : l.Perm l') : fr.Owns initial l' where
  nodup := hl.nodup_iff.1 h.nodup
  new f hf := h.new f (hl.mem_iff.2 hf)
  below f hf := h.below f (hl.mem_iff.2 hf)
  used f := by rw [h.used, hl.mem_iff]
  count := by rw [h.count, hl.length_eq]

/-- Free frames are claimed. -/
theorem claim (h : fr.Owns initial l) (hfree : ∀ f ∈ List.range' base count, fr.used f = false)
    (hbelow : ∀ f ∈ List.range' base count, f < fr.numSystemFrames) :
    (fr.claim base count).Owns initial (List.range' base count ++ l) := by
  have hnot : ∀ f ∈ List.range' base count, ¬(initial f = true ∨ f ∈ l) := fun f hf hor => by
    have hused := (h.used f).2 hor
    rw [hfree f hf] at hused
    exact Bool.false_ne_true hused
  refine ⟨?_, fun f hf => ?_, fun f hf => ?_, fun f => ?_, ?_⟩
  · refine List.nodup_append.2 ⟨List.nodup_range', h.nodup, ?_⟩
    rintro f hf g hg rfl
    exact hnot f hf (.inr hg)
  · rcases List.mem_append.1 hf with hf | hf
    · exact Bool.eq_false_iff.2 fun hi => hnot f hf (.inl hi)
    · exact h.new f hf
  · rcases List.mem_append.1 hf with hf | hf
    · exact hbelow f hf
    · exact h.below f hf
  · rw [Frames.claim, Bool.or_eq_true, h.used, decide_eq_true_iff, List.mem_append, List.mem_range'_1]
    tauto
  · rw [Frames.claim, List.length_append, List.length_range', h.count, Int.natCast_add, Int.add_comm]

/-- A frame is freed by its owner. -/
theorem free (h : fr.Owns initial (f :: l)) (hfree : fr.phmFreeFrame f = some fr') :
    fr'.Owns initial l := by
  unfold Frames.phmFreeFrame at hfree
  split at hfree
  · exact nomatch hfree
  · obtain rfl := Option.some.inj hfree
    obtain ⟨hf, hnodup⟩ := List.nodup_cons.1 h.nodup
    refine ⟨hnodup, fun g hg => h.new g (List.mem_cons_of_mem _ hg),
      fun g hg => h.below g (List.mem_cons_of_mem _ hg), fun g => ?_, ?_⟩
    · by_cases hg : g = f
      · subst hg
        have hnew := h.new g List.mem_cons_self
        simp [hnew, hf]
      · change (if g = f then false else fr.used g) = true ↔ _
        rw [if_neg hg, h.used, List.mem_cons]
        simp only [hg, false_or]
    · have hcount := h.count
      rw [List.length_cons] at hcount
      push_cast at hcount ⊢
      omega

theorem freeAll {fs : List ℕ} (h : fr.Owns initial (fs ++ l))
    (hfree : fs.foldlM Frames.phmFreeFrame fr = some fr') : fr'.Owns initial l := by
  induction fs generalizing fr with
  | nil =>
    obtain rfl := Option.some.inj hfree
    exact h
  | cons f fs ih =>
    rw [List.foldlM_cons] at hfree
    obtain ⟨fr'', hf, hfree⟩ := Option.bind_eq_some_iff.1 hfree
    exact ih (h.free hf) hfree

end Frames.Owns

/-! ## The searches of the bitmap -/

namespace Frames

theorem groupFree_spec {size i : ℕ} (h : fr.groupFree size i = true) :
    ∀ f ∈ List.range' (size * i) size, fr.used f = false := by
  intro f hf
  rw [List.mem_range'_1] at hf
  have hall := List.all_eq_true.1 h (f - size * i) (List.mem_range.2 (by omega))
  rw [Nat.add_sub_cancel' hf.1] at hall
  simpa using hall

theorem group_below {size i f : ℕ} (hi : i < fr.numSystemFrames / size)
    (hf : f ∈ List.range' (size * i) size) : f < fr.numSystemFrames := by
  rw [List.mem_range'_1] at hf
  have hmul : size * (i + 1) ≤ size * (fr.numSystemFrames / size) := Nat.mul_le_mul_left _ hi
  have hdiv := Nat.mul_div_le fr.numSystemFrames size
  rw [Nat.mul_succ] at hmul
  omega

theorem Owns.allocSingle (h : fr.Owns initial l) (ha : fr.allocSingle = some (f, fr')) :
    fr'.Owns initial (f :: l) := by
  obtain ⟨hfree, hlt, -, rfl⟩ := allocSingle_spec ha
  have hrange : List.range' f 1 = [f] := rfl
  refine h.claim (fun g hg => ?_) (fun g hg => ?_)
  · rw [hrange, List.mem_singleton] at hg
    rwa [hg]
  · rw [hrange, List.mem_singleton] at hg
    omega

theorem Owns.alloc8 (h : fr.Owns initial l) (ha : fr.alloc8 = some (base, fr')) :
    fr'.Owns initial (List.range' base 8 ++ l) := by
  unfold Frames.alloc8 at ha
  split at ha
  · exact nomatch ha
  · obtain ⟨i, hi, ha⟩ := Option.map_eq_some_iff.1 ha
    obtain ⟨rfl, rfl⟩ := Prod.mk.inj ha
    obtain ⟨-, hlt, hgroup⟩ := findFrom_spec hi
    exact h.claim (groupFree_spec hgroup) fun f hf => group_below hlt hf

theorem Owns.allocGroup {size : ℕ} (h : fr.Owns initial l)
    (ha : fr.allocGroup size = some (base, fr')) :
    fr'.Owns initial (List.range' base size ++ l) := by
  obtain ⟨i, hi, ha⟩ := Option.map_eq_some_iff.1 ha
  obtain ⟨rfl, rfl⟩ := Prod.mk.inj ha
  obtain ⟨-, hlt, hgroup⟩ := findFrom_spec hi
  exact h.claim (groupFree_spec hgroup) fun f hf => group_below hlt hf

end Frames

/-! ## The state of the allocator -/

namespace PhmState

variable {s s' : PhmState} {choice : Choice} {hand : List ℕ}

def holders (s : PhmState) : List ℕ := s.owned ++ s.pages ++ s.tracks.flatMap Track.frames

/-- The caches and the callers own the frames, together with a running call that has some in hand. -/
structure Kept (s : PhmState) (hand : List ℕ) : Prop where
  owns : s.frames.Owns s.initial (hand ++ s.holders)
  stray : s.stray = []

theorem count_hand_holders (f : ℕ) : (hand ++ s.holders).count f =
    hand.count f + s.owned.count f + s.pages.count f + (s.tracks.flatMap Track.frames).count f := by
  simp only [holders, List.count_append]
  omega

theorem Kept.regroup {hand' : List ℕ} (h : s.Kept hand) (hframes : s'.frames = s.frames)
    (hinitial : s'.initial = s.initial) (hstray : s'.stray = s.stray)
    (hl : ∀ f, (hand ++ s.holders).count f = (hand' ++ s'.holders).count f) : s'.Kept hand' where
  owns := by
    rw [hframes, hinitial]
    exact h.owns.perm (List.perm_iff_count.2 hl)
  stray := hstray.trans h.stray

/-! ## The caches -/

theorem ftGetFreePage_kept {f : ℕ} (h : s.Kept hand) (hf : s.ftGetFreePage choice = (f, s')) :
    if f = 0 then s' = s else s'.Kept (f :: hand) ∧ s'.tracks = s.tracks := by
  unfold ftGetFreePage at hf
  split at hf
  · obtain ⟨rfl, rfl⟩ := Prod.mk.inj hf
    exact rfl
  · split at hf
    · next hpage =>
      obtain ⟨rfl, rfl⟩ := Prod.mk.inj hf
      rw [if_neg hpage.1]
      refine ⟨h.regroup rfl rfl rfl fun a => ?_, rfl⟩
      have hcount := (List.perm_cons_erase hpage.2).count_eq a
      rw [count_hand_holders, count_hand_holders, hcount]
      simp only [List.count_cons]
      omega
    · obtain ⟨rfl, rfl⟩ := Prod.mk.inj hf
      exact rfl

theorem sdFreeMemory_kept {f : ℕ} (h : s.Kept hand) (hf : s.sdFreeMemory choice = some (f, s')) :
    if f = 0 then s' = s else s'.Kept (f :: hand) := by
  unfold sdFreeMemory at hf
  simp only at hf
  split at hf
  · obtain ⟨rfl, rfl⟩ := Prod.mk.inj (Option.some.inj hf)
    exact rfl
  · next t ht =>
    obtain ⟨frames, hframes, hf⟩ := Option.bind_eq_some_iff.1 hf
    obtain ⟨rfl, rfl⟩ := Prod.mk.inj (Option.some.inj hf)
    rw [if_neg t.first_ne]
    obtain ⟨hlt, rfl⟩ := List.getElem?_eq_some_iff.1 ht
    refine ⟨Frames.Owns.freeAll (h.owns.perm (List.perm_iff_count.2 fun a => ?_)) hframes, h.stray⟩
    have hcount := ((List.getElem_cons_eraseIdx_perm hlt).flatMap_right Track.frames).count_eq a
    rw [List.flatMap_cons, List.count_append] at hcount
    rw [count_hand_holders, List.count_append, count_hand_holders, ← hcount]
    simp only [Track.frames, List.count_cons]
    omega

theorem sdFreeMemory_of_empty {f : ℕ} (h : s.tracks = []) (hf : s.sdFreeMemory choice = some (f, s')) :
    f = 0 ∧ s' = s := by
  unfold sdFreeMemory at hf
  simp only [h, List.getElem?_nil] at hf
  obtain ⟨rfl, rfl⟩ := Prod.mk.inj (Option.some.inj hf)
  exact ⟨rfl, rfl⟩

theorem frameFromCache_kept {f : ℕ} (h : s.Kept hand) (hf : s.frameFromCache choice = some (f, s')) :
    if f = 0 then s' = s else s'.Kept (f :: hand) := by
  unfold frameFromCache at hf
  obtain ⟨⟨g, s₁⟩, hg⟩ : ∃ r, s.ftGetFreePage choice = r := ⟨_, rfl⟩
  have hpage := ftGetFreePage_kept h hg
  simp only [hg] at hf
  split at hf
  · next hzero =>
    rw [if_pos hzero] at hpage
    subst hpage
    exact sdFreeMemory_kept h hf
  · next hnz =>
    obtain ⟨rfl, rfl⟩ := Prod.mk.inj (Option.some.inj hf)
    rw [if_neg hnz] at hpage ⊢
    exact hpage.1

/-- What `tryFreeMemory` frees was in a cache. -/
theorem tryFreeMemory_kept {freed : Bool} (h : s.Kept hand)
    (hf : s.tryFreeMemory choice = some (freed, s')) : s'.Kept hand := by
  obtain ⟨⟨f, s₁⟩, hs₁, hf⟩ := Option.bind_eq_some_iff.1 hf
  have hcache := frameFromCache_kept h hs₁
  simp only at hf
  split at hf
  · next hzero =>
    obtain ⟨-, rfl⟩ := Prod.mk.inj (Option.some.inj hf)
    rw [if_pos hzero] at hcache
    rwa [hcache]
  · next hnz =>
    obtain ⟨frames, hframes, hf⟩ := Option.bind_eq_some_iff.1 hf
    obtain ⟨-, rfl⟩ := Prod.mk.inj (Option.some.inj hf)
    rw [if_neg hnz] at hcache
    exact ⟨hcache.owns.free hframes, hcache.stray⟩

/-- Without a track, `tryFreeMemory` leaves the storage cache empty. -/
theorem tryFreeMemory_tracks {freed : Bool} (h : s.Kept hand) (hempty : s.tracks = [])
    (hf : s.tryFreeMemory choice = some (freed, s')) : s'.tracks = [] := by
  obtain ⟨⟨f, s₁⟩, hs₁, hf⟩ := Option.bind_eq_some_iff.1 hf
  have htracks : s₁.tracks = [] := by
    unfold frameFromCache at hs₁
    obtain ⟨⟨g, s₂⟩, hg⟩ : ∃ r, s.ftGetFreePage choice = r := ⟨_, rfl⟩
    have hpage := ftGetFreePage_kept h hg
    simp only [hg] at hs₁
    split at hs₁
    · next hzero =>
      rw [if_pos hzero] at hpage
      subst hpage
      rw [(sdFreeMemory_of_empty hempty hs₁).2, hempty]
    · next hnz =>
      obtain ⟨-, rfl⟩ := Prod.mk.inj (Option.some.inj hs₁)
      rw [if_neg hnz] at hpage
      rw [hpage.2, hempty]
  simp only at hf
  split at hf
  · obtain ⟨-, rfl⟩ := Prod.mk.inj (Option.some.inj hf)
    exact htracks
  · obtain ⟨frames, -, hf⟩ := Option.bind_eq_some_iff.1 hf
    obtain ⟨-, rfl⟩ := Prod.mk.inj (Option.some.inj hf)
    exact htracks

/-! ## The calls -/

theorem Kept.claimed {frames : Frames} (h : s.Kept hand) {fs : List ℕ}
    (howns : frames.Owns s.initial (fs ++ (hand ++ s.holders))) :
    Kept { s with frames } (fs ++ hand) where
  owns := (List.append_assoc fs hand s.holders).symm ▸ howns
  stray := h.stray

theorem phmAllocSingle_kept {f : ℕ} {claimed : List ℕ} (h : s.Kept [])
    (hs : s.phmAllocSingle choice = some (f, claimed, s')) : s'.Kept [f] := by
  unfold phmAllocSingle at hs
  split at hs
  · next g frames hsome =>
    obtain ⟨rfl, -, rfl⟩ := by simpa only [Option.some.injEq, Prod.mk.injEq] using hs
    have howns := h.owns.allocSingle hsome
    exact ⟨howns, h.stray⟩
  · obtain ⟨⟨g, s₁⟩, hs₁, hs⟩ := Option.bind_eq_some_iff.1 hs
    have hcache := frameFromCache_kept h hs₁
    simp only at hs
    split at hs
    · exact nomatch hs
    · next hnz =>
      obtain ⟨rfl, -, rfl⟩ := by simpa only [Option.some.injEq, Prod.mk.injEq] using hs
      rwa [if_neg hnz] at hcache

/-- There is a free group of eight frames, or the storage cache has no track to give. -/
def Eight (s : PhmState) : Prop := s.frames.alloc8.isSome = true ∨ s.tracks = []

instance : Decidable s.Eight := inferInstanceAs (Decidable (_ ∨ _))

/-- Induction on the fuel: without a track the loop frees pages until there is a free group. -/
theorem phmAlloc8_kept {fuel : ℕ} {claimed : List ℕ} (h : s.Kept []) (height : s.Eight)
    (hs : phmAlloc8 choice fuel s = some (base, claimed, s')) :
    claimed = List.range' base 8 ∧ s'.Kept (List.range' base 8) := by
  induction fuel generalizing s with
  | zero => exact nomatch hs
  | succ fuel ih =>
    rw [phmAlloc8] at hs
    split at hs
    · next b frames hsome =>
      obtain ⟨rfl, rfl, rfl⟩ := by simpa only [Option.some.injEq, Prod.mk.injEq] using hs
      refine ⟨rfl, ?_⟩
      have hkept := h.claimed (h.owns.alloc8 hsome)
      rwa [List.append_nil] at hkept
    · next hnone =>
      have hempty : s.tracks = [] := height.resolve_left (by simp [hnone])
      obtain ⟨⟨f, s₁⟩, hs₁, hrest⟩ := Option.bind_eq_some_iff.1 hs
      obtain ⟨rfl, rfl⟩ := sdFreeMemory_of_empty hempty hs₁
      simp only [if_true] at hrest
      obtain ⟨⟨freed, s₂⟩, hs₂, hrest⟩ := Option.bind_eq_some_iff.1 hrest
      simp only at hrest
      split at hrest
      · exact ih (tryFreeMemory_kept h hs₂) (.inr (tryFreeMemory_tracks h hempty hs₂)) hrest
      · exact nomatch hrest

theorem phmAllocGroup_kept {size fuel : ℕ} {claimed : List ℕ} (h : s.Kept [])
    (hs : phmAllocGroup choice size fuel s = some (base, claimed, s')) :
    claimed = List.range' base size ∧ s'.Kept (List.range' base size) := by
  induction fuel generalizing s with
  | zero => exact nomatch hs
  | succ fuel ih =>
    rw [phmAllocGroup] at hs
    split at hs
    · next b frames hsome =>
      obtain ⟨rfl, rfl, rfl⟩ := by simpa only [Option.some.injEq, Prod.mk.injEq] using hs
      refine ⟨rfl, ?_⟩
      have hkept := h.claimed (h.owns.allocGroup hsome)
      rwa [List.append_nil] at hkept
    · obtain ⟨⟨freed, s₂⟩, hs₂, hs⟩ := Option.bind_eq_some_iff.1 hs
      simp only at hs
      split at hs
      · exact ih (tryFreeMemory_kept h hs₂) hs
      · exact nomatch hs

theorem Kept.handOut (h : s.Kept (List.range' base count)) : (s.handOut base count).Kept [] where
  owns := by
    have howns := h.owns
    simp only [holders, ← List.append_assoc] at howns
    simpa only [holders, PhmState.handOut, List.nil_append] using howns
  stray := h.stray

/-- The surplus frames of a group are freed. -/
theorem Kept.giveBack {size : ℕ} {frames : Frames} (h : s.Kept (List.range' base size)) (hle : count ≤ size)
    (hfrees : (List.range' (base + count) (size - count)).foldlM Frames.phmFreeFrame s.frames =
      some frames) :
    ({ s with
        frames
        stray := (List.range' (base + count) (size - count)).filter (· ∉ List.range' base size) ++
          s.stray } : PhmState).Kept (List.range' base count) where
  owns := by
    have hsplit : List.range' base size =
        List.range' base count ++ List.range' (base + count) (size - count) := by
      rw [List.range'_append_1, Nat.add_sub_cancel' hle]
    refine Frames.Owns.freeAll (h.owns.perm (List.perm_iff_count.2 fun f => ?_)) hfrees
    simp only [holders, hsplit, List.count_append]
    omega
  stray := by
    rw [h.stray, List.append_nil, List.filter_eq_nil_iff]
    intro f hf
    rw [List.mem_range'_1] at hf
    have hmem : f ∈ List.range' base size := List.mem_range'_1.2 (by omega)
    simp only [hmem, not_true_eq_false, decide_false, Bool.false_eq_true, not_false_eq_true]

theorem groupSize_spec {size : ℕ} (h : groupSize count = some size) :
    count ≤ size ∧ (size = 8 → count ≤ 8) := by
  unfold groupSize at h
  split_ifs at h with h64 h32 h16 h8
  all_goals
    obtain rfl := Option.some.inj h
    omega

theorem phmAllocFrameEx_kept {fuel : ℕ} (h : s.Kept []) (height : 2 ≤ count → count ≤ 8 → s.Eight)
    (hs : s.phmAllocFrameEx choice fuel count = some (base, s')) : s'.Kept [] := by
  unfold phmAllocFrameEx at hs
  split at hs
  · obtain ⟨-, rfl⟩ := Prod.mk.inj (Option.some.inj hs)
    exact h
  · next hzero =>
    split at hs
    · obtain ⟨⟨f, claimed, s₁⟩, hs₁, hs⟩ := Option.map_eq_some_iff.1 hs
      obtain ⟨-, rfl⟩ := Prod.mk.inj hs
      exact (phmAllocSingle_kept h hs₁).handOut
    · next hone =>
      obtain ⟨size, hsize, hs⟩ := Option.bind_eq_some_iff.1 hs
      obtain ⟨hle, h8⟩ := groupSize_spec hsize
      obtain ⟨⟨b, claimed, s₁⟩, hs₁, hs⟩ := Option.bind_eq_some_iff.1 hs
      have hclaimed : claimed = List.range' b size ∧ s₁.Kept (List.range' b size) := by
        unfold phmAllocSize at hs₁
        split at hs₁
        · next hsize =>
          rw [hsize]
          exact phmAlloc8_kept h (height (by omega) (h8 hsize)) hs₁
        · exact phmAllocGroup_kept h hs₁
      obtain ⟨rfl, hkept⟩ := hclaimed
      obtain ⟨frames, hframes, hs⟩ := Option.bind_eq_some_iff.1 hs
      obtain ⟨rfl, rfl⟩ := Prod.mk.inj (Option.some.inj hs)
      exact (hkept.giveBack hle hframes).handOut

/-- Frames without duplicates are taken out of a list that holds them. -/
theorem count_diff {fs l : List ℕ} (hnodup : fs.Nodup) (hmem : ∀ f ∈ fs, f ∈ l) (f : ℕ) :
    l.count f = fs.count f + (l.diff fs).count f := by
  have hperm : (fs ++ l.diff fs).Perm l := List.subperm_append_diff_self_of_count_le fun g hg => by
    rw [hnodup.count, if_pos hg]
    exact List.count_pos_iff.2 (hmem g hg)
  rw [← hperm.count_eq f, List.count_append]

theorem phmFreeFrameEx_kept {start : ℕ} (h : s.Kept []) (hs : s.phmFreeFrameEx start count = some s') :
    s'.Kept [] := by
  unfold phmFreeFrameEx at hs
  split at hs
  · next hmem =>
    obtain ⟨frames, hframes, hs⟩ := Option.bind_eq_some_iff.1 hs
    obtain rfl := Option.some.inj hs
    refine ⟨Frames.Owns.freeAll (h.owns.perm (List.perm_iff_count.2 fun f => ?_)) hframes, h.stray⟩
    have hcount := count_diff List.nodup_range' hmem f
    rw [count_hand_holders, List.count_append, count_hand_holders, hcount]
    simp only [List.count_nil]
    omega
  · exact nomatch hs

theorem cachePage_kept {f : ℕ} (h : s.Kept []) (hs : s.step (.cachePage f) = some s') : s'.Kept [] := by
  rw [step] at hs
  split at hs
  · next hmem =>
    obtain rfl := Option.some.inj hs
    refine h.regroup rfl rfl rfl fun a => ?_
    have hcount := (List.perm_cons_erase hmem).count_eq a
    rw [count_hand_holders, count_hand_holders, hcount]
    simp only [List.count_cons]
    omega
  · exact nomatch hs

theorem uncachePage_kept {f : ℕ} (h : s.Kept []) (hs : s.step (.uncachePage f) = some s') :
    s'.Kept [] := by
  rw [step] at hs
  split at hs
  · next hmem =>
    obtain rfl := Option.some.inj hs
    refine h.regroup rfl rfl rfl fun a => ?_
    have hcount := (List.perm_cons_erase hmem).count_eq a
    rw [count_hand_holders, count_hand_holders, hcount]
    simp only [List.count_cons]
    omega
  · exact nomatch hs

theorem cacheTrack_kept {t : Track} (h : s.Kept []) (hs : s.step (.cacheTrack t) = some s') :
    s'.Kept [] := by
  rw [step] at hs
  split at hs
  · next hmem =>
    obtain rfl := Option.some.inj hs
    refine h.regroup rfl rfl rfl fun a => ?_
    rw [count_hand_holders, count_hand_holders, count_diff hmem.1 hmem.2 a]
    simp only [List.flatMap_cons, List.count_append]
    omega
  · exact nomatch hs

end PhmState

variable {s s' : PhmState}

/-- A call for two to eight frames finds a group, or the storage cache is empty. -/
def PhmFits (s : PhmState) : PhmOp → Prop
  | .alloc _ _ count => 2 ≤ count → count ≤ 8 → s.Eight
  | _ => True

instance : DecidableRel PhmFits := fun _ op => by
  cases op <;> unfold PhmFits <;> infer_instance

namespace PhmState

theorem Kept.step {op : PhmOp} (h : s.Kept []) (hfit : PhmFits s op) (hs : s.step op = some s') :
    s'.Kept [] := by
  cases op with
  | alloc choice fuel count =>
    obtain ⟨⟨base, s₁⟩, hs₁, rfl⟩ := Option.map_eq_some_iff.1 hs
    exact phmAllocFrameEx_kept h hfit hs₁
  | free start count => exact phmFreeFrameEx_kept h hs
  | cachePage f => exact cachePage_kept h hs
  | uncachePage f => exact uncachePage_kept h hs
  | cacheTrack t => exact cacheTrack_kept h hs

/-- A frame has one owner, the allocator has freed only frames that it owned, and the used frames are
counted. -/
structure Right (s : PhmState) : Prop where
  one_owner : s.holders.Nodup
  used : ∀ f ∈ s.holders, s.frames.used f = true ∧ s.initial f = false
  own_freed : s.stray = []
  counted : s.frames.phmUsedFrames =
    (List.range s.frames.numSystemFrames).countP fun f => s.frames.used f && !s.initial f

theorem Kept.right (h : s.Kept []) : s.Right where
  one_owner := h.owns.nodup
  used f hf := ⟨(h.owns.used f).2 (.inr hf), h.owns.new f hf⟩
  own_freed := h.stray
  counted := by
    have hperm : (List.range s.frames.numSystemFrames).filter
        (fun f => s.frames.used f && !s.initial f) |>.Perm s.holders := by
      refine (List.perm_ext_iff_of_nodup (List.nodup_range.filter _) h.owns.nodup).2 fun f => ?_
      rw [List.mem_filter, List.mem_range, Bool.and_eq_true, h.owns.used, Bool.not_eq_true']
      constructor
      · rintro ⟨-, hused, hnew⟩
        exact hused.resolve_left (by simp [hnew])
      · intro hf
        exact ⟨h.owns.below f hf, .inr hf, h.owns.new f hf⟩
    rw [h.owns.count, List.countP_eq_length_filter, hperm.length_eq]
    rfl

end PhmState

theorem phmInit_kept (b : BootState) : b.phmInit.Kept [] :=
  ⟨⟨List.nodup_nil, nofun, nofun, fun _ => (or_iff_left List.not_mem_nil).symm, rfl⟩, rfl⟩

/-- In every run that meets the condition frames have one owner. -/
theorem frames_have_one_owner (h : phmSystem.ReachesBy PhmFits s) : s.Right :=
  (h.invariant (fun _ ⟨b, _, hb⟩ => hb ▸ phmInit_kept b) fun _ _ _ hk hfit hs => hk.step hfit hs).right

/-- 144 usable frames behind a kernel of 65. -/
def pressureMap : MemoryMap where
  entries := [⟨0, 0x90000, 1⟩]
  bounded := by decide
  ascending := by decide

def pressureBoot : BootState := ⟨pressureMap, 0x41000, pressureMap.entries, 0x41, none, [], []⟩

/-- The caches give their first page, and their first track. -/
def firstChoice : Choice := ⟨List.head?, fun _ => 0⟩

theorem pressureBoot_reachable : bootSystem.Reachable pressureBoot :=
  .init ⟨pressureMap, 0x41000, rfl⟩

theorem frames_have_one_owner_twenty : ∃ s : PhmState,
    s.owned = [72, 73, 74] ++ List.range' 101 15 ∧ s.pages = [65] ∧ s.Right := by
  have hrun : (System.execBy PhmFits PhmState.step pressureBoot.phmInit
      [.alloc firstChoice 1 1, .alloc firstChoice 1 20, .alloc firstChoice 1 3, .cachePage 65,
        .free 96 5]).any
      (fun s : PhmState => s.owned = [72, 73, 74] ++ List.range' 101 15 ∧ s.pages = [65]) = true := by
    decide
  obtain ⟨s, hs, hlists⟩ := (Option.any_eq_true ..).1 hrun
  obtain ⟨howned, hpages⟩ := of_decide_eq_true hlists
  exact ⟨s, howned, hpages, frames_have_one_owner
    (System.ReachesBy.execBy (fun _ _ _ h => h) (.init ⟨_, pressureBoot_reachable, rfl⟩) hs)⟩

/-- Eight frames become a track of the storage cache, and eight groups are taken. -/
def pressureOps : List PhmOp :=
  List.replicate 8 (.alloc firstChoice 1 1) ++
    .cacheTrack ⟨65, [66, 67, 68, 69, 70, 71, 72], rfl, by decide⟩ ::
    List.replicate 8 (.alloc firstChoice 1 8)

/-- Two frames are asked for: one of the track comes back, and its seven others are freed twice or handed
out while they are free. -/
theorem track_returned_as_group : ∃ s s', phmSystem.Reachable s ∧ phmSystem.Reachable s' ∧
    s.phmAllocFrameEx firstChoice 1 2 = some (65, s') ∧ s'.frames.used 66 = false ∧
      s'.stray = [67, 68, 69, 70, 71, 72] ∧ ¬s'.Right := by
  have hrun : (pressureOps.foldlM PhmState.step pressureBoot.phmInit).any (fun s : PhmState =>
      (s.phmAllocFrameEx firstChoice 1 2).any (fun r =>
        decide (r.1 = 65 ∧ r.2.frames.used 66 = false ∧
          r.2.stray = [67, 68, 69, 70, 71, 72]))) = true := by
    decide
  obtain ⟨s, hs, hrun⟩ := (Option.any_eq_true ..).1 hrun
  obtain ⟨⟨base, s'⟩, hs', hrun⟩ := (Option.any_eq_true ..).1 hrun
  obtain ⟨hbase, hfree, hstray⟩ := of_decide_eq_true hrun
  simp only at hbase hfree hstray
  subst hbase
  have hreach : phmSystem.Reachable s := System.ReachesBy.foldlM (fun _ _ _ h => ⟨trivial, h⟩)
    (.init ⟨_, pressureBoot_reachable, rfl⟩) hs
  refine ⟨s, s', hreach, ?_, hs', hfree, hstray, fun h => ?_⟩
  · refine .step (a := PhmOp.alloc firstChoice 1 2) hreach trivial ?_
    change (s.phmAllocFrameEx firstChoice 1 2).map Prod.snd = some s'
    rw [hs', Option.map_some]
  · have hnil := h.own_freed
    rw [hstray] at hnil
    exact nomatch hnil

end Glidix.PhysMem
