import Glidix.Lib.Gather
import Glidix.Vm.PageInfo

/-!
# The reference counts of frames

Every frame that is in use has an owner: somebody who holds a reference, a file tree, or a page
table.  The word of a frame counts the references, and has the flag `PI_CACHE` if it is in a file tree;
`phmCachedFrames` counts the frames in the trees without a reference.  Eviction leaves the flag of the
frame set until the frame gets a new word.
-/

namespace Glidix.Pages

/-! ## Words -/

section Word

variable {w : ℕ}

theorem refcount_incWord (h : refcount w + 1 < 2 ^ 32) : refcount (incWord w) = refcount w + 1 := by
  unfold refcount incWord at *
  omega

theorem isSet_incWord (h : refcount w + 1 < 2 ^ 32) :
    isSet PI_CACHE (incWord w) = isSet PI_CACHE w := by
  unfold refcount at h
  unfold isSet incWord PI_CACHE
  rw [decide_eq_decide]
  omega

theorem refcount_decWord (h : 0 < refcount w) : refcount (decWord w) = refcount w - 1 := by
  unfold refcount decWord at *
  omega

theorem isSet_decWord (h : 0 < refcount w) : isSet PI_CACHE (decWord w) = isSet PI_CACHE w := by
  unfold refcount at h
  unfold isSet decWord PI_CACHE
  rw [decide_eq_decide]
  omega

/-- The flags above `PI_CACHE` do not touch what is below. -/
theorem setFlag_spec {flag : ℕ} (hflag : flag = PI_DIRTY ∨ flag = PI_ACCESSED) :
    refcount (setFlag flag w) = refcount w ∧ isSet PI_CACHE (setFlag flag w) = isSet PI_CACHE w := by
  unfold setFlag
  split_ifs
  · exact ⟨rfl, rfl⟩
  · unfold refcount isSet PI_CACHE
    rw [decide_eq_decide]
    unfold PI_DIRTY PI_ACCESSED at hflag
    omega

theorem clearFlag_dirty : refcount (clearFlag PI_DIRTY w) = refcount w ∧
    isSet PI_CACHE (clearFlag PI_DIRTY w) = isSet PI_CACHE w := by
  unfold clearFlag
  split_ifs with hset
  · unfold isSet PI_DIRTY at hset
    have hset := of_decide_eq_true hset
    unfold refcount isSet PI_CACHE PI_DIRTY
    rw [decide_eq_decide]
    omega
  · exact ⟨rfl, rfl⟩

theorem clearFlag_cache : refcount (clearFlag PI_CACHE w) = refcount w ∧
    isSet PI_CACHE (clearFlag PI_CACHE w) = false := by
  unfold clearFlag
  split_ifs with hset
  · unfold isSet PI_CACHE at hset
    have hset := of_decide_eq_true hset
    unfold refcount isSet PI_CACHE
    rw [decide_eq_false_iff_not]
    omega
  · exact ⟨rfl, Bool.eq_false_iff.2 hset⟩

end Word

/-! ## Owners -/

/-- The words count the references `R`, and are flagged for the frames `C` of the file trees. -/
structure Words (entries : ℕ → ℕ) (R C : Multiset ℕ) : Prop where
  counts : ∀ f, refcount (entries f) = R.count f
  flagged : ∀ f ∈ C, isSet PI_CACHE (entries f) = true
  plain : ∀ f, f ∉ C → f ∈ R → isSet PI_CACHE (entries f) = false

variable {R R' C C' T : Multiset ℕ} {f : ℕ}

theorem Words.update {entries : ℕ → ℕ} (h : Words entries R C) {w : ℕ} (hcount : refcount w = R'.count f)
    (hrefs : ∀ g, g ≠ f → R'.count g = R.count g) (hcaches : ∀ g, g ≠ f → (g ∈ C' ↔ g ∈ C))
    (hflag : f ∈ C' → isSet PI_CACHE w = true)
    (hplain : f ∉ C' → f ∈ R' → isSet PI_CACHE w = false) :
    Words (Function.update entries f w) R' C' := by
  refine ⟨fun g => ?_, fun g hg => ?_, fun g hg hr => ?_⟩ <;> obtain rfl | hne := eq_or_ne g f
  · rw [Function.update_self, hcount]
  · rw [Function.update_of_ne hne, h.counts, hrefs g hne]
  · rw [Function.update_self, hflag hg]
  · rw [Function.update_of_ne hne, h.flagged g ((hcaches g hne).1 hg)]
  · rw [Function.update_self, hplain hg hr]
  · rw [Function.update_of_ne hne]
    rw [← Multiset.count_pos, hrefs g hne, Multiset.count_pos] at hr
    exact h.plain g (fun hc => hg ((hcaches g hne).2 hc)) hr

/-- A frame was given back when it was in use and had no references; it was not cached, unless it was a
page table or evicted. -/
def Freed.Right (e : Freed) : Prop := e.used = true ∧ refcount e.info = 0 ∧
  (e.site = .piDecref ∨ e.site = .piUncache → isSet PI_CACHE e.info = false)

/-- The number of frames of `C` without a reference. -/
def idleCount (R C : Multiset ℕ) : ℕ := C.countP (· ∉ R)

/-- `R` are the references, `C` the frames of the file trees, and `T` frames with another owner. -/
structure Phm.Kept (m : Phm) (R C T : Multiset ℕ) : Prop where
  words : Words m.entries R C
  nodup : C.Nodup
  used : ∀ f, m.frameBitmap f = true ↔ f ∈ R ∨ f ∈ C ∨ f ∈ T
  own : T.Nodup
  apart : ∀ f ∈ T, f ∉ R ∧ f ∉ C
  idle : m.phmCachedFrames = idleCount R C
  freed : ∀ e ∈ m.freed, e.Right
  evicted : ∀ e ∈ m.evicted, refcount e.2 = 0

/-! ### The number of idle frames -/

theorem idleCount_cons_of_notMem (hr : f ∉ R) : idleCount R (f ::ₘ C) = idleCount R C + 1 :=
  Multiset.countP_cons_of_pos C (p := (· ∉ R)) hr

theorem idleCount_cons_of_mem (hr : f ∈ R) : idleCount R (f ::ₘ C) = idleCount R C :=
  Multiset.countP_cons_of_neg C (p := (· ∉ R)) (not_not.2 hr)

/-- Another reference changes nothing. -/
theorem idleCount_busy (hf : f ∈ C → f ∈ R) : idleCount (f ::ₘ R) C = idleCount R C := by
  refine Multiset.countP_congr rfl fun g hg => ?_
  obtain rfl | hne := eq_or_ne g f
  · simp [hf hg]
  · simp [hne]

/-- An idle frame gets a reference. -/
theorem idleCount_wake (hnodup : C.Nodup) (hf : f ∈ C) (hr : f ∉ R) :
    idleCount R C = idleCount (f ::ₘ R) C + 1 := by
  obtain ⟨C', rfl⟩ := Multiset.exists_cons_of_mem hf
  obtain ⟨hf', -⟩ := Multiset.nodup_cons.1 hnodup
  rw [idleCount_cons_of_notMem hr, idleCount_cons_of_mem (Multiset.mem_cons_self f R),
    idleCount_busy fun hf => absurd hf hf']

namespace Phm

variable {m : Phm}

theorem setInfo_entries_self {w : ℕ} : (m.setInfo f w).entries f = w := Function.update_self ..

theorem Kept.count (h : m.Kept R C T) (f : ℕ) : refcount (m.entries f) = R.count f := h.words.counts f

theorem Kept.not_mem_own (h : m.Kept R C T) (hf : f ∈ R ∨ f ∈ C) : f ∉ T := fun ht =>
  hf.elim (h.apart f ht).1 (h.apart f ht).2

/-- The flags of a word change, but not `PI_CACHE`. -/
theorem Kept.mark (h : m.Kept R C T) {w : ℕ} (hcount : refcount w = refcount (m.entries f))
    (hset : isSet PI_CACHE w = isSet PI_CACHE (m.entries f)) : (m.setInfo f w).Kept R C T where
  words := h.words.update (hcount.trans (h.count f)) (fun _ _ => rfl) (fun _ _ => Iff.rfl)
    (fun hc => hset.trans (h.words.flagged f hc)) fun hc hr => hset.trans (h.words.plain f hc hr)
  nodup := h.nodup
  used := h.used
  own := h.own
  apart := h.apart
  idle := h.idle
  freed := h.freed
  evicted := h.evicted

/-! ### The operations -/

theorem Kept.phmTryFrame {m' : Phm} (h : m.Kept R C T) (hm : m.phmTryFrame f = some m') :
    m'.Kept R C (f ::ₘ T) := by
  obtain ⟨hfree, hm⟩ := Option.ite_none_left_eq_some.1 hm
  cases hm
  have hnone : ¬(f ∈ R ∨ f ∈ C ∨ f ∈ T) := fun hf => hfree (.inr ((h.used f).2 hf))
  simp only [not_or] at hnone
  refine ⟨h.words, h.nodup, fun g => ?_, Multiset.nodup_cons.2 ⟨hnone.2.2, h.own⟩, fun g hg => ?_,
    h.idle, h.freed, h.evicted⟩
  · obtain rfl | hne := eq_or_ne g f
    · simp
    · simp only [Function.update_of_ne hne, h.used, Multiset.mem_cons, hne, false_or]
  · obtain rfl | hg := Multiset.mem_cons.1 hg
    · exact ⟨hnone.1, hnone.2.1⟩
    · exact h.apart g hg

theorem Kept.phmFreeFrame {site : FreeSite} (h : m.Kept R C (f ::ₘ T))
    (hplain : site = .piDecref ∨ site = .piUncache → isSet PI_CACHE (m.entries f) = false) :
    (m.phmFreeFrame site f).Kept R C T := by
  obtain ⟨hf, hown⟩ := Multiset.nodup_cons.1 h.own
  obtain ⟨hr, hc⟩ := h.apart f (Multiset.mem_cons_self f T)
  refine ⟨h.words, h.nodup, fun g => ?_, hown, fun g hg => h.apart g (Multiset.mem_cons_of_mem hg),
    h.idle, fun e he => ?_, h.evicted⟩
  · obtain rfl | hne := eq_or_ne g f
    · simp [Phm.phmFreeFrame, hr, hc, hf]
    · simp only [Phm.phmFreeFrame, Function.update_of_ne hne, h.used, Multiset.mem_cons, hne, false_or]
  · obtain rfl | he := List.mem_cons.1 he
    · refine ⟨(h.used f).2 (.inr (.inr (Multiset.mem_cons_self f T))), ?_, hplain⟩
      rw [h.count, Multiset.count_eq_zero.2 hr]
    · exact h.freed e he

/-- The last reference to a frame that is in no tree is released. -/
theorem Kept.lastRef (h : m.Kept (f ::ₘ R) C T) (hr : f ∉ R) (hc : f ∉ C) {w : ℕ}
    (hcount : refcount w = 0) : (m.setInfo f w).Kept R C (f ::ₘ T) := by
  have hmem : f ∈ f ::ₘ R := Multiset.mem_cons_self f R
  refine ⟨h.words.update ?_ (fun g hg => ?_) (fun _ _ => Iff.rfl) (fun hf => absurd hf hc)
    (fun _ hf => absurd hf hr), h.nodup, fun g => ?_,
    Multiset.nodup_cons.2 ⟨h.not_mem_own (.inl hmem), h.own⟩, fun g hg => ?_, ?_, h.freed, h.evicted⟩
  · rw [hcount, Multiset.count_eq_zero.2 hr]
  · rw [Multiset.count_cons_of_ne hg]
  · rw [setInfo, h.used, Multiset.mem_cons, Multiset.mem_cons]
    tauto
  · obtain rfl | hg := Multiset.mem_cons.1 hg
    · exact ⟨hr, hc⟩
    · exact ⟨fun hg' => (h.apart g hg).1 (Multiset.mem_cons_of_mem hg'), (h.apart g hg).2⟩
  · rw [setInfo, h.idle, idleCount_busy fun hf => absurd hf hc]

theorem Kept.piDecref (h : m.Kept (f ::ₘ R) C T) : (m.piDecref f).Kept R C T := by
  have hold : refcount (m.entries f) = R.count f + 1 := by rw [h.count, Multiset.count_cons_self]
  have hcount : refcount (decWord (m.entries f)) = R.count f := by
    rw [refcount_decWord (by omega), hold, Nat.add_sub_cancel]
  have hset : isSet PI_CACHE (decWord (m.entries f)) = isSet PI_CACHE (m.entries f) :=
    isSet_decWord (by omega)
  have hmem : f ∈ f ::ₘ R := Multiset.mem_cons_self f R
  -- the words are right in all cases, and so are the owners unless the frame is freed
  have hwords : Words (m.setInfo f (decWord (m.entries f))).entries R C :=
    h.words.update hcount (fun g hg => by rw [Multiset.count_cons_of_ne hg]) (fun _ _ => Iff.rfl)
      (fun hc => hset.trans (h.words.flagged f hc))
      fun hc _ => hset.trans (h.words.plain f hc hmem)
  have hused : f ∈ R ∨ f ∈ C → ∀ g, m.frameBitmap g = true ↔ g ∈ R ∨ g ∈ C ∨ g ∈ T := fun hf g => by
    rw [h.used, Multiset.mem_cons]
    constructor
    · rintro ((rfl | hg) | hg)
      · exact hf.imp_right .inl
      · exact .inl hg
      · exact .inr hg
    · exact Or.imp_left .inr
  have hapart : ∀ g ∈ T, g ∉ R ∧ g ∉ C := fun g hg =>
    ⟨fun hr => (h.apart g hg).1 (Multiset.mem_cons_of_mem hr), (h.apart g hg).2⟩
  simp only [Phm.piDecref]
  by_cases hzero : refcount (decWord (m.entries f)) = 0
  · have hr : f ∉ R := Multiset.count_eq_zero.1 (hcount.symm.trans hzero)
    rw [if_pos hzero]
    by_cases hc : f ∈ C
    · rw [if_pos (hset.trans (h.words.flagged f hc))]
      refine ⟨hwords, h.nodup, hused (.inr hc), h.own, hapart, ?_, h.freed, h.evicted⟩
      show m.phmCachedFrames + 1 = (idleCount R C : ℤ)
      rw [h.idle, idleCount_wake h.nodup hc hr]
      omega
    · have hplain := hset.trans (h.words.plain f hc hmem)
      rw [if_neg (by rw [hplain]; nofun)]
      refine (h.lastRef hr hc hzero).phmFreeFrame fun _ => ?_
      rwa [setInfo_entries_self]
  · have hr : f ∈ R := Multiset.count_ne_zero.1 (hcount ▸ hzero)
    rw [if_neg hzero]
    refine ⟨hwords, h.nodup, hused (.inl hr), h.own, hapart, ?_, h.freed, h.evicted⟩
    exact h.idle.trans (by rw [idleCount_busy fun _ => hr])

theorem Kept.piIncref (h : m.Kept R C T) (hf : f ∈ R ∨ f ∈ C)
    (hlt : refcount (m.entries f) + 1 < 2 ^ 32) : (m.piIncref f).Kept (f ::ₘ R) C T := by
  have hcount : refcount (incWord (m.entries f)) = (f ::ₘ R).count f := by
    rw [refcount_incWord hlt, h.count, Multiset.count_cons_self]
  have hset := isSet_incWord hlt
  have hwords : Words (m.setInfo f (incWord (m.entries f))).entries (f ::ₘ R) C := by
    refine h.words.update hcount (fun g hg => Multiset.count_cons_of_ne hg R) (fun _ _ => Iff.rfl)
      (fun hc => hset.trans (h.words.flagged f hc)) fun hc _ => hset.trans (h.words.plain f hc ?_)
    exact hf.resolve_right hc
  have hused : ∀ g, m.frameBitmap g = true ↔ g ∈ f ::ₘ R ∨ g ∈ C ∨ g ∈ T := fun g => by
    rw [h.used, Multiset.mem_cons]
    constructor
    · tauto
    · rintro ((rfl | hg) | hg)
      · exact hf.imp_right .inl
      · exact .inl hg
      · exact .inr hg
  have hapart : ∀ g ∈ T, g ∉ f ::ₘ R ∧ g ∉ C := fun g hg => by
    refine ⟨fun hr => ?_, (h.apart g hg).2⟩
    obtain rfl | hr := Multiset.mem_cons.1 hr
    · exact h.not_mem_own hf hg
    · exact (h.apart g hg).1 hr
  simp only [Phm.piIncref]
  rw [hcount, Multiset.count_cons_self]
  by_cases hr : f ∈ R
  · have hpos := Multiset.count_pos.2 hr
    rw [if_neg (by omega)]
    refine ⟨hwords, h.nodup, hused, h.own, hapart, ?_, h.freed, h.evicted⟩
    exact h.idle.trans (by rw [idleCount_busy fun _ => hr])
  · rw [if_pos (by rw [Multiset.count_eq_zero.2 hr])]
    refine ⟨hwords, h.nodup, hused, h.own, hapart, ?_, h.freed, h.evicted⟩
    show m.phmCachedFrames - 1 = _
    rw [h.idle, idleCount_wake h.nodup (hf.resolve_left hr) hr]
    omega

/-- An idle frame is taken out of its tree. -/
theorem Kept.uncacheIdle {m' : Phm} (h : m.Kept R (f ::ₘ C) T) (hr : f ∉ R)
    (hwords : Words m'.entries R C) (hbitmap : m'.frameBitmap = m.frameBitmap)
    (hcached : m'.phmCachedFrames = m.phmCachedFrames - 1) (hfreed : m'.freed = m.freed)
    (hevicted : ∀ e ∈ m'.evicted, refcount e.2 = 0) : m'.Kept R C (f ::ₘ T) := by
  have hmem : f ∈ f ::ₘ C := Multiset.mem_cons_self f C
  obtain ⟨hc, hnodup⟩ := Multiset.nodup_cons.1 h.nodup
  refine ⟨hwords, hnodup, fun g => ?_, Multiset.nodup_cons.2 ⟨h.not_mem_own (.inr hmem), h.own⟩,
    fun g hg => ?_, ?_, hfreed ▸ h.freed, hevicted⟩
  · rw [hbitmap, h.used, Multiset.mem_cons, Multiset.mem_cons]
    tauto
  · obtain rfl | hg := Multiset.mem_cons.1 hg
    · exact ⟨hr, hc⟩
    · exact ⟨(h.apart g hg).1, fun hg' => (h.apart g hg).2 (Multiset.mem_cons_of_mem hg')⟩
  · rw [hcached, h.idle, idleCount_cons_of_notMem hr]
    omega

theorem Kept.piUncache (h : m.Kept R (f ::ₘ C) T) : (m.piUncache f).Kept R C T := by
  obtain ⟨hcount, hclear⟩ := clearFlag_cache (w := m.entries f)
  rw [h.count] at hcount
  obtain ⟨hc, hnodup⟩ := Multiset.nodup_cons.1 h.nodup
  have hmem : f ∈ f ::ₘ C := Multiset.mem_cons_self f C
  have hwords : Words (m.setInfo f (clearFlag PI_CACHE (m.entries f))).entries R C :=
    h.words.update hcount (fun _ _ => rfl) (fun g hg => by simp [hg]) (fun hf => absurd hf hc)
      fun _ _ => hclear
  simp only [Phm.piUncache]
  rw [hcount]
  by_cases hr : f ∈ R
  · have hpos := Multiset.count_pos.2 hr
    rw [if_neg (by omega)]
    refine ⟨hwords, hnodup, fun g => ?_, h.own, fun g hg => ?_, ?_, h.freed, h.evicted⟩
    · rw [setInfo, h.used, Multiset.mem_cons]
      constructor
      · rintro (hg | (rfl | hg) | hg)
        · exact .inl hg
        · exact .inl hr
        · exact .inr (.inl hg)
        · exact .inr (.inr hg)
      · tauto
    · exact ⟨(h.apart g hg).1, fun hg' => (h.apart g hg).2 (Multiset.mem_cons_of_mem hg')⟩
    · exact h.idle.trans (by rw [idleCount_cons_of_mem hr])
  · rw [if_pos (Multiset.count_eq_zero.2 hr)]
    refine Kept.phmFreeFrame (h.uncacheIdle hr hwords rfl rfl rfl h.evicted) fun _ => ?_
    rwa [setInfo_entries_self]

/-- A frame gets a new word, with one reference; `C'` has it if the flags say so. -/
theorem Kept.newWord {flags : ℕ} (h : m.Kept R C (f ::ₘ T))
    (hflags : flags = 0 ∧ C' = C ∨ flags = PI_CACHE ∧ C' = f ::ₘ C) :
    (m.setInfo f (1 + flags)).Kept (f ::ₘ R) C' T := by
  obtain ⟨hf, hown⟩ := Multiset.nodup_cons.1 h.own
  obtain ⟨hr, hc⟩ := h.apart f (Multiset.mem_cons_self f T)
  have hcount : refcount (1 + flags) = (f ::ₘ R).count f := by
    rw [Multiset.count_cons_self, Multiset.count_eq_zero.2 hr]
    obtain ⟨rfl, -⟩ | ⟨rfl, -⟩ := hflags <;> rfl
  have hmem : ∀ g, g ≠ f → (g ∈ C' ↔ g ∈ C) := fun g hg => by
    obtain ⟨-, rfl⟩ | ⟨-, rfl⟩ := hflags <;> simp [hg]
  have hset : f ∈ C' ↔ flags = PI_CACHE := by
    obtain ⟨rfl, rfl⟩ | ⟨rfl, rfl⟩ := hflags
    · exact ⟨fun hf' => absurd hf' hc, nofun⟩
    · simp
  have hcaches : ∀ g, g ∈ C' → g = f ∨ g ∈ C := fun g hg => by
    obtain rfl | hne := eq_or_ne g f
    · exact .inl rfl
    · exact .inr ((hmem g hne).1 hg)
  refine ⟨h.words.update hcount (fun g hg => Multiset.count_cons_of_ne hg R) hmem
    (fun hf' => ?_) (fun hf' _ => ?_), ?_, fun g => ?_, hown, fun g hg => ?_, ?_, h.freed, h.evicted⟩
  · rw [hset.1 hf']
    rfl
  · obtain ⟨rfl, -⟩ | ⟨hflags, -⟩ := hflags
    · rfl
    · exact absurd (hset.2 hflags) hf'
  · obtain ⟨-, rfl⟩ | ⟨-, rfl⟩ := hflags
    · exact h.nodup
    · exact Multiset.nodup_cons.2 ⟨hc, h.nodup⟩
  · rw [setInfo, h.used, Multiset.mem_cons, Multiset.mem_cons]
    obtain rfl | hne := eq_or_ne g f
    · simp
    · simp only [hne, false_or, hmem g hne]
  · have hne : g ≠ f := fun he => hf (he ▸ hg)
    obtain ⟨hgr, hgc⟩ := h.apart g (Multiset.mem_cons_of_mem hg)
    rw [Multiset.mem_cons, hmem g hne]
    exact ⟨fun hg' => hg'.elim hne hgr, hgc⟩
  · rw [setInfo, h.idle]
    obtain ⟨-, rfl⟩ | ⟨-, rfl⟩ := hflags
    · rw [idleCount_busy fun hf' => absurd hf' hc]
    · rw [idleCount_cons_of_mem (Multiset.mem_cons_self f R), idleCount_busy fun hf' => absurd hf' hc]

theorem Kept.piMarkDirty (h : m.Kept R C T) : (m.piMarkDirty f).Kept R C T :=
  h.mark (setFlag_spec (.inl rfl)).1 (setFlag_spec (.inl rfl)).2

theorem Kept.piMarkAccessed (h : m.Kept R C T) : (m.piMarkAccessed f).Kept R C T :=
  h.mark (setFlag_spec (.inr rfl)).1 (setFlag_spec (.inr rfl)).2

theorem Kept.piCheckFlush (h : m.Kept R C T) : (m.piCheckFlush f).2.Kept R C T :=
  h.mark clearFlag_dirty.1 clearFlag_dirty.2

theorem Kept.releaseMarked (h : m.Kept (f ::ₘ R) C T) (accessed dirty : Bool) :
    (m.releaseMarked f accessed dirty).Kept R C T := by
  simp only [Phm.releaseMarked]
  refine Kept.piDecref ?_
  cases accessed <;> cases dirty
  · exact h
  · exact h.piMarkDirty
  · exact h.piMarkAccessed
  · exact h.piMarkAccessed.piMarkDirty

end Phm

/-! ## Trees and tables -/

/-- The reference of an entry of a page table. -/
def pteRefs : Option LoadedPte → Multiset ℕ
  | none => 0
  | some pte => {pte.framePhysAddr}

def tableRefs (table : PageTable) : Multiset ℕ := gather pteRefs table.entries

def treeFrames (tree : TreePages) : Multiset ℕ := (tree.map Prod.snd : List ℕ)

theorem coe_frames (table : PageTable) : (table.frames : Multiset ℕ) = tableRefs table := by
  obtain ⟨frame, entries⟩ := table
  unfold PageTable.frames tableRefs
  induction entries with
  | nil => rfl
  | cons e entries ih =>
    rw [gather_cons, ← ih]
    cases e <;> rfl

namespace PageMem

/-- The references that calls and page tables hold. -/
def refs (p : PageMem) : Multiset ℕ := p.held + gather tableRefs p.tables

/-- The frames in the file trees. -/
def caches (p : PageMem) : Multiset ℕ := gather treeFrames p.trees

def tableFrames (p : PageMem) : Multiset ℕ := gather (fun table => {table.frame}) p.tables

/-- Every frame that is in use has an owner. -/
def Right (p : PageMem) : Prop := p.mem.Kept p.refs p.caches p.tableFrames

theorem Right.of_kept {mem : Phm} {trees : List TreePages} {tables : List PageTable} {held : List ℕ}
    (h : mem.Kept (held + gather tableRefs tables) (gather treeFrames trees)
      (gather (fun table => {table.frame}) tables)) : Right ⟨mem, trees, tables, held⟩ := h

variable {p q : PageMem} {f t i page : ℕ} {src : FrameSource} {table : PageTable}
  {tree : TreePages} {e e' : Option LoadedPte}

/-! ### Frames from the allocator -/

/-- A tree loses a page. -/
theorem caches_erase (htree : p.trees[t]? = some tree) (hpage : (page, f) ∈ tree) :
    p.caches = f ::ₘ gather treeFrames (p.trees.set t (tree.erase (page, f))) := by
  have hperm := (List.perm_cons_erase hpage).map Prod.snd
  have hframes : treeFrames tree = f ::ₘ treeFrames (tree.erase (page, f)) := Multiset.coe_eq_coe.2 hperm
  have hset := gather_set (g := treeFrames) (x := tree.erase (page, f)) htree
  rw [hframes, Multiset.add_cons, ← Multiset.cons_add] at hset
  exact (add_right_cancel hset).symm

theorem tryFreeFrame_spec (h : p.Right) (hs : p.tryFreeFrame t = some (f, q)) :
    q.mem.Kept q.refs q.caches (f ::ₘ q.tableFrames) ∧ q.held = p.held ∧ q.tables = p.tables := by
  unfold tryFreeFrame at hs
  obtain ⟨tree, htree, hs⟩ := Option.bind_eq_some_iff.1 hs
  obtain ⟨⟨page, frame⟩, hfind, hs⟩ := Option.bind_eq_some_iff.1 hs
  cases hs
  refine ⟨?_, rfl, rfl⟩
  have hidle : refcount (p.mem.entries frame) = 0 := by simpa using List.find?_some hfind
  have hcaches := caches_erase htree (List.mem_of_find?_eq_some hfind)
  unfold Right at h
  have hr : frame ∉ p.refs := Multiset.count_eq_zero.1 ((h.count frame).symm.trans hidle)
  have hwords := h.words
  have hevicted := h.evicted
  rw [hcaches] at h
  refine h.uncacheIdle hr ⟨hwords.counts, fun g hg => ?_, fun g hg hgr => ?_⟩ rfl rfl rfl
    fun e he => ?_
  · exact h.words.flagged g (Multiset.mem_cons_of_mem hg)
  · have hne : g ≠ frame := fun he => hr (he ▸ hgr)
    exact h.words.plain g (fun hg' => hg ((Multiset.mem_cons.1 hg').resolve_left hne)) hgr
  · obtain rfl | he := List.mem_cons.1 he
    · exact hidle
    · exact hevicted e he

/-- A frame that was allocated belongs to the caller. -/
theorem alloc_spec (h : p.Right) (hs : p.phmAllocSingle src = some (f, q)) :
    q.mem.Kept q.refs q.caches (f ::ₘ q.tableFrames) ∧ q.held = p.held ∧ q.tables = p.tables := by
  cases src with
  | bitmap frame =>
    obtain ⟨mem, hmem, he⟩ := Option.map_eq_some_iff.1 hs
    cases he
    exact ⟨h.phmTryFrame hmem, rfl, rfl⟩
  | cache t => exact tryFreeFrame_spec h hs

theorem Right.tryFreeMemory (h : p.Right) (hs : p.tryFreeMemory t = some q) : q.Right := by
  obtain ⟨⟨frame, q'⟩, hfree, rfl⟩ := Option.map_eq_some_iff.1 hs
  exact (tryFreeFrame_spec h hfree).1.phmFreeFrame (by rintro (he | he) <;> cases he)

theorem refs_hold : refs { p with held := f :: p.held } = f ::ₘ p.refs := by
  rw [refs, refs, ← Multiset.cons_coe, Multiset.cons_add]

theorem Right.piNew (h : p.Right) (hs : p.piNew 0 src = some (f, q)) : q.Right := by
  obtain ⟨⟨frame, q'⟩, halloc, he⟩ := Option.map_eq_some_iff.1 hs
  cases he
  obtain ⟨hkept, hheld, htables⟩ := alloc_spec h halloc
  have hrefs : refs { q' with held := frame :: q'.held } = frame ::ₘ q'.refs := refs_hold
  show (q'.mem.setInfo frame (1 + 0)).Kept (refs { q' with held := frame :: p.held }) q'.caches
    q'.tableFrames
  rw [← hheld, hrefs]
  exact hkept.newWord (.inl ⟨rfl, rfl⟩)

theorem Right.newTable (h : p.Right) (hs : p.newTable src = some q) : q.Right := by
  obtain ⟨⟨frame, q'⟩, halloc, rfl⟩ := Option.map_eq_some_iff.1 hs
  obtain ⟨hkept, -, -⟩ := alloc_spec h halloc
  have hempty : ∀ n, gather pteRefs (List.replicate n none) = 0 := fun n => by
    induction n with
    | zero => rfl
    | succ n ih => rw [List.replicate_succ, gather_cons, ih]; rfl
  have hrefs : (q'.held : Multiset ℕ) + gather tableRefs (q'.tables ++ [⟨frame, .replicate 512 none⟩]) =
      q'.refs := by
    rw [gather_append, gather_cons, gather_nil, tableRefs, hempty, add_zero, add_zero, refs]
  have hframes : tableFrames { q' with tables := q'.tables ++ [⟨frame, .replicate 512 none⟩] } =
      frame ::ₘ q'.tableFrames := by
    rw [tableFrames, gather_append, gather_cons, gather_nil, add_zero, add_comm,
      Multiset.singleton_add]
    rfl
  show q'.mem.Kept (_ + _) q'.caches (tableFrames { q' with tables := _ })
  rw [hrefs, hframes]
  exact hkept

/-! ### File trees -/

theorem mem_of_lookup (h : tree.lookup page = some f) : (page, f) ∈ tree := by
  obtain ⟨l, l', rfl, -⟩ := List.lookup_eq_some_iff.1 h
  exact List.mem_append_right l (List.mem_cons_self ..)

theorem treeFrames_insert : treeFrames (tree.orderedInsert (·.1 ≤ ·.1) (page, f)) =
    f ::ₘ treeFrames tree :=
  Multiset.coe_eq_coe.2 ((List.perm_orderedInsert _ _ tree).map Prod.snd)

theorem Right.getPage {src : Option FrameSource} (h : p.Right)
    (hfit : ∀ tree ∈ p.trees[t]?, ∀ frame ∈ tree.lookup page,
      refcount (p.mem.entries frame) + 1 < 2 ^ 32)
    (hs : p.getPage t page src = some q) : q.Right := by
  unfold PageMem.getPage at hs
  obtain ⟨tree, htree, hs⟩ := Option.bind_eq_some_iff.1 hs
  cases hlookup : tree.lookup page with
  | some frame =>
    simp only [hlookup] at hs
    cases hs
    have hmem : frame ∈ p.caches := mem_gather.2 ⟨tree, List.mem_of_getElem? htree,
      Multiset.mem_coe.2 (List.mem_map_of_mem (mem_of_lookup hlookup))⟩
    show (p.mem.piIncref frame).Kept (refs { p with held := frame :: p.held }) p.caches p.tableFrames
    rw [refs_hold]
    exact h.piIncref (.inr hmem) (hfit tree htree frame hlookup)
  | none =>
    cases src with
    | none =>
      simp only [hlookup] at hs
      cases hs
      exact h
    | some src =>
      simp only [hlookup] at hs
      obtain ⟨⟨frame, q'⟩, hnew, hs⟩ := Option.bind_eq_some_iff.1 hs
      obtain ⟨tree', htree', hs⟩ := Option.bind_eq_some_iff.1 hs
      obtain ⟨⟨frame', r⟩, halloc, he⟩ := Option.map_eq_some_iff.1 hnew
      cases he
      cases hs
      obtain ⟨hkept, hheld, -⟩ := alloc_spec h halloc
      have hrefs : refs { r with held := frame' :: r.held } = frame' ::ₘ r.refs := refs_hold
      have hcaches : gather treeFrames (r.trees.set t
          (tree'.orderedInsert (·.1 ≤ ·.1) (page, frame'))) = frame' ::ₘ r.caches := by
        have hset := gather_set (g := treeFrames)
          (x := tree'.orderedInsert (·.1 ≤ ·.1) (page, frame')) htree'
        rw [treeFrames_insert, Multiset.add_cons, ← Multiset.cons_add] at hset
        exact add_right_cancel hset
      show (r.mem.setInfo frame' (1 + PI_CACHE)).Kept (refs { r with held := frame' :: p.held })
        (gather _ _) r.tableFrames
      rw [← hheld, hrefs, hcaches]
      exact hkept.newWord (.inr ⟨rfl, rfl⟩)

theorem Right.truncatePage (h : p.Right) (hs : p.truncatePage t page = some q) : q.Right := by
  unfold PageMem.truncatePage at hs
  obtain ⟨tree, htree, hs⟩ := Option.bind_eq_some_iff.1 hs
  obtain ⟨frame, hlookup, hs⟩ := Option.bind_eq_some_iff.1 hs
  cases hs
  unfold Right at h
  rw [caches_erase htree (mem_of_lookup hlookup)] at h
  exact h.piUncache

/-- All pages of a tree are uncached. -/
theorem kept_uncacheAll {m : Phm} {R C T : Multiset ℕ} (h : m.Kept R (treeFrames tree + C) T) :
    (tree.foldl (fun m page => m.piUncache page.2) m).Kept R C T := by
  induction tree generalizing m with
  | nil => rwa [treeFrames, List.map_nil, Multiset.coe_nil, zero_add] at h
  | cons page tree ih =>
    rw [treeFrames, List.map_cons, ← Multiset.cons_coe, Multiset.cons_add] at h
    exact ih h.piUncache

theorem Right.deleteTree (h : p.Right) (hs : p.deleteTree t = some q) : q.Right := by
  unfold PageMem.deleteTree at hs
  obtain ⟨tree, htree, hs⟩ := Option.bind_eq_some_iff.1 hs
  cases hs
  have hcaches : p.caches = treeFrames tree + gather treeFrames (p.trees.eraseIdx t) :=
    ((add_comm _ _).trans (gather_eraseIdx htree)).symm
  unfold Right at h
  rw [hcaches] at h
  exact kept_uncacheAll h

theorem kept_flushAll {m : Phm} {R C T : Multiset ℕ} (h : m.Kept R C T) :
    (tree.foldl (fun m page => (m.piCheckFlush page.2).2) m).Kept R C T := by
  induction tree generalizing m with
  | nil => exact h
  | cons page tree ih => exact ih h.piCheckFlush

theorem Right.flushTree (h : p.Right) (hs : p.flushTree t = some q) : q.Right := by
  unfold PageMem.flushTree at hs
  obtain ⟨tree, htree, hs⟩ := Option.bind_eq_some_iff.1 hs
  cases hs
  exact kept_flushAll h

/-! ### References -/

theorem mem_refs : f ∈ p.refs ↔ f ∈ p.held ∨ f ∈ p.tables.flatMap PageTable.frames := by
  simp only [refs, Multiset.mem_add, Multiset.mem_coe, mem_gather, List.mem_flatMap, ← coe_frames]

theorem Right.retain (h : p.Right) (hfit : refcount (p.mem.entries f) + 1 < 2 ^ 32)
    (hs : p.retain f = some q) : q.Right := by
  obtain ⟨hmem, hs⟩ := Option.ite_none_right_eq_some.1 hs
  cases hs
  show (p.mem.piIncref f).Kept (refs { p with held := f :: p.held }) p.caches p.tableFrames
  rw [refs_hold]
  exact h.piIncref (.inl (mem_refs.2 hmem)) hfit

/-- A reference that a call holds is the first one. -/
theorem refs_drop (hmem : f ∈ p.held) :
    p.refs = f ::ₘ ((p.held.erase f : Multiset ℕ) + gather tableRefs p.tables) := by
  rw [refs, ← Multiset.cons_add, Multiset.cons_coe]
  exact congrArg (· + _) (Multiset.coe_eq_coe.2 (List.perm_cons_erase hmem))

theorem Right.release {accessed dirty : Bool} (h : p.Right)
    (hs : p.release f accessed dirty = some q) : q.Right := by
  obtain ⟨hmem, hs⟩ := Option.ite_none_right_eq_some.1 hs
  obtain rfl := Option.some.inj hs
  unfold Right at h
  rw [refs_drop hmem] at h
  exact .of_kept (h.releaseMarked accessed dirty)

/-- An entry of a page table is set. -/
theorem tables_setEntry (e' : Option LoadedPte) (htable : p.tables[t]? = some table) (he : table.entries[i]? = some e) :
    gather tableRefs (p.setEntry t i table e').tables + pteRefs e =
      gather tableRefs p.tables + pteRefs e' := by
  have hset := gather_set (g := tableRefs) (x := { table with entries := table.entries.set i e' }) htable
  have hentry : tableRefs { table with entries := table.entries.set i e' } + pteRefs e =
      tableRefs table + pteRefs e' := gather_set he
  refine add_right_cancel (b := tableRefs table) ?_
  rw [add_right_comm, setEntry, hset, add_assoc, hentry, add_right_comm, add_assoc]

theorem tableFrames_setEntry (i : ℕ) (e' : Option LoadedPte) (htable : p.tables[t]? = some table) :
    (p.setEntry t i table e').tableFrames = p.tableFrames := by
  have hset := gather_set (g := fun table : PageTable => ({table.frame} : Multiset ℕ))
    (x := { table with entries := table.entries.set i e' }) htable
  exact add_right_cancel hset

/-- A reference moves from a call to an entry. -/
theorem refs_map (hmem : f ∈ p.held) (htable : p.tables[t]? = some table)
    (he : table.entries[i]? = some e) (pte : LoadedPte) (hpte : pte.framePhysAddr = f) :
    ((p.held.erase f : Multiset ℕ) + gather tableRefs (p.setEntry t i table (some pte)).tables) +
      pteRefs e = p.refs := by
  have hset := tables_setEntry (some pte) htable he
  rw [add_assoc, hset, refs_drop hmem, pteRefs, hpte, ← add_assoc, ← Multiset.singleton_add, add_comm]

theorem Right.map (h : p.Right) (hs : p.map t i f = some q) : q.Right := by
  unfold PageMem.map at hs
  obtain ⟨table, htable, hs⟩ := Option.bind_eq_some_iff.1 hs
  obtain ⟨e, he, hs⟩ := Option.bind_eq_some_iff.1 hs
  obtain ⟨hmem, hs⟩ := Option.ite_none_right_eq_some.1 hs
  obtain rfl := Option.some.inj hs
  have hrefs := refs_map hmem htable he ⟨f, false, false⟩ rfl
  have hframes := tableFrames_setEntry i (some ⟨f, false, false⟩) htable
  unfold Right at h
  rw [← hrefs, ← hframes] at h
  cases e with
  | none => exact .of_kept (by rwa [pteRefs, add_zero] at h)
  | some pte =>
    rw [pteRefs, Multiset.add_comm, Multiset.singleton_add] at h
    exact .of_kept h.piDecref

theorem Right.touch {dirty : Bool} (h : p.Right) (hs : p.touch t i dirty = some q) : q.Right := by
  unfold PageMem.touch at hs
  obtain ⟨table, htable, hs⟩ := Option.bind_eq_some_iff.1 hs
  obtain ⟨pte, he, hs⟩ := Option.bind_eq_some_iff.1 hs
  obtain rfl := Option.some.inj hs
  have hset := tables_setEntry (some ⟨pte.framePhysAddr, true, pte.dirty || dirty⟩) htable
    (Option.join_eq_some_iff.1 he)
  have hframes := tableFrames_setEntry i
    (some ⟨pte.framePhysAddr, true, pte.dirty || dirty⟩) htable
  unfold Right at h
  rw [refs, ← add_right_cancel hset, ← hframes] at h
  exact .of_kept h

theorem Right.unmapPage (h : p.Right) (slot : ℕ × ℕ) : (p.unmapPage slot).Right := by
  unfold PageMem.unmapPage
  split
  · exact h
  · next table htable =>
    split
    · next pte he =>
      have hset := tables_setEntry none htable he
      have hframes := tableFrames_setEntry slot.2 none htable
      rw [pteRefs, pteRefs, add_zero] at hset
      unfold Right at h
      rw [refs, ← hset, ← hframes, ← add_assoc, add_comm, Multiset.singleton_add] at h
      exact .of_kept (h.releaseMarked _ _)
    · exact h

theorem Right.unmapArea (h : p.Right) (slots : List (ℕ × ℕ)) : (p.unmapArea slots).Right := by
  unfold PageMem.unmapArea
  induction slots generalizing p with
  | nil => exact h
  | cons slot slots ih => exact ih (h.unmapPage slot)

/-- All references of a page table are released. -/
theorem kept_releaseAll {m : Phm} {R C T : Multiset ℕ} {entries : List (Option LoadedPte)}
    (h : m.Kept (gather pteRefs entries + R) C T) : ((entries.filterMap id).foldl
      (fun m pte => m.releaseMarked pte.framePhysAddr pte.accessed pte.dirty) m).Kept R C T := by
  induction entries generalizing m with
  | nil => rwa [gather_nil, zero_add] at h
  | cons e entries ih =>
    rw [gather_cons, add_assoc] at h
    cases e with
    | none =>
      rw [pteRefs, zero_add] at h
      exact ih h
    | some pte =>
      rw [pteRefs, Multiset.singleton_add] at h
      rw [List.filterMap_cons_some (f := id) rfl, List.foldl_cons]
      exact ih (h.releaseMarked _ _)

theorem Right.deletePT (h : p.Right) (hs : p.deletePT t = some q) : q.Right := by
  unfold PageMem.deletePT at hs
  obtain ⟨table, htable, hs⟩ := Option.bind_eq_some_iff.1 hs
  obtain rfl := Option.some.inj hs
  have hrefs : p.refs = tableRefs table + (p.held + gather tableRefs (p.tables.eraseIdx t)) := by
    rw [refs, ← gather_eraseIdx htable, ← add_assoc, add_comm]
  have hframes : p.tableFrames =
      table.frame ::ₘ gather (fun table => {table.frame}) (p.tables.eraseIdx t) := by
    rw [tableFrames, ← gather_eraseIdx htable, add_comm, Multiset.singleton_add]
  unfold Right at h
  rw [hrefs, hframes] at h
  exact .of_kept (kept_releaseAll (h.phmFreeFrame (by rintro (he | he) <;> cases he)))

/-! ## Runs -/

/-- No frame gets `2 ^ 32` references. -/
def Fits (p : PageMem) : PageOp → Prop
  | .getPage t page _ => ∀ tree ∈ p.trees[t]?, ∀ frame ∈ tree.lookup page,
      refcount (p.mem.entries frame) + 1 < 2 ^ 32
  | .retain frame => refcount (p.mem.entries frame) + 1 < 2 ^ 32
  | _ => True

instance (p : PageMem) : DecidablePred p.Fits
  | .getPage t page _ =>
    inferInstanceAs (Decidable (∀ tree ∈ p.trees[t]?, ∀ frame ∈ tree.lookup page, _ < _))
  | .retain _ => inferInstanceAs (Decidable (_ < _))
  | .newTree | .newTable .. | .piNew .. | .release .. | .map .. | .touch .. | .unmapArea ..
  | .deletePT .. | .truncatePage .. | .flushTree .. | .deleteTree .. | .tryFreeMemory .. =>
    inferInstanceAs (Decidable True)

theorem Right.step {op : PageOp} (h : p.Right) (hfit : p.Fits op) (hs : p.step op = some q) :
    q.Right := by
  cases op with
  | newTree =>
    obtain rfl := Option.some.inj hs
    have hcaches : gather treeFrames (p.trees ++ [[]]) = p.caches := by
      rw [gather_append, gather_cons, gather_nil, add_zero]
      exact add_zero _
    exact .of_kept (hcaches.symm ▸ h)
  | newTable src => exact h.newTable hs
  | piNew src =>
    obtain ⟨⟨frame, q'⟩, hnew, rfl⟩ := Option.map_eq_some_iff.1 hs
    exact h.piNew hnew
  | getPage t page src => exact h.getPage hfit hs
  | retain frame => exact h.retain hfit hs
  | release frame accessed dirty => exact h.release hs
  | map t i frame => exact h.map hs
  | touch t i dirty => exact h.touch hs
  | unmapArea slots =>
    obtain rfl := Option.some.inj hs
    exact h.unmapArea slots
  | deletePT t => exact h.deletePT hs
  | truncatePage t page => exact h.truncatePage hs
  | flushTree t => exact h.flushTree hs
  | deleteTree t => exact h.deleteTree hs
  | tryFreeMemory t => exact h.tryFreeMemory hs

end PageMem

/-! ## Main result -/

theorem pageInit_right : pageInit.Right where
  words := ⟨fun _ => rfl, nofun, fun _ _ hf => absurd hf (Multiset.notMem_zero _)⟩
  nodup := Multiset.nodup_zero
  used f := ⟨nofun, by rintro (hf | hf | hf) <;> exact absurd hf (Multiset.notMem_zero _)⟩
  own := Multiset.nodup_zero
  apart _ hf := absurd hf (Multiset.notMem_zero _)
  idle := rfl
  freed := nofun
  evicted := nofun

/-- The words of the frames, the bitmap and the number of cached frames agree with the owners, and every
frame was given back in use and without references. -/
structure PageMem.Accounted (p : PageMem) : Prop where
  counts : ∀ f, refcount (p.mem.entries f) = p.refs.count f
  once : p.caches.Nodup
  flagged : ∀ f ∈ p.caches, isSet PI_CACHE (p.mem.entries f) = true
  used : ∀ f, p.mem.frameBitmap f = true ↔ f ∈ p.refs ∨ f ∈ p.caches ∨ f ∈ p.tableFrames
  cached : p.mem.phmCachedFrames =
    (p.caches.filter fun f => refcount (p.mem.entries f) = 0).card
  freed : ∀ e ∈ p.mem.freed, e.Right
  evicted : ∀ e ∈ p.mem.evicted, refcount e.2 = 0

theorem PageMem.Right.accounted {p : PageMem} (h : p.Right) : p.Accounted where
  counts := h.count
  once := h.nodup
  flagged := h.words.flagged
  used := h.used
  cached := by
    rw [h.idle, idleCount, Multiset.countP_eq_card_filter]
    refine congrArg (fun s : Multiset ℕ => (s.card : ℤ)) (Multiset.filter_congr fun f _ => ?_)
    rw [h.count, Multiset.count_eq_zero]
  freed := h.freed
  evicted := h.evicted

end Glidix.Pages
