import Glidix.Storage.CacheFlush

/-!
# The cache is transparent

A cache is `Coherent` with a content if flushing it would leave that content on the drive and every
cached track shows it.  Every call keeps the cache coherent with what was last written, except one:
when a track is neither in the cache nor can be put there, `sdWrite` changes only a buffer of its
own and loses the data.
-/

namespace Glidix.Storage

open Bytes Radix

/-! ## Coherence -/

/-- The number of tracks that a tree of seven levels tells apart. -/
def numTracks : ℕ := 128 ^ 7

structure Coherent (sd : StorageDevice) (content : Bytes) : Prop where
  ok : sd.drive.Ok
  size : SD_TRACK_SIZE ∣ sd.drive.totalSize ∧ sd.drive.totalSize ≤ numTracks * SD_TRACK_SIZE
  noHangup : sd.flags &&& SD_HANGUP = 0
  dirtyPaths : DirtyPaths 6 sd.cacheTop
  has : ∀ t x, t < numTracks → find 6 sd.cacheTop t = some x → sd.drive.Has t
  cached : ∀ t x, t < numTracks → find 6 sd.cacheTop t = some x → ∀ o, o < SD_TRACK_SIZE →
    x.2 o = content (t * SD_TRACK_SIZE + o)
  flushed : ∀ t, t < numTracks → ∀ o, o < SD_TRACK_SIZE →
    (dirtyByte (find 6 sd.cacheTop t) o).getD (sd.drive.disk (t * SD_TRACK_SIZE + o)) =
      content (t * SD_TRACK_SIZE + o)

section Coherent

variable {sd sd' : StorageDevice} {content : Bytes} {pos t : ℕ} {allocFromCacheNow : Bool}
  {phmAllocFrame : ℕ → Bool}

theorem div_eq_zero_iff_lt : t / 128 ^ (6 + 1) = 0 ↔ t < numTracks := by
  unfold numTracks
  rw [Nat.div_eq_zero_iff]
  omega

theorem Drive.Has.lt_numTracks (h : Coherent sd content) (ht : sd.drive.Has t) :
    t < numTracks := by
  have := h.size.2
  unfold Drive.Has SD_TRACK_SIZE at *
  omega

/-- A position of the device lies in one of its tracks. -/
theorem Coherent.has_of_lt (h : Coherent sd content) (hpos : pos < sd.drive.totalSize) :
    sd.drive.Has (pos / SD_TRACK_SIZE) := by
  obtain ⟨k, hk⟩ := h.size.1
  unfold Drive.Has
  rw [hk] at hpos ⊢
  have hlt : pos / SD_TRACK_SIZE < k := Nat.div_lt_of_lt_mul hpos
  rw [Nat.mul_comm]
  exact Nat.mul_le_mul_left _ hlt

/-- What `sdGetCache` finds for a track that shows the content `c`, and `data` on the drive. -/
theorem CacheResult.coherent {dirty : Bool} {data c : Bytes} {granted : Prop}
    {before found : Option (BlockEntry × Bytes)} {result : Except Errno Bytes}
    (h : CacheResult dirty data granted before result found)
    (hcached : ∀ x, before = some x → ∀ o, o < SD_TRACK_SIZE → x.2 o = c o)
    (hflushed : ∀ o, o < SD_TRACK_SIZE → (dirtyByte before o).getD (data o) = c o) :
    (∀ x, found = some x → ∀ o, o < SD_TRACK_SIZE → x.2 o = c o) ∧
      (∀ o, o < SD_TRACK_SIZE → (dirtyByte found o).getD (data o) = c o) ∧
      ∀ track, result = .ok track → ∀ o, o < SD_TRACK_SIZE → track o = c o := by
  cases before with
  | none =>
    have hdata : ∀ o, o < SD_TRACK_SIZE → data o = c o := hflushed
    rcases h with ⟨-, rfl, rfl⟩ | ⟨-, hresult, rfl⟩
    · refine ⟨fun x hx => Option.some.inj hx ▸ hdata, fun o ho => ?_,
        fun track ht => Except.ok.inj ht ▸ hdata⟩
      rw [dirtyByte]
      split_ifs
      · exact hdata o ho
      · exact hdata o ho
    · refine ⟨fun x hx => (by cases hx), hdata, fun track ht => ?_⟩
      rcases hresult with rfl | rfl
      · cases ht
      · cases ht
  | some y =>
    obtain ⟨rfl, usage, rfl⟩ := h
    have hy := hcached y rfl
    refine ⟨fun x hx => Option.some.inj hx ▸ hy, fun o ho => ?_,
      fun track ht => Except.ok.inj ht ▸ hy⟩
    have hb := hflushed o ho
    rw [dirtyByte] at hb ⊢
    split_ifs with hdirty
    · exact hy o ho
    · rw [Bool.or_eq_true, not_or] at hdirty
      rwa [if_neg hdirty.1] at hb

/-- The cache may be asked for a track. -/
theorem Coherent.getCache (h : Coherent sd content) (ht : sd.drive.Has (pos / SD_TRACK_SIZE))
    (make dirty : Bool) (phmAllocFrame : ℕ → Bool) :
    let r := sdGetCache sd.drive pos make dirty phmAllocFrame 6 sd.cacheTop
    Coherent { sd with cacheTop := r.1 } content ∧
    (∀ t < numTracks, t ≠ pos / SD_TRACK_SIZE → find 6 r.1 t = find 6 sd.cacheTop t) ∧
    (∀ track, r.2 = .ok track → ∀ o, o < SD_TRACK_SIZE →
      track o = content (pos / SD_TRACK_SIZE * SD_TRACK_SIZE + o)) ∧
    CacheResult dirty (fun o => sd.drive.disk (pos / SD_TRACK_SIZE * SD_TRACK_SIZE + o))
      (Granted make phmAllocFrame) (find 6 sd.cacheTop (pos / SD_TRACK_SIZE)) r.2
      (find 6 r.1 (pos / SD_TRACK_SIZE)) := by
  have hread := Drive.readTrack_eq h.ok ht
  have hlt := Drive.Has.lt_numTracks h ht
  obtain ⟨hother, hself⟩ := sdGetCache_find hread make dirty phmAllocFrame 6 sd.cacheTop
  have hpaths := sdGetCache_dirtyPaths hread make dirty phmAllocFrame 6 sd.cacheTop h.dirtyPaths
  set r := sdGetCache sd.drive pos make dirty phmAllocFrame 6 sd.cacheTop with hr
  have hne : ∀ t < numTracks, t ≠ pos / SD_TRACK_SIZE → find 6 r.1 t = find 6 sd.cacheTop t :=
    fun t htn hne => hother t fun hk => hne (SameKey.eq hk htn hlt)
  obtain ⟨hcached, hflushed, hresult⟩ := hself.coherent (fun x hx => h.cached _ x hlt hx)
    (h.flushed _ hlt)
  refine ⟨⟨h.ok, h.size, h.noHangup, hpaths, fun t x htn hx => ?_, fun t x htn hx o ho => ?_,
    fun t htn o ho => ?_⟩, hne, hresult, hself⟩
  · by_cases heq : t = pos / SD_TRACK_SIZE
    · rw [heq]
      exact ht
    · rw [hne t htn heq] at hx
      exact h.has t x htn hx
  · by_cases heq : t = pos / SD_TRACK_SIZE
    · subst heq
      exact hcached x hx o ho
    · rw [hne t htn heq] at hx
      exact h.cached t x htn hx o ho
  · by_cases heq : t = pos / SD_TRACK_SIZE
    · subst heq
      exact hflushed o ho
    · simp only [hne t htn heq]
      exact h.flushed t htn o ho

/-! ## Reading -/

theorem Coherent.readTrack (h : Coherent sd content) (ht : sd.drive.Has (pos / SD_TRACK_SIZE))
    (allocFromCacheNow : Bool) (phmAllocFrame : ℕ → Bool) :
    ∃ sd' track, Storage.readTrack sd pos allocFromCacheNow phmAllocFrame = (sd', .ok track) ∧
      Coherent sd' content ∧ sd'.drive = sd.drive ∧
      ∀ o, o < SD_TRACK_SIZE → track o = content (pos / SD_TRACK_SIZE * SD_TRACK_SIZE + o) := by
  obtain ⟨hcoh, -, hresult, hself⟩ := h.getCache ht (!allocFromCacheNow) false phmAllocFrame
  have hlt := Drive.Has.lt_numTracks h ht
  have hflushed := h.flushed _ hlt
  have hread := Drive.readTrack_eq h.ok ht
  unfold Storage.readTrack
  generalize sdGetCache sd.drive pos (!allocFromCacheNow) false phmAllocFrame 6 sd.cacheTop = r
    at hcoh hresult hself ⊢
  obtain ⟨top, result⟩ := r
  cases result with
  | ok track => exact ⟨_, track, rfl, hcoh, rfl, hresult track rfl⟩
  | error error =>
    revert hself
    cases hbefore : find 6 sd.cacheTop (pos / SD_TRACK_SIZE) with
    | some y => exact fun hself => nomatch hself.1
    | none =>
      rintro (⟨-, he, -⟩ | ⟨-, he, -⟩)
      · cases he
      · have herror : error = .EAGAIN ∨ error = .ENOMEM := he.imp Except.error.inj Except.error.inj
        rw [hbefore] at hflushed
        simp only [if_pos herror, hread]
        exact ⟨_, _, rfl, hcoh, rfl, hflushed⟩

/-- The loop of `sdRead` returns what was last written. -/
theorem Coherent.readLoop (h : Coherent sd content) (allocFromCacheNow : Bool)
    (phmAllocFrame : ℕ → ℕ → Bool) {size : ℕ} (buf : List UInt8) (hle : pos + size ≤ sd.drive.totalSize) :
    ∃ sd', Storage.readLoop allocFromCacheNow phmAllocFrame sd pos size buf =
      (sd', .ok (buf ++ content.slice pos size)) ∧ Coherent sd' content ∧ sd'.drive = sd.drive := by
  induction hn : size using Nat.strong_induction_on generalizing sd pos size buf with
  | _ n ih =>
    subst hn
    rw [Storage.readLoop]
    by_cases hzero : size = 0
    · rw [dif_pos hzero, hzero]
      exact ⟨sd, by simp [slice], h, rfl⟩
    · rw [dif_neg hzero]
      obtain ⟨sd₁, track, hexec, hcoh, hdrive, htrack⟩ := h.readTrack
        (h.has_of_lt (by omega : pos < sd.drive.totalSize)) allocFromCacheNow (phmAllocFrame pos)
      have hpos := Nat.div_add_mod' pos SD_TRACK_SIZE
      have hmod : pos % SD_TRACK_SIZE < SD_TRACK_SIZE := Nat.mod_lt _ (by decide)
      set toRead := min (SD_TRACK_SIZE - pos % SD_TRACK_SIZE) size with htoRead
      obtain ⟨sd', hrest, hcoh', hdrive'⟩ := ih (size - toRead) (by omega) hcoh
        (buf ++ track.slice (pos % SD_TRACK_SIZE) toRead)
        (show pos + toRead + (size - toRead) ≤ sd₁.drive.totalSize by rw [hdrive]; omega) rfl
      have hslice : track.slice (pos % SD_TRACK_SIZE) toRead = content.slice pos toRead := by
        refine List.map_congr_left fun k hk => ?_
        rw [List.mem_range] at hk
        rw [htrack _ (by omega), ← Nat.add_assoc, hpos]
      refine ⟨sd', ?_, hcoh', hdrive'.trans hdrive⟩
      simp only [hexec, ← htoRead, hrest]
      rw [hslice, List.append_assoc, ← slice_add, Nat.add_sub_cancel' (by omega)]

/-! ## Writing -/

/-- The data are not lost: the track is in the cache or can be put there, or they are on the drive
already. -/
def KeepsData (sd : StorageDevice) (pos : ℕ) (data : List UInt8) (allocFromCacheNow : Bool)
    (phmAllocFrame : ℕ → Bool) : Prop :=
  (find 6 sd.cacheTop (pos / SD_TRACK_SIZE)).isSome ∨ Granted (!allocFromCacheNow) phmAllocFrame ∨
    sd.drive.disk.slice pos data.length = data

/-- A store to a dirty track in the cache. -/
theorem Coherent.storeTrack {data : List UInt8} (h : Coherent sd content)
    (ht : sd.drive.Has (pos / SD_TRACK_SIZE)) {x : BlockEntry × Bytes}
    (hx : find 6 sd.cacheTop (pos / SD_TRACK_SIZE) = some x) (hdirty : x.1.dirty = true)
    (hfit : pos % SD_TRACK_SIZE + data.length ≤ SD_TRACK_SIZE) :
    let top := Storage.storeTrack pos (fun track => track.setRange (pos % SD_TRACK_SIZE) data) 6
      sd.cacheTop
    Coherent { sd with cacheTop := top } (content.setRange pos data) ∧
      ∀ t < numTracks, t ≠ pos / SD_TRACK_SIZE → find 6 top t = find 6 sd.cacheTop t := by
  have hlt := Drive.Has.lt_numTracks h ht
  have hpos := Nat.div_add_mod' pos SD_TRACK_SIZE
  set f : Bytes → Bytes := fun track => track.setRange (pos % SD_TRACK_SIZE) data with hf
  set top := Storage.storeTrack pos f 6 sd.cacheTop with htop
  have hself : find 6 top (pos / SD_TRACK_SIZE) = some (x.1, f x.2) := by
    have := (find_storeTrack pos f 6 sd.cacheTop _).1 fun _ _ => rfl
    rw [hx] at this
    exact this
  have hne : ∀ t < numTracks, t ≠ pos / SD_TRACK_SIZE → find 6 top t = find 6 sd.cacheTop t :=
    fun t htn hne => (find_storeTrack pos f 6 sd.cacheTop t).2 fun hk => hne (SameKey.eq hk htn hlt)
  -- the content of the track that is written, and of the others
  have hcontent : ∀ o, o < SD_TRACK_SIZE →
      f x.2 o = content.setRange pos data (pos / SD_TRACK_SIZE * SD_TRACK_SIZE + o) := by
    intro o ho
    have hadd := setRange_add content (pos / SD_TRACK_SIZE * SD_TRACK_SIZE) (pos % SD_TRACK_SIZE) o
      data
    rw [hpos] at hadd
    rw [hadd]
    show setRange x.2 (pos % SD_TRACK_SIZE) data o = _
    unfold setRange
    split_ifs
    · rfl
    · exact h.cached _ x hlt hx o ho
  have hother : ∀ t, t ≠ pos / SD_TRACK_SIZE → ∀ o, o < SD_TRACK_SIZE →
      content.setRange pos data (t * SD_TRACK_SIZE + o) = content (t * SD_TRACK_SIZE + o) := by
    intro t hne o ho
    refine setRange_of_notMem ?_
    unfold SD_TRACK_SIZE at *
    omega
  refine ⟨⟨h.ok, h.size, h.noHangup, storeTrack_dirtyPaths f 6 _ h.dirtyPaths,
    fun t y htn hy => ?_, fun t y htn hy o ho => ?_, fun t htn o ho => ?_⟩, hne⟩
  · by_cases heq : t = pos / SD_TRACK_SIZE
    · rw [heq]
      exact ht
    · rw [hne t htn heq] at hy
      exact h.has t y htn hy
  · by_cases heq : t = pos / SD_TRACK_SIZE
    · subst heq
      obtain rfl := Option.some.inj (hself.symm.trans hy)
      exact hcontent o ho
    · rw [hne t htn heq] at hy
      rw [hother t heq o ho]
      exact h.cached t y htn hy o ho
  · by_cases heq : t = pos / SD_TRACK_SIZE
    · subst heq
      simp only [hself]
      rw [← hcontent o ho, dirtyByte, if_pos hdirty]
      rfl
    · simp only [hne t htn heq]
      rw [hother t heq o ho]
      exact h.flushed t htn o ho

theorem Coherent.writeTrack {data : List UInt8} (h : Coherent sd content)
    (ht : sd.drive.Has (pos / SD_TRACK_SIZE))
    (hfit : pos % SD_TRACK_SIZE + data.length ≤ SD_TRACK_SIZE)
    (hkeep : KeepsData sd pos data allocFromCacheNow phmAllocFrame) :
    ∃ sd', Storage.writeTrack sd pos data allocFromCacheNow phmAllocFrame = (sd', .ok ()) ∧
      Coherent sd' (content.setRange pos data) ∧ sd'.drive = sd.drive ∧
      ∀ t < numTracks, t ≠ pos / SD_TRACK_SIZE →
        find 6 sd'.cacheTop t = find 6 sd.cacheTop t := by
  obtain ⟨hcoh, hne, -, hself⟩ := h.getCache ht (!allocFromCacheNow) true phmAllocFrame
  have hlt := Drive.Has.lt_numTracks h ht
  have hflushed := h.flushed _ hlt
  have hread := Drive.readTrack_eq h.ok ht
  unfold Storage.writeTrack
  generalize sdGetCache sd.drive pos (!allocFromCacheNow) true phmAllocFrame 6 sd.cacheTop = r
    at hcoh hne hself ⊢
  obtain ⟨top, result⟩ := r
  cases result with
  | ok track =>
    have hfound : ∃ x, find 6 top (pos / SD_TRACK_SIZE) = some x ∧ x.1.dirty = true := by
      revert hself
      cases find 6 sd.cacheTop (pos / SD_TRACK_SIZE) with
      | none =>
        rintro (⟨-, -, hfound⟩ | ⟨-, he, -⟩)
        · exact ⟨_, hfound, rfl⟩
        · rcases he with he | he
          · cases he
          · cases he
      | some y =>
        rintro ⟨-, usage, hfound⟩
        exact ⟨_, hfound, Bool.or_true _⟩
    obtain ⟨x, hx, hdirty⟩ := hfound
    obtain ⟨hcoh', hne'⟩ := hcoh.storeTrack ht hx hdirty hfit
    exact ⟨_, rfl, hcoh', rfl, fun t htn htne => (hne' t htn htne).trans (hne t htn htne)⟩
  | error error =>
    revert hself hkeep
    unfold KeepsData
    cases hbefore : find 6 sd.cacheTop (pos / SD_TRACK_SIZE) with
    | some y => exact fun _ hself => nomatch hself.1
    | none =>
      rintro (hcached | hgranted | hdata) (⟨-, he, -⟩ | ⟨hng, he, -⟩)
      · cases hcached
      · cases hcached
      · cases he
      · exact absurd hgranted hng
      · cases he
      · have herror : error = .EAGAIN ∨ error = .ENOMEM := he.imp Except.error.inj Except.error.inj
        rw [hbefore] at hflushed
        have hsame : content.setRange pos data = content := by
          have hpos := Nat.div_add_mod' pos SD_TRACK_SIZE
          have hslice : sd.drive.disk.slice pos data.length = content.slice pos data.length := by
            refine slice_congr fun o h₁ h₂ => ?_
            obtain ⟨k, rfl⟩ := Nat.exists_eq_add_of_le
              (show pos / SD_TRACK_SIZE * SD_TRACK_SIZE ≤ o by omega)
            exact hflushed k (by omega)
          rw [← hdata, hslice, setRange_slice]
        rw [hsame]
        have hread' : ({ sd with cacheTop := top } : StorageDevice).drive.readTrack pos = .ok _ :=
          hread
        refine ⟨{ sd with cacheTop := top }, (if_pos herror).trans ?_, hcoh, rfl, hne⟩
        rw [hread']

/-- No track that is written loses its data: `phmAllocFrame` is asked where the track is entered. -/
def Writable (sd : StorageDevice) (pos : ℕ) (data : List UInt8) (allocFromCacheNow : Bool)
    (phmAllocFrame : ℕ → ℕ → Bool) : Prop :=
  ∀ t start n, start = max pos (t * SD_TRACK_SIZE) →
    n = min (pos + data.length) ((t + 1) * SD_TRACK_SIZE) - start → 0 < n →
    KeepsData sd start ((data.drop (start - pos)).take n) allocFromCacheNow (phmAllocFrame start)

theorem Coherent.writeLoop {data : List UInt8} (written : ℕ) (h : Coherent sd content)
    {phmAllocFrame : ℕ → ℕ → Bool} (hle : pos + data.length ≤ sd.drive.totalSize)
    (hok : Writable sd pos data allocFromCacheNow phmAllocFrame) :
    ∃ sd', Storage.writeLoop allocFromCacheNow phmAllocFrame sd pos data written =
      (sd', .ok (written + data.length)) ∧ Coherent sd' (content.setRange pos data) ∧
      sd'.drive = sd.drive := by
  induction hn : data.length using Nat.strong_induction_on
    generalizing sd pos data written content with
  | _ n ih =>
    subst hn
    rw [Storage.writeLoop]
    by_cases hzero : data.length = 0
    · have hnil : content.setRange pos data = content := funext fun o =>
        setRange_of_notMem (by omega)
      rw [dif_pos hzero, hzero, hnil]
      exact ⟨sd, rfl, h, rfl⟩
    · rw [dif_neg hzero]
      dsimp only
      have hpos := Nat.div_add_mod' pos SD_TRACK_SIZE
      have hmod : pos % SD_TRACK_SIZE < SD_TRACK_SIZE := Nat.mod_lt _ (by decide)
      have hsucc : (pos / SD_TRACK_SIZE + 1) * SD_TRACK_SIZE =
          pos / SD_TRACK_SIZE * SD_TRACK_SIZE + SD_TRACK_SIZE := Nat.succ_mul ..
      set k := min (SD_TRACK_SIZE - pos % SD_TRACK_SIZE) data.length with hk
      have htake : (data.take k).length = k := by rw [List.length_take]; omega
      have hkeep := hok (pos / SD_TRACK_SIZE) pos k (by omega) (by omega) (by omega)
      rw [Nat.sub_self, List.drop_zero] at hkeep
      have hhas := h.has_of_lt (by omega : pos < sd.drive.totalSize)
      obtain ⟨sd₁, hexec, hcoh, hdrive, hother⟩ := h.writeTrack hhas (by omega) hkeep
      -- the condition for the tracks that follow
      have hok' : Writable sd₁ (pos + k) (data.drop k) allocFromCacheNow phmAllocFrame := by
        intro t start m hstart hm hpos'
        rw [List.length_drop] at hm
        have hnext : pos / SD_TRACK_SIZE < t ∧ start = t * SD_TRACK_SIZE := by
          unfold SD_TRACK_SIZE at *
          omega
        obtain ⟨hlt, hstart'⟩ := hnext
        have hbefore : pos < t * SD_TRACK_SIZE := (Nat.div_lt_iff_lt_mul (by decide)).1 hlt
        have hlast : m = min (pos + data.length) ((t + 1) * SD_TRACK_SIZE) - start := by
          rw [hm, Nat.add_assoc, Nat.add_sub_cancel' (by omega)]
        have htrack := hok t start m (hstart'.trans (max_eq_right hbefore.le).symm) hlast hpos'
        have hdiv : start / SD_TRACK_SIZE = t := by
          rw [hstart']
          exact Nat.mul_div_cancel t (by decide)
        have hhas' : sd.drive.Has (start / SD_TRACK_SIZE) := h.has_of_lt (by omega)
        rw [List.drop_drop, show k + (start - (pos + k)) = start - pos by omega]
        unfold KeepsData at htrack ⊢
        rwa [hdrive, hother _ (Drive.Has.lt_numTracks h hhas') (by rw [hdiv]; omega)]
      have hle' : pos + k + (data.drop k).length ≤ sd₁.drive.totalSize := by
        rw [List.length_drop, hdrive]
        omega
      obtain ⟨sd', hrest, hcoh', hdrive'⟩ := ih (data.drop k).length
        (by rw [List.length_drop]; omega) (written + k) hcoh hle' hok' rfl
      refine ⟨sd', ?_, by rwa [setRange_take_drop] at hcoh', hdrive'.trans hdrive⟩
      simp only [hexec, hrest]
      rw [List.length_drop, Nat.add_assoc, Nat.add_sub_cancel' (by omega)]

/-! ## Flushing and freeing -/

theorem Coherent.flush (h : Coherent sd content) :
    Coherent (sdFlush sd) content ∧
      ∀ o, o < sd.drive.totalSize → (sdFlush sd).drive.disk o = content o := by
  have hhas : ∀ t x, t / 128 ^ (6 + 1) = 0 → find 6 sd.cacheTop t = some x → sd.drive.Has t :=
    fun t x ht => h.has t x (div_eq_zero_iff_lt.1 ht)
  have hf := sdFlushTree_spec h.ok 6 0 sd.cacheTop h.dirtyPaths hhas
  rw [sdFlush]
  generalize sdFlushTree 6 sd.drive sd.cacheTop 0 = r at hf ⊢
  obtain ⟨top, d⟩ := r
  have hdisk : ∀ t, t < numTracks → ∀ o, o < SD_TRACK_SIZE →
      d.disk (t * SD_TRACK_SIZE + o) = content (t * SD_TRACK_SIZE + o) := by
    intro t ht o ho
    rw [hf.disk t o ho, if_pos (div_eq_zero_iff_lt.2 ht)]
    exact h.flushed t ht o ho
  refine ⟨⟨hf.same.ok h.ok, ?_, h.noHangup, hf.dirtyPaths, fun t x ht hx => ?_,
    fun t x ht hx => ?_, fun t ht o ho => ?_⟩, fun o ho => ?_⟩
  · have hsize := h.size
    rw [← hf.same.2] at hsize
    exact hsize
  · rw [hf.find t] at hx
    obtain ⟨y, hy, -⟩ := Option.map_eq_some_iff.1 hx
    exact hf.same.has (h.has t y ht hy)
  · rw [hf.find t] at hx
    obtain ⟨y, hy, rfl⟩ := Option.map_eq_some_iff.1 hx
    exact h.cached t y ht hy
  · have hnone : dirtyByte (find 6 top t) o = none := by
      rw [hf.find t]
      refine dirtyByte_of_clean fun x hx => ?_
      obtain ⟨y, -, rfl⟩ := Option.map_eq_some_iff.1 hx
      exact Bool.false_ne_true
    simp only [hnone]
    exact hdisk t ht o ho
  · have hlt := Drive.Has.lt_numTracks h (h.has_of_lt ho)
    have := hdisk _ hlt (o % SD_TRACK_SIZE) (Nat.mod_lt _ (by decide))
    rwa [Nat.div_add_mod'] at this

theorem Coherent.tryFree (h : Coherent sd content) :
    ∃ top d freed, sdTryFree 6 sd.drive sd.cacheTop 0 = some (top, d, freed) ∧
      Coherent { sd with drive := d, cacheTop := top } content := by
  have hhas : ∀ t x, t / 128 ^ (6 + 1) = 0 → find 6 sd.cacheTop t = some x → sd.drive.Has t :=
    fun t x ht => h.has t x (div_eq_zero_iff_lt.1 ht)
  obtain ⟨top, d, freed, hexec, hf⟩ := sdTryFree_spec h.ok 6 0 sd.cacheTop h.dirtyPaths hhas
  refine ⟨top, d, freed, hexec, ?_⟩
  have hsize : SD_TRACK_SIZE ∣ d.totalSize ∧ d.totalSize ≤ numTracks * SD_TRACK_SIZE := by
    rw [hf.same.2]
    exact h.size
  cases freed with
  | false =>
    obtain ⟨rfl, hnone⟩ := hf.nothing rfl
    refine ⟨h.ok, h.size, h.noHangup, hf.dirtyPaths, fun t x _ hx => ?_, fun t x _ hx => ?_,
      fun t ht o ho => ?_⟩
    · cases (hnone t).2.symm.trans hx
    · cases (hnone t).2.symm.trans hx
    · simp only [(hnone t).2]
      rw [← (hnone t).1]
      exact h.flushed t ht o ho
  | true =>
    obtain ⟨t₀, x, ht₀, hx, hgone, hother, hdisk⟩ := hf.found rfl
    have hlt := div_eq_zero_iff_lt.1 ht₀
    have hne : ∀ t < numTracks, t ≠ t₀ → find 6 top t = find 6 sd.cacheTop t := fun t ht hne =>
      hother t fun hk => hne (SameKey.eq hk ht hlt)
    refine ⟨hf.same.ok h.ok, hsize, h.noHangup, hf.dirtyPaths, fun t y ht hy => ?_,
      fun t y ht hy => ?_, fun t ht o ho => ?_⟩
    · by_cases heq : t = t₀
      · rw [heq, hgone] at hy
        cases hy
      · rw [hne t ht heq] at hy
        exact hf.same.has (h.has t y ht hy)
    · by_cases heq : t = t₀
      · rw [heq, hgone] at hy
        cases hy
      · rw [hne t ht heq] at hy
        exact h.cached t y ht hy
    · simp only [hdisk t o ho]
      by_cases heq : t = t₀
      · subst heq
        rw [if_pos rfl, hgone, ← hx]
        exact h.flushed t ht o ho
      · rw [if_neg heq, hne t ht heq]
        exact h.flushed t ht o ho

end Coherent

/-! ## Runs -/

/-- A device, with what was last written to it. -/
structure CacheState where
  sd : StorageDevice
  content : Bytes

/-- Calls on a device; whether frames can be allocated is chosen for each. -/
inductive CacheOp where
  | sdWrite (pos : ℕ) (data : List UInt8) (allocFromCacheNow : Bool)
      (phmAllocFrame : ℕ → ℕ → Bool)
  | sdRead (pos size : ℕ) (allocFromCacheNow : Bool) (phmAllocFrame : ℕ → ℕ → Bool)
  | sdFlush
  | sdTryFree

namespace CacheState

/-- A call in the device, and what it leaves. -/
def exec (s : CacheState) : CacheOp → Option CacheState
  | .sdWrite pos data allocFromCacheNow phmAllocFrame =>
    if pos + data.length ≤ s.sd.drive.totalSize then
      some ⟨(sdWrite s.sd pos data allocFromCacheNow phmAllocFrame).1, s.content.setRange pos data⟩
    else none
  | .sdRead pos size allocFromCacheNow phmAllocFrame =>
    if pos + size ≤ s.sd.drive.totalSize then
      some { s with sd := (sdRead s.sd pos size allocFromCacheNow phmAllocFrame).1 }
    else none
  | .sdFlush => some { s with sd := sdFlush s.sd }
  | .sdTryFree => (sdTryFree 6 s.sd.drive s.sd.cacheTop 0).map fun r =>
      { s with sd := { s.sd with drive := r.2.1, cacheTop := r.1 } }

/-- What is written is not lost. -/
def StepOk (s : CacheState) : CacheOp → Prop
  | .sdWrite pos data allocFromCacheNow phmAllocFrame =>
    Writable s.sd pos data allocFromCacheNow phmAllocFrame
  | _ => True

/-- Reading gives what was last written, and flushing puts it on the drive. -/
def Transparent (s : CacheState) : Prop :=
  (∀ pos size allocFromCacheNow phmAllocFrame, pos + size ≤ s.sd.drive.totalSize →
    (sdRead s.sd pos size allocFromCacheNow phmAllocFrame).2 = .ok (s.content.slice pos size)) ∧
  ∀ o, o < s.sd.drive.totalSize → (sdFlush s.sd).drive.disk o = s.content o

end CacheState

/-- A new device: blocks that divide a track, and tracks that divide the device. -/
def NewDevice (sd : StorageDevice) : Prop :=
  sd.drive.Ok ∧ SD_TRACK_SIZE ∣ sd.drive.totalSize ∧
    sd.drive.totalSize ≤ numTracks * SD_TRACK_SIZE ∧ sd.flags &&& SD_HANGUP = 0 ∧
    sd.cacheTop = empty 6

/-- The runs of the cache of a device. -/
def sdSystem : System CacheState CacheOp where
  init s := NewDevice s.sd ∧ s.content = s.sd.drive.disk
  step s op t := s.exec op = some t

theorem CacheState.exec_sdWrite {s : CacheState} {pos : ℕ} {data : List UInt8}
    (h : pos + data.length ≤ s.sd.drive.totalSize) (allocFromCacheNow : Bool)
    (phmAllocFrame : ℕ → ℕ → Bool) : s.exec (.sdWrite pos data allocFromCacheNow phmAllocFrame) =
      some ⟨(sdWrite s.sd pos data allocFromCacheNow phmAllocFrame).1,
        s.content.setRange pos data⟩ := if_pos h

theorem Coherent.new {sd : StorageDevice} (h : NewDevice sd) : Coherent sd sd.drive.disk := by
  obtain ⟨hok, hdvd, hsize, hflags, htop⟩ := h
  have hfind : ∀ t, find 6 sd.cacheTop t = none := fun t => by rw [htop, find_empty]
  refine ⟨hok, ⟨hdvd, hsize⟩, hflags, by rw [htop]; exact closed_empty 6, fun t x _ hx => ?_,
    fun t x _ hx => ?_, fun t _ o _ => by simp [hfind, dirtyByte]⟩
  · cases (hfind t).symm.trans hx
  · cases (hfind t).symm.trans hx

theorem Coherent.sdRead {s : CacheState} (h : Coherent s.sd s.content) {pos size : ℕ}
    (allocFromCacheNow : Bool) (phmAllocFrame : ℕ → ℕ → Bool)
    (hle : pos + size ≤ s.sd.drive.totalSize) :
    (Storage.sdRead s.sd pos size allocFromCacheNow phmAllocFrame).2 =
      .ok (s.content.slice pos size) ∧
    Coherent (Storage.sdRead s.sd pos size allocFromCacheNow phmAllocFrame).1 s.content := by
  obtain ⟨sd', hexec, hcoh, -⟩ := h.readLoop allocFromCacheNow phmAllocFrame [] hle
  rw [Storage.sdRead, if_neg (not_not_intro h.noHangup), hexec]
  exact ⟨rfl, hcoh⟩

theorem Coherent.step {s t : CacheState} {op : CacheOp} (h : Coherent s.sd s.content)
    (hc : s.StepOk op) (hs : s.exec op = some t) : Coherent t.sd t.content := by
  cases op with
  | sdWrite pos data allocFromCacheNow phmAllocFrame =>
    rw [CacheState.exec] at hs
    split_ifs at hs with hle
    obtain rfl := Option.some.inj hs
    obtain ⟨sd', hexec, hcoh, -⟩ := h.writeLoop 0 hle hc
    simp only [Storage.sdWrite, if_neg (not_not_intro h.noHangup), hexec]
    exact hcoh
  | sdRead pos size allocFromCacheNow phmAllocFrame =>
    rw [CacheState.exec] at hs
    split_ifs at hs with hle
    obtain rfl := Option.some.inj hs
    exact (h.sdRead allocFromCacheNow phmAllocFrame hle).2
  | sdFlush =>
    obtain rfl := Option.some.inj hs
    exact h.flush.1
  | sdTryFree =>
    obtain ⟨top, d, freed, hexec, hcoh⟩ := h.tryFree
    rw [CacheState.exec, hexec] at hs
    obtain rfl := Option.some.inj hs
    exact hcoh

/-- A device of one track, with zeros on it. -/
def zeroDevice : StorageDevice := ⟨0, ⟨512, 0x8000, fun _ => 0⟩, empty 6⟩

theorem newDevice_zeroDevice : NewDevice zeroDevice :=
  ⟨⟨by decide, by decide⟩, by decide, by decide, by decide, rfl⟩

theorem init_zeroDevice : sdSystem.init ⟨zeroDevice, fun _ => 0⟩ := ⟨newDevice_zeroDevice, rfl⟩

/-- A byte is written to the device of zeros. -/
theorem step_zeroDevice (allocFromCacheNow : Bool) :
    sdSystem.step ⟨zeroDevice, fun _ => 0⟩ (.sdWrite 0 [7] allocFromCacheNow fun _ _ => true)
      ⟨(sdWrite zeroDevice 0 [7] allocFromCacheNow fun _ _ => true).1,
        setRange (fun _ => 0) 0 [7]⟩ :=
  CacheState.exec_sdWrite (show 0 + 1 ≤ 0x8000 by decide) _ _

end Glidix.Storage
