import Glidix.Storage.Cache

/-!
# The block tree

What the operations on the block tree do, in terms of the track that is found for a number
(`Radix.find`): the tracks are numbered by their positions, and `sdGetCache` changes at most the
entry of the track that is asked for.
-/

namespace Glidix.Storage

open Bytes Radix

/-! ## Tracks on the drive -/

/-- The blocks of a drive divide a track. -/
def Drive.Ok (d : Drive) : Prop := 0 < d.blockSize ∧ d.blockSize ∣ SD_TRACK_SIZE

/-- Track `t` is on the drive. -/
def Drive.Has (d : Drive) (t : ℕ) : Prop := (t + 1) * SD_TRACK_SIZE ≤ d.totalSize

/-- `d'` is the drive `d`, with another content. -/
def Drive.Same (d d' : Drive) : Prop := d'.blockSize = d.blockSize ∧ d'.totalSize = d.totalSize

section Drive

variable {d d' d'' : Drive} {t pos : ℕ}

theorem Drive.Same.refl (d : Drive) : d.Same d := ⟨rfl, rfl⟩

theorem Drive.Same.trans (h : d.Same d') (h' : d'.Same d'') : d.Same d'' :=
  ⟨h'.1.trans h.1, h'.2.trans h.2⟩

theorem Drive.Same.ok (h : d.Same d') (hd : d.Ok) : d'.Ok := by
  unfold Ok
  rw [h.1]
  exact hd

theorem Drive.Same.has (h : d.Same d') (hd : d.Has t) : d'.Has t := by
  unfold Has
  rw [h.2]
  exact hd

/-- The blocks of a track. -/
theorem Drive.Ok.blocks (h : d.Ok) (t : ℕ) :
    t * SD_TRACK_SIZE / d.blockSize * d.blockSize = t * SD_TRACK_SIZE ∧
      (t * SD_TRACK_SIZE / d.blockSize + SD_TRACK_SIZE / d.blockSize) * d.blockSize =
        (t + 1) * SD_TRACK_SIZE := by
  have hdiv : d.blockSize ∣ t * SD_TRACK_SIZE := h.2.mul_left t
  rw [Nat.add_mul, Nat.div_mul_cancel hdiv, Nat.div_mul_cancel h.2, Nat.succ_mul]
  exact ⟨rfl, rfl⟩

theorem Drive.readTrack_eq (h : d.Ok) (hpos : d.Has (pos / SD_TRACK_SIZE)) :
    d.readTrack pos = .ok fun o => d.disk (pos / SD_TRACK_SIZE * SD_TRACK_SIZE + o) := by
  obtain ⟨hstart, hend⟩ := h.blocks (pos / SD_TRACK_SIZE)
  have hle : (pos / SD_TRACK_SIZE + 1) * SD_TRACK_SIZE ≤ d.totalSize := hpos
  rw [readTrack, readBlocks, hend, if_pos hle, hstart]

theorem Drive.writeTrack_same (d : Drive) (bytepos : ℕ) (buffer : Bytes) :
    d.Same (d.writeTrack bytepos buffer) := by
  unfold writeTrack writeBlocks
  split_ifs
  · exact ⟨rfl, rfl⟩
  · exact Same.refl d

theorem Drive.disk_writeTrack (h : d.Ok) (ht : d.Has t) (buffer : Bytes) {u o : ℕ}
    (ho : o < SD_TRACK_SIZE) :
    (d.writeTrack (t * SD_TRACK_SIZE) buffer).disk (u * SD_TRACK_SIZE + o) =
      if u = t then buffer o else d.disk (u * SD_TRACK_SIZE + o) := by
  obtain ⟨hstart, hend⟩ := h.blocks t
  have hle : (t + 1) * SD_TRACK_SIZE ≤ d.totalSize := ht
  rw [writeTrack, writeBlocks, hend, if_pos hle, hstart]
  unfold SD_TRACK_SIZE at *
  by_cases hut : u = t
  · rw [if_pos hut, hut]
    simp only
    rw [if_pos (by omega), Nat.add_sub_cancel_left]
  · rw [if_neg hut]
    exact if_neg (by omega)

end Drive

/-! ## Looking up -/

theorem sub_eq (pos n : ℕ) : sub pos n = digit 128 n (pos / SD_TRACK_SIZE) := by
  have hpow : 2 ^ (15 + 7 * n) = SD_TRACK_SIZE * 128 ^ n := by
    rw [Nat.pow_add, Nat.pow_mul]
    rfl
  rw [sub, digit, Nat.shiftRight_eq_div_pow, hpow, Nat.div_div_eq_div_mul]

section Lookup

variable {pos t : ℕ}

theorem find_storeTrack (pos : ℕ) (f : Bytes → Bytes) (n : ℕ) (node : BlockTreeNode n) (t : ℕ) :
    (SameKey 128 n t (pos / SD_TRACK_SIZE) →
      find n (storeTrack pos f n node) t = (find n node t).map fun x => (x.1, f x.2)) ∧
    (¬ SameKey 128 n t (pos / SD_TRACK_SIZE) →
      find n (storeTrack pos f n node) t = find n node t) := by
  induction n with
  | zero =>
    rw [sameKey_zero, ← sub_eq]
    unfold storeTrack
    cases hnode : node (sub pos 0) with
    | none =>
      refine ⟨fun h => ?_, fun _ => rfl⟩
      have hnone : find 0 node t = none := by rw [find, h, hnode]
      show find 0 node t = (find 0 node t).map _
      rw [hnone]
      rfl
    | some x =>
      refine ⟨fun h => ?_, fun h => find_zero_update_of_ne node h⟩
      rw [find_zero_update_self node h, find, h, hnode]
      rfl
  | succ n ih =>
    rw [sameKey_succ, ← sub_eq]
    unfold storeTrack
    cases hnode : node (sub pos (n + 1)) with
    | none =>
      refine ⟨fun h => ?_, fun _ => rfl⟩
      have hnone : find (n + 1) node t = none := find_of_none (by rw [h.1, hnode])
      show find (n + 1) node t = (find (n + 1) node t).map _
      rw [hnone]
      rfl
    | some x =>
      refine ⟨fun h => ?_, fun h => ?_⟩
      · rw [find_update_self node h.1, find_of_some (by rw [h.1, hnode])]
        exact (ih x.2).1 h.2
      · by_cases hd : digit 128 (n + 1) t = sub pos (n + 1)
        · rw [find_update_self node hd, find_of_some (by rw [hd, hnode])]
          exact (ih x.2).2 fun hk => h ⟨hd, hk⟩
        · rw [find_update_of_ne hd]

/-- Tracks may be put into the cache, and there is room for one. -/
def Granted (make : Bool) (phmAllocFrame : ℕ → Bool) : Prop :=
  make = true ∧ (List.range 8).all phmAllocFrame = true

/-- What `sdGetCache` finds, and what the tree has then. -/
def CacheResult (dirty : Bool) (data : Bytes) (granted : Prop) :
    Option (BlockEntry × Bytes) → Except Errno Bytes → Option (BlockEntry × Bytes) → Prop
  | some (entry, track), result, found => result = .ok track ∧
    ∃ usage, found = some (⟨entry.dirty || dirty, usage⟩, track)
  | none, result, found => (granted ∧ result = .ok data ∧ found = some (⟨dirty, 1⟩, data)) ∨
    (¬ granted ∧ (result = .error .EAGAIN ∨ result = .error .ENOMEM) ∧ found = none)

variable {d : Drive} {data : Bytes}

theorem sdGetCache_find (hread : d.readTrack pos = .ok data) (make dirty : Bool)
    (phmAllocFrame : ℕ → Bool) (n : ℕ) (node : BlockTreeNode n) :
    let r := sdGetCache d pos make dirty phmAllocFrame n node
    (∀ t, ¬ SameKey 128 n t (pos / SD_TRACK_SIZE) → find n r.1 t = find n node t) ∧
    CacheResult dirty data (Granted make phmAllocFrame) (find n node (pos / SD_TRACK_SIZE)) r.2
      (find n r.1 (pos / SD_TRACK_SIZE)) := by
  induction n with
  | zero =>
    have hdigit := sub_eq pos 0
    cases hnode : node (sub pos 0) with
    | none =>
      have hfind : find 0 node (pos / SD_TRACK_SIZE) = none := by rw [find, ← hdigit, hnode]
      simp only [sdGetCache, hnode]
      rw [hfind]
      cases make with
      | false => exact ⟨fun _ _ => rfl, Or.inr ⟨by simp [Granted], Or.inl rfl, hfind⟩⟩
      | true =>
        cases hframes : (List.range 8).all phmAllocFrame with
        | false =>
          simp only [Bool.true_eq_false, if_false, if_true]
          exact ⟨fun _ _ => trivial, Or.inr ⟨by simp [Granted, hframes], Or.inr rfl, hfind⟩⟩
        | true =>
          simp only [Bool.true_eq_false, if_false, hread]
          refine ⟨fun t ht => ?_, Or.inl ⟨⟨rfl, hframes⟩, rfl, ?_⟩⟩
          · exact find_zero_update_of_ne node fun h => ht (sameKey_zero.2 (by rw [h, hdigit]))
          · exact find_zero_update_self node hdigit.symm
    | some x =>
      have hfind : find 0 node (pos / SD_TRACK_SIZE) = some x := by rw [find, ← hdigit, hnode]
      simp only [sdGetCache, hnode]
      rw [hfind]
      refine ⟨fun t ht => ?_, rfl, x.1.usage, find_zero_update_self node hdigit.symm⟩
      exact find_zero_update_of_ne node fun h => ht (sameKey_zero.2 (by rw [h, hdigit]))
  | succ n ih =>
    have hdigit := sub_eq pos (n + 1)
    cases hnode : node (sub pos (n + 1)) with
    | none =>
      have hfind : ∀ t, digit 128 (n + 1) t = sub pos (n + 1) → find (n + 1) node t = none :=
        fun t ht => find_of_none (by rw [ht, hnode])
      cases make with
      | false =>
        simp only [sdGetCache, hnode, if_true]
        rw [hfind _ hdigit.symm]
        exact ⟨fun _ _ => trivial, Or.inr ⟨by simp [Granted], Or.inl rfl, rfl⟩⟩
      | true =>
        obtain ⟨hother, hself⟩ := ih (empty n)
        simp only [sdGetCache, hnode, Bool.true_eq_false, if_false]
        rw [hfind _ hdigit.symm, find_update_self node hdigit.symm]
        rw [find_empty] at hself
        refine ⟨fun t ht => ?_, hself⟩
        by_cases hd : digit 128 (n + 1) t = sub pos (n + 1)
        · rw [find_update_self node hd, hfind t hd]
          exact (hother t fun hk => ht (sameKey_succ.2 ⟨by rw [hd, hdigit], hk⟩)).trans
            (find_empty n t)
        · exact find_update_of_ne hd
    | some x =>
      have hfind : ∀ t, digit 128 (n + 1) t = sub pos (n + 1) →
          find (n + 1) node t = find n x.2 t := fun t ht => find_of_some (by rw [ht, hnode])
      obtain ⟨hother, hself⟩ := ih x.2
      simp only [sdGetCache, hnode]
      rw [hfind _ hdigit.symm, find_update_self node hdigit.symm]
      refine ⟨fun t ht => ?_, hself⟩
      by_cases hd : digit 128 (n + 1) t = sub pos (n + 1)
      · rw [find_update_self node hd, hfind t hd]
        exact hother t fun hk => ht (sameKey_succ.2 ⟨by rw [hd, hdigit], hk⟩)
      · exact find_update_of_ne hd

end Lookup

/-! ## Dirty paths -/

/-- The way to a dirty track is dirty. -/
@[reducible] def DirtyPaths (n : ℕ) (node : BlockTreeNode n) : Prop :=
  Closed (fun e : BlockEntry => e.dirty = true) n node

section DirtyPaths

variable {pos : ℕ} {d : Drive} {data : Bytes} {dirty : Bool}

theorem CacheResult.not_dirty {granted : Prop} {before found : Option (BlockEntry × Bytes)}
    {result : Except Errno Bytes} (h : CacheResult dirty data granted before result found)
    (hdirty : dirty = false) (hb : ∀ x, before = some x → ¬ x.1.dirty = true) :
    ∀ x, found = some x → ¬ x.1.dirty = true := by
  intro x hx
  cases before with
  | none =>
    rcases h with ⟨-, -, hfound⟩ | ⟨-, -, hfound⟩
    · obtain rfl := Option.some.inj (hfound.symm.trans hx)
      simp [hdirty]
    · cases hfound.symm.trans hx
  | some y =>
    obtain ⟨-, usage, hfound⟩ := h
    obtain rfl := Option.some.inj (hfound.symm.trans hx)
    simpa [hdirty] using hb y rfl

theorem sdGetCache_dirtyPaths (hread : d.readTrack pos = .ok data) (make dirty : Bool)
    (phmAllocFrame : ℕ → Bool) (n : ℕ) (node : BlockTreeNode n) (h : DirtyPaths n node) :
    DirtyPaths n (sdGetCache d pos make dirty phmAllocFrame n node).1 := by
  induction n with
  | zero => trivial
  | succ n ih =>
    -- what is below an entry that is not made dirty
    have hbelow : dirty = false → ∀ child : BlockTreeNode n,
        (∀ t x, find n child t = some x → ¬ x.1.dirty = true) → ∀ t x,
        find n (sdGetCache d pos make dirty phmAllocFrame n child).1 t = some x →
          ¬ x.1.dirty = true := by
      intro hdirty child hchild t x hx
      obtain ⟨hother, hself⟩ := sdGetCache_find hread make dirty phmAllocFrame n child
      by_cases ht : SameKey 128 n t (pos / SD_TRACK_SIZE)
      · rw [find_congr n _ ht] at hx
        exact hself.not_dirty hdirty (hchild _) x hx
      · rw [hother t ht] at hx
        exact hchild t x hx
    cases hnode : node (sub pos (n + 1)) with
    | none =>
      cases make with
      | false => simpa [sdGetCache, hnode] using h
      | true =>
        simp only [sdGetCache, hnode, Bool.true_eq_false, if_false]
        refine h.update_some (ih (empty n) (closed_empty n)) fun hd => ?_
        exact hbelow (Bool.eq_false_iff.2 hd) (empty n) (by simp)
    | some e =>
      obtain ⟨hclosed, hclean⟩ := h _ e hnode
      simp only [sdGetCache, hnode]
      refine h.update_some (ih e.2 hclosed) fun hd => ?_
      rw [Bool.or_eq_true, not_or] at hd
      exact hbelow (Bool.eq_false_iff.2 hd.2) e.2 (hclean hd.1)

theorem storeTrack_dirtyPaths (f : Bytes → Bytes) (n : ℕ) (node : BlockTreeNode n)
    (h : DirtyPaths n node) : DirtyPaths n (storeTrack pos f n node) := by
  induction n with
  | zero => trivial
  | succ n ih =>
    cases hnode : node (sub pos (n + 1)) with
    | none => simpa [storeTrack, hnode] using h
    | some e =>
      obtain ⟨hclosed, hclean⟩ := h _ e hnode
      simp only [storeTrack, hnode]
      refine h.update_some (ih e.2 hclosed) fun hd t x hx => ?_
      obtain ⟨hself, hother⟩ := find_storeTrack pos f n e.2 t
      by_cases ht : SameKey 128 n t (pos / SD_TRACK_SIZE)
      · rw [hself ht] at hx
        obtain ⟨y, hy, rfl⟩ := Option.map_eq_some_iff.1 hx
        exact hclean hd t y hy
      · rw [hother ht] at hx
        exact hclean hd t x hx

end DirtyPaths

end Glidix.Storage
