import Mathlib.Data.List.Range
import Mathlib.Algebra.Order.Ring.Int

/-!
# The bitmap of physical frames

A set bit of `frameBitmap` is a frame in use.  The functions search it from `lowestFreeFrame` on, for a
frame or for a group of 8, 16, 32 or 64 frames; `none` means that they turn to the caches.  The atomic
operations on the bitmap are the plain ones of a single processor.
-/

namespace Glidix.PhysMem

/-- The least index from `a` up to `b`, exclusive, that satisfies `p`. -/
def findFrom (a b : ℕ) (p : ℕ → Bool) : Option ℕ := (List.range' a (b - a)).find? p

theorem findFrom_spec {a b i : ℕ} {p : ℕ → Bool} (h : findFrom a b p = some i) :
    a ≤ i ∧ i < b ∧ p i = true := by
  obtain ⟨hp, hi⟩ := And.intro (List.find?_some h) (List.mem_of_find?_eq_some h)
  rw [List.mem_range'_1] at hi
  exact ⟨hi.1, by omega, hp⟩

theorem findFrom_le {a b i j : ℕ} {p : ℕ → Bool} (h : findFrom a b p = some i) (ha : a ≤ j)
    (hb : j < b) (hp : p j = true) : i ≤ j := by
  by_contra hij
  obtain ⟨-, l₁, l₂, hl, hbefore⟩ := List.find?_eq_some_iff_append.1 h
  have hj : j ∈ List.range' a (b - a) := List.mem_range'_1.2 (by omega)
  have hsorted : (List.range' a (b - a)).Pairwise (· < ·) := List.pairwise_lt_range'
  rw [hl] at hj hsorted
  rcases List.mem_append.1 hj with hj | hj
  · have := hbefore j hj
    simp [hp] at this
  · obtain ⟨hi, -⟩ := List.pairwise_cons.1 (List.pairwise_append.1 hsorted).2.1
    rcases List.mem_cons.1 hj with rfl | hj
    · exact hij (Nat.le_refl _)
    · exact hij (Nat.le_of_lt (hi j hj))

theorem findFrom_isSome {a b j : ℕ} {p : ℕ → Bool} (ha : a ≤ j) (hb : j < b) (hp : p j = true) :
    ∃ i, findFrom a b p = some i :=
  Option.isSome_iff_exists.1 (List.find?_isSome.2 ⟨j, List.mem_range'_1.2 (by omega), hp⟩)

/-- The bits of `frameBitmap` and the variables about it. -/
structure Frames where
  used : ℕ → Bool
  numSystemFrames : ℕ
  lowestFreeFrame : ℕ
  phmUsedFrames : ℤ

namespace Frames

variable (fr : Frames)

/-- All bits of the `i`th group are set. -/
def groupUsed (size i : ℕ) : Bool := (List.range size).all fun j => fr.used (size * i + j)

/-- No bit of the `i`th group is set. -/
def groupFree (size i : ℕ) : Bool := (List.range size).all fun j => !fr.used (size * i + j)

/-- Mark frames as used, and count them. -/
def claim (base count : ℕ) : Frames :=
  { fr with
    used := fun f => fr.used f || decide (base ≤ f ∧ f < base + count)
    phmUsedFrames := fr.phmUsedFrames + count }

/-- The frame that the searches of `phmAllocSingle` and `phmAlloc8` start at, 0 if all groups of 64 are
used. -/
def startAt : ℕ :=
  match findFrom (fr.lowestFreeFrame / 64) (fr.numSystemFrames / 64) fun i => !fr.groupUsed 64 i with
  | none => 0
  | some i => 64 * i

/-- `phmAllocSingle` on the bitmap. -/
def allocSingle : Option (ℕ × Frames) :=
  if fr.startAt = 0 then none
  else (findFrom fr.startAt fr.numSystemFrames fun i => !fr.used i).map fun i => (i, fr.claim i 1)

/-- `phmAlloc8` on the bitmap. -/
def alloc8 : Option (ℕ × Frames) :=
  if fr.startAt = 0 then none
  else (findFrom (fr.startAt / 8) (fr.numSystemFrames / 8) fun i => fr.groupFree 8 i).map
    fun i => (8 * i, fr.claim (8 * i) 8)

/-- `phmAlloc16`, `phmAlloc32` and `phmAlloc64` on the bitmap. -/
def allocGroup (size : ℕ) : Option (ℕ × Frames) :=
  (findFrom (fr.lowestFreeFrame / size) (fr.numSystemFrames / size) fun i => fr.groupFree size i).map
    fun i => (size * i, fr.claim (size * i) size)

/-- `phmFreeFrame`; it panics on the frame 0. -/
def phmFreeFrame (frame : ℕ) : Option Frames :=
  if frame = 0 then none
  else some { fr with
    used := fun f => if f = frame then false else fr.used f
    phmUsedFrames := fr.phmUsedFrames - 1 }

variable {fr} {fr' : Frames} {f base : ℕ}

/-- The frame of `phmAllocSingle` was free, and lies in a whole group of 64. -/
theorem allocSingle_spec (h : fr.allocSingle = some (f, fr')) :
    fr.used f = false ∧ f < 64 * (fr.numSystemFrames / 64) ∧ f ≠ 0 ∧ fr' = fr.claim f 1 := by
  unfold allocSingle at h
  split at h
  · exact nomatch h
  · next hstart =>
    obtain ⟨i, hi, h⟩ := Option.map_eq_some_iff.1 h
    obtain ⟨rfl, rfl⟩ := Prod.mk.inj h
    obtain ⟨hle, hlt, hfree⟩ := findFrom_spec hi
    unfold startAt at hstart hi hle
    split at hstart
    · exact absurd rfl hstart
    · next g hg =>
      obtain ⟨-, hglt, hgroup⟩ := findFrom_spec hg
      simp only [hg] at hi hle
      rw [Bool.not_eq_true', groupUsed, List.all_eq_false] at hgroup
      obtain ⟨j, hj, hused⟩ := hgroup
      rw [List.mem_range] at hj
      have hbound : i ≤ 64 * g + j :=
        findFrom_le hi (by omega) (by omega) (by simpa using hused)
      exact ⟨by simpa using hfree, by omega, by omega, rfl⟩

end Frames

end Glidix.PhysMem
