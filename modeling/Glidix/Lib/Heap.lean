import Mathlib.Logic.Function.Basic
import Mathlib.Data.Nat.Notation

/-!
# A heap of objects

A heap maps addresses to the objects allocated there.  Address `0` is the null pointer; no object
lies at or above `brk`, where the next one is placed.  An address is never given out twice, so a
pointer to a released object stays dangling: `get`, `modify` and `release` answer `none` for it.
-/

/-- Objects of type `α` at their addresses. -/
structure Heap (α : Type*) where
  get : ℕ → Option α
  brk : ℕ
  brk_pos : 0 < brk
  get_zero : get 0 = none
  get_of_le : ∀ a, brk ≤ a → get a = none

namespace Heap

variable {α : Type*}

/-- The heap without objects. -/
def empty : Heap α := ⟨fun _ => none, 1, Nat.one_pos, rfl, fun _ _ => rfl⟩

instance : Inhabited (Heap α) := ⟨empty⟩

/-- Replace the object at `a`, if there is one. -/
def put (h : Heap α) (a : ℕ) (x : α) : Heap α where
  get b := if b = a ∧ (h.get a).isSome then some x else h.get b
  brk := h.brk
  brk_pos := h.brk_pos
  get_zero := by
    rw [if_neg (fun hb => by simp [← hb.1, h.get_zero] at hb), h.get_zero]
  get_of_le b hb := by
    rw [if_neg (fun he => by simp [← he.1, h.get_of_le b hb] at he), h.get_of_le b hb]

/-- Change the object at `a`. -/
def modify (h : Heap α) (a : ℕ) (f : α → α) : Option (Heap α) :=
  (h.get a).map fun x => h.put a (f x)

/-- Place an object at a new address. -/
def new (h : Heap α) (x : α) : ℕ × Heap α :=
  (h.brk,
    { get := Function.update h.get h.brk (some x)
      brk := h.brk + 1
      brk_pos := h.brk.succ_pos
      get_zero := by rw [Function.update_of_ne (Nat.ne_of_lt h.brk_pos), h.get_zero]
      get_of_le := fun a ha => by
        rw [Function.update_of_ne (Nat.ne_of_gt ha), h.get_of_le a (Nat.le_of_succ_le ha)] })

/-- Release the object at `a`. -/
def release (h : Heap α) (a : ℕ) : Option (Heap α) :=
  (h.get a).map fun _ =>
    { get := Function.update h.get a none
      brk := h.brk
      brk_pos := h.brk_pos
      get_zero := by by_cases ha : 0 = a <;> simp [Function.update, ha, h.get_zero]
      get_of_le := fun b hb => by
        by_cases ha : b = a <;> simp [Function.update, ha, h.get_of_le b hb] }

variable {h h' : Heap α} {a b : ℕ} {x y : α}

theorem lt_brk (hx : h.get a = some x) : a < h.brk := by
  by_contra hle
  rw [h.get_of_le a (Nat.le_of_not_lt hle)] at hx
  cases hx

theorem ne_zero (hx : h.get a = some x) : a ≠ 0 := by
  rintro rfl
  rw [h.get_zero] at hx
  cases hx

@[simp] theorem get_empty : (empty : Heap α).get a = none := rfl

theorem get_put_self (hx : h.get a = some x) : (h.put a y).get a = some y := by
  simp [put, hx]

theorem get_put_ne (hb : b ≠ a) : (h.put a y).get b = h.get b := by
  simp [put, hb]

@[simp] theorem brk_put : (h.put a y).brk = h.brk := rfl

@[simp] theorem new_fst : (h.new x).1 = h.brk := rfl

@[simp] theorem brk_new : (h.new x).2.brk = h.brk + 1 := rfl

theorem get_new_self : (h.new x).2.get h.brk = some x := Function.update_self ..

theorem get_new_ne (hb : b ≠ h.brk) : (h.new x).2.get b = h.get b := Function.update_of_ne hb ..

theorem get_new_of_get (hy : h.get b = some y) : (h.new x).2.get b = some y := by
  rw [get_new_ne (Nat.ne_of_lt (lt_brk hy)), hy]

theorem modify_eq (hx : h.get a = some x) (f : α → α) : h.modify a f = some (h.put a (f x)) := by
  rw [modify, hx, Option.map_some]

theorem exists_release (hx : h.get a = some x) :
    ∃ h', h.release a = some h' ∧ h'.get = Function.update h.get a none ∧ h'.brk = h.brk := by
  rw [release, hx]
  exact ⟨_, rfl, rfl, rfl⟩

end Heap
