import Mathlib.Algebra.BigOperators.Group.Finset.Basic
import Mathlib.Algebra.Order.BigOperators.Group.Finset
import Mathlib.Algebra.Order.Ring.Int
import Mathlib.Tactic.Linarith
import Mathlib.Tactic.Ring
import Glidix.Lib.Heap

/-!
# Reference counts

The objects of a heap count the references to them.  A reference is stored in an object (`links`) or
held by somebody outside, who is represented by a list.  `RefCounted h l` says that each counter is the
number of references of both kinds, if `l` are those outside.  It follows that an object with a
reference to it is there, with a positive counter; and that one to which no references are left may
be released.
-/

section RefCount

variable {α : Type*} (count : α → ℤ) (links : ℕ → α → List ℕ)

/-- The counter of an object; zero if it is not there. -/
def counter (h : Heap α) (i : ℕ) : ℤ := ((h.get i).map count).getD 0

/-- The number of references to `i` that the object at `j` stores. -/
def stored (h : Heap α) (i j : ℕ) : ℤ := ((h.get j).map fun x => ((links j x).count i : ℤ)).getD 0

/-- The number of references to `i` that are stored. -/
def allStored (h : Heap α) (i : ℕ) : ℤ := ∑ j ∈ Finset.range h.brk, stored links h i j

/-- The counters are right, if `l` are the references from outside. -/
def RefCounted (h : Heap α) (l : List ℕ) : Prop :=
  ∀ i, counter count h i = allStored links h i + l.count i

variable {count links} {h h' : Heap α} {l l' : List ℕ} {a i j : ℕ} {x y : α}

theorem counter_of_get (hx : h.get i = some x) : counter count h i = count x := by
  rw [counter, hx]
  rfl

theorem counter_of_none (hx : h.get i = none) : counter count h i = 0 := by
  rw [counter, hx]
  rfl

theorem stored_of_get (hx : h.get j = some x) : stored links h i j = (links j x).count i := by
  rw [stored, hx]
  rfl

theorem stored_nonneg : 0 ≤ stored links h i j := by
  rw [stored]
  cases h.get j with
  | none => exact le_rfl
  | some x => exact Int.natCast_nonneg _

theorem allStored_nonneg : 0 ≤ allStored links h i := Finset.sum_nonneg fun _ _ => stored_nonneg

theorem stored_le_allStored : stored links h i j ≤ allStored links h i := by
  by_cases hj : j < h.brk
  · exact Finset.single_le_sum (fun j _ => stored_nonneg (i := i) (j := j)) (Finset.mem_range.2 hj)
  · rw [stored, h.get_of_le j (Nat.le_of_not_lt hj)]
    exact allStored_nonneg

/-- One object is changed. -/
theorem allStored_put (hx : h.get a = some x) : allStored links (h.put a y) i =
    allStored links h i - (links a x).count i + (links a y).count i := by
  have ha : a ∈ Finset.range h.brk := Finset.mem_range.2 (Heap.lt_brk hx)
  have hrest : ∀ j ∈ (Finset.range h.brk).erase a,
      stored links (h.put a y) i j = stored links h i j := fun j hj => by
    rw [stored, stored, Heap.get_put_ne (Finset.ne_of_mem_erase hj)]
  have hsplit := Finset.add_sum_erase (Finset.range h.brk) (stored links h i) ha
  have hsplit' := Finset.add_sum_erase (Finset.range h.brk) (stored links (h.put a y) i) ha
  rw [Finset.sum_congr rfl hrest, stored_of_get (Heap.get_put_self hx)] at hsplit'
  rw [stored_of_get hx] at hsplit
  rw [allStored, allStored, Heap.brk_put, ← hsplit, ← hsplit']
  ring

theorem counter_put (hx : h.get a = some x) :
    counter count (h.put a y) i = counter count h i + if i = a then count y - count x else 0 := by
  by_cases hi : i = a
  · subst hi
    rw [counter_of_get (Heap.get_put_self hx), counter_of_get hx, if_pos rfl]
    ring
  · rw [counter, Heap.get_put_ne hi, if_neg hi, add_zero, counter]

theorem RefCounted.put (hb : RefCounted count links h l) (hx : h.get a = some x)
    (hl : ∀ i, ((links a y).count i : ℤ) + l'.count i =
      (links a x).count i + l.count i + if i = a then count y - count x else 0) :
    RefCounted count links (h.put a y) l' := by
  intro i
  rw [counter_put hx, allStored_put hx, hb i]
  linarith [hl i]

theorem RefCounted.congr (hb : RefCounted count links h l) (hl : ∀ i, l'.count i = l.count i) :
    RefCounted count links h l' := fun i => by rw [hb i, hl i]

/-- A new object. -/
theorem allStored_new : allStored links (h.new x).2 i =
    allStored links h i + (links h.brk x).count i := by
  rw [allStored, Heap.brk_new, Finset.sum_range_succ, stored_of_get Heap.get_new_self, allStored]
  congr 1
  refine Finset.sum_congr rfl fun j hj => ?_
  rw [stored, stored, Heap.get_new_ne (Nat.ne_of_lt (Finset.mem_range.1 hj))]

theorem RefCounted.new (hb : RefCounted count links h l)
    (hl : ∀ i, ((links h.brk x).count i : ℤ) + l'.count i =
      l.count i + if i = h.brk then count x else 0) :
    RefCounted count links (h.new x).2 l' := by
  intro i
  have hi := hb i
  rw [allStored_new]
  by_cases hbrk : i = h.brk
  · subst hbrk
    rw [counter_of_get Heap.get_new_self]
    rw [counter_of_none (h.get_of_le _ le_rfl)] at hi
    have := hl h.brk
    rw [if_pos rfl] at this
    linarith
  · have := hl i
    rw [if_neg hbrk] at this
    rw [counter, Heap.get_new_ne hbrk, ← counter, hi]
    linarith

/-- Whoever has a reference to an object finds it there, and counted. -/
theorem RefCounted.exists_of_mem (hb : RefCounted count links h l) (hi : i ∈ l) :
    ∃ x, h.get i = some x ∧ 0 < count x := by
  have hpos : 0 < counter count h i := by
    have := List.count_pos_iff.2 hi
    rw [hb i]
    have : 0 ≤ allStored links h i := allStored_nonneg
    omega
  cases hx : h.get i with
  | none =>
    rw [counter_of_none hx] at hpos
    exact absurd hpos (lt_irrefl 0)
  | some x => exact ⟨x, rfl, by rwa [counter_of_get hx] at hpos⟩

/-- An object that stores nothing is released, together with the references to it. -/
theorem RefCounted.release (hb : RefCounted count links h l) (hx : h.get a = some x)
    (hlinks : links a x = []) (hr : h.release a = some h')
    (hl : ∀ i, (l.count i : ℤ) = l'.count i + if i = a then count x else 0) :
    RefCounted count links h' l' := by
  obtain ⟨h'', hr', hget, hbrk⟩ := Heap.exists_release hx
  obtain rfl : h'' = h' := Option.some.inj (hr'.symm.trans hr)
  have hcounter : ∀ i, counter count h'' i = counter count h i - if i = a then count x else 0 := by
    intro i
    by_cases hi : i = a
    · subst hi
      rw [counter_of_get hx, if_pos rfl, sub_self, counter_of_none]
      rw [hget, Function.update_self]
    · rw [counter, counter, hget, Function.update_of_ne hi, if_neg hi, sub_zero]
  have hstored : ∀ i, allStored links h'' i = allStored links h i := by
    intro i
    rw [allStored, allStored, hbrk]
    refine Finset.sum_congr rfl fun j _ => ?_
    by_cases hj : j = a
    · subst hj
      rw [stored_of_get hx, hlinks, stored, hget, Function.update_self]
      rfl
    · rw [stored, stored, hget, Function.update_of_ne hj]
  intro i
  rw [hcounter, hstored, hb i, hl i]
  ring

end RefCount
