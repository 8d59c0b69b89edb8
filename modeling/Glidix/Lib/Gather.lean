import Mathlib.Algebra.BigOperators.Group.List.Basic
import Mathlib.Algebra.Order.Group.Multiset

/-!
# Gathering

`gather g l` adds up a multiset for every element of a list.  The lemmas say how it changes when one
element of the list is replaced, added or removed.
-/

/-- The sum of `g` over a list. -/
def gather {α β : Type*} (g : α → Multiset β) (l : List α) : Multiset β := (l.map g).sum

section Gather

variable {α β : Type*} {g : α → Multiset β} {l : List α} {a x : α} {i : ℕ} {b : β}

@[simp] theorem gather_nil : gather g [] = 0 := rfl

@[simp] theorem gather_cons : gather g (a :: l) = g a + gather g l := List.sum_cons

theorem gather_append (l' : List α) : gather g (l ++ l') = gather g l + gather g l' := by
  rw [gather, List.map_append, List.sum_append]
  rfl

/-- One element is replaced. -/
theorem gather_set (h : l[i]? = some a) : gather g (l.set i x) + g a = gather g l + g x := by
  induction l generalizing i with
  | nil => cases h
  | cons c l ih =>
    cases i with
    | zero =>
      obtain rfl : c = a := Option.some.inj h
      rw [List.set_cons_zero, gather_cons, gather_cons, add_right_comm, add_comm (g x), add_right_comm]
    | succ i => rw [List.set_cons_succ, gather_cons, gather_cons, add_assoc, ih h, ← add_assoc]

/-- One element is removed. -/
theorem gather_eraseIdx (h : l[i]? = some a) : gather g (l.eraseIdx i) + g a = gather g l := by
  obtain ⟨hi, rfl⟩ := List.getElem?_eq_some_iff.1 h
  have hperm := (List.getElem_cons_eraseIdx_perm hi).map g
  rw [List.map_cons] at hperm
  rw [gather, gather, ← hperm.sum_eq, List.sum_cons, add_comm]

theorem mem_gather : b ∈ gather g l ↔ ∃ a ∈ l, b ∈ g a := by
  induction l with
  | nil => simp
  | cons c l ih => simp [ih]

end Gather
