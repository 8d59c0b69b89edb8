import Mathlib.Algebra.BigOperators.Group.List.Lemmas
import Mathlib.Algebra.Order.BigOperators.Group.List
import Mathlib.Algebra.Order.Ring.Nat

/-!
# Tallies

`tally p l` adds up a number for every element of a list.  The lemmas say how it changes when one
element of the list is replaced, added or removed.
-/

/-- The sum of `p` over a list. -/
def tally {α : Type*} (p : α → ℕ) (l : List α) : ℕ := (l.map p).sum

section Tally

variable {α : Type*} {p q : α → ℕ} {l : List α} {a x : α} {i : ℕ}

@[simp] theorem tally_nil : tally p [] = 0 := rfl

@[simp] theorem tally_cons : tally p (a :: l) = p a + tally p l := List.sum_cons

@[simp] theorem tally_append (l' : List α) : tally p (l ++ l') = tally p l + tally p l' := by
  rw [tally, List.map_append, List.sum_append]
  rfl

theorem le_tally (h : a ∈ l) : p a ≤ tally p l :=
  List.single_le_sum (fun _ _ => Nat.zero_le _) _ (List.mem_map_of_mem h)

theorem tally_eq_zero : tally p l = 0 ↔ ∀ a ∈ l, p a = 0 := by
  rw [tally, List.sum_eq_zero_iff, List.forall_mem_map]

theorem tally_congr (h : ∀ a ∈ l, p a = q a) : tally p l = tally q l := by
  rw [tally, tally, List.map_congr_left h]

theorem tally_add : tally (fun a => p a + q a) l = tally p l + tally q l := by
  induction l with
  | nil => rfl
  | cons a l ih =>
    rw [tally_cons, tally_cons, tally_cons, ih]
    omega

/-- One element is replaced. -/
theorem tally_set (h : l[i]? = some a) : tally p (l.set i x) + p a = tally p l + p x := by
  induction l generalizing i with
  | nil => cases h
  | cons b l ih =>
    cases i with
    | zero =>
      obtain rfl : b = a := Option.some.inj h
      rw [List.set_cons_zero, tally_cons, tally_cons]
      omega
    | succ i =>
      have := ih h
      rw [List.set_cons_succ, tally_cons, tally_cons]
      omega

/-- One element is replaced by one that counts as much. -/
theorem tally_set_eq (h : l[i]? = some a) (hx : p x = p a) : tally p (l.set i x) = tally p l := by
  have := tally_set (p := p) (x := x) h
  omega

/-- One element is removed. -/
theorem tally_eraseIdx (h : l[i]? = some a) : tally p (l.eraseIdx i) + p a = tally p l := by
  obtain ⟨hi, rfl⟩ := List.getElem?_eq_some_iff.1 h
  have hperm := (List.getElem_cons_eraseIdx_perm hi).map p
  rw [List.map_cons] at hperm
  rw [tally, tally, ← hperm.sum_eq, List.sum_cons, Nat.add_comm]

/-- An element of a list in which one is replaced. -/
theorem getElem?_set_cases {j : ℕ} {b : α} (h : (l.set i a)[j]? = some b) :
    j = i ∧ b = a ∨ j ≠ i ∧ l[j]? = some b := by
  by_cases hij : j = i
  · subst hij
    have hlt := (List.getElem?_eq_some_iff.1 h).1
    rw [List.length_set] at hlt
    rw [List.getElem?_set_self hlt] at h
    exact Or.inl ⟨rfl, (Option.some.inj h).symm⟩
  · rw [List.getElem?_set_ne (Ne.symm hij)] at h
    exact Or.inr ⟨hij, h⟩

theorem count_erase_add [DecidableEq α] (h : a ∈ l) (b : α) :
    l.count b = (l.erase a).count b + [a].count b := by
  have hpos := List.count_pos_iff.2 h
  rw [List.count_erase, List.count_singleton]
  by_cases hab : a = b
  · subst hab
    simp only [beq_self_eq_true, if_true]
    omega
  · simp [hab]

end Tally
