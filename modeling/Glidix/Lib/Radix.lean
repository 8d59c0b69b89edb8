import Mathlib.Logic.Function.Basic
import Mathlib.Data.Fin.Basic
import Mathlib.Data.Nat.Cast.Basic
import Mathlib.Algebra.Order.Group.Nat
import Mathlib.Tactic.Common

/-!
# Radix trees

A node of a radix tree has `m` entries, each with a note of a type `ι`; the entries of a node at
level 0 hold the data, and those of a node at level `n + 1` hold the nodes at level `n`.  The entries
on the way to a key are the digits of the key.  A tree is `Closed` for a property of notes if an
entry without the property has no data with it below.
-/

namespace Radix

/-- A node at a level. -/
@[reducible] def Node (ι β : Type) (m : ℕ) : ℕ → Type
  | 0 => Fin m → Option (ι × β)
  | n + 1 => Fin m → Option (ι × Node ι β m n)

variable {ι β : Type} {m : ℕ} [NeZero m]

/-- Digit `k` of a key. -/
def digit (m : ℕ) [NeZero m] (k t : ℕ) : Fin m := Fin.ofNat m (t / m ^ k)

/-- A node without entries. -/
def empty : (n : ℕ) → Node ι β m n
  | 0 => fun _ => none
  | _ + 1 => fun _ => none

/-- The data of a key, with its note. -/
def find : (n : ℕ) → Node ι β m n → ℕ → Option (ι × β)
  | 0, node, t => node (digit m 0 t)
  | n + 1, node, t =>
    match node (digit m (n + 1) t) with
    | none => none
    | some e => find n e.2 t

example (node : Node ι β m 0) (t : ℕ) : find 0 node t = node (digit m 0 t) := by rw [find]

/-- Two keys that have the same place in a tree. -/
def SameKey (m : ℕ) [NeZero m] (n t u : ℕ) : Prop := ∀ k ≤ n, digit m k t = digit m k u

section

variable {n t u : ℕ} {i : Fin m}

theorem digit_val (k t : ℕ) : (digit m k t).val = t / m ^ k % m := rfl

theorem SameKey.mod_eq (h : SameKey m n t u) : t % m ^ (n + 1) = u % m ^ (n + 1) := by
  induction n with
  | zero =>
    have := congrArg Fin.val (h 0 le_rfl)
    simpa [digit_val] using this
  | succ n ih =>
    have hdigit := congrArg Fin.val (h (n + 1) le_rfl)
    rw [digit_val, digit_val] at hdigit
    rw [Nat.pow_succ m (n + 1), Nat.mod_mul, Nat.mod_mul, hdigit, ih fun k hk => h k (by omega)]

theorem SameKey.eq (h : SameKey m n t u) (ht : t < m ^ (n + 1)) (hu : u < m ^ (n + 1)) : t = u := by
  rw [← Nat.mod_eq_of_lt ht, h.mod_eq, Nat.mod_eq_of_lt hu]

theorem sameKey_zero : SameKey m 0 t u ↔ digit m 0 t = digit m 0 u := by
  refine ⟨fun h => h 0 le_rfl, fun h k hk => ?_⟩
  obtain rfl := Nat.le_zero.1 hk
  exact h

theorem sameKey_succ : SameKey m (n + 1) t u ↔
    digit m (n + 1) t = digit m (n + 1) u ∧ SameKey m n t u := by
  constructor
  · exact fun h => ⟨h _ le_rfl, fun k hk => h k (by omega)⟩
  · rintro ⟨hdigit, hrest⟩ k hk
    rcases Nat.le_succ_iff.1 hk with hk | rfl
    · exact hrest k hk
    · exact hdigit

@[simp] theorem find_empty (n t : ℕ) : find n (empty n : Node ι β m n) t = none := by
  cases n <;> rfl

theorem find_congr (n : ℕ) (node : Node ι β m n) (h : SameKey m n t u) :
    find n node t = find n node u := by
  induction n with
  | zero => rw [find, find, sameKey_zero.1 h]
  | succ n ih =>
    obtain ⟨hdigit, hrest⟩ := sameKey_succ.1 h
    rw [find, find, hdigit]
    split
    · rfl
    · exact ih _ hrest

theorem find_zero_update_self (node : Node ι β m 0) {x : Option (ι × β)} (h : digit m 0 t = i) :
    find 0 (Function.update node i x : Fin m → _) t = x := by
  rw [find, h, Function.update_self]

theorem find_zero_update_of_ne (node : Node ι β m 0) {x : Option (ι × β)} (h : digit m 0 t ≠ i) :
    find 0 (Function.update node i x : Fin m → _) t = find 0 node t := by
  rw [find, find, Function.update_of_ne h]

variable {node : Node ι β m (n + 1)} {e : ι × Node ι β m n}

theorem find_of_some (h : node (digit m (n + 1) t) = some e) :
    find (n + 1) node t = find n e.2 t := by
  rw [find, h]

theorem find_of_none (h : node (digit m (n + 1) t) = none) : find (n + 1) node t = none := by
  rw [find, h]

theorem find_update_self (node : Node ι β m (n + 1)) (h : digit m (n + 1) t = i) :
    find (n + 1) (Function.update node i (some e) : Fin m → _) t = find n e.2 t :=
  find_of_some (by rw [h]; exact Function.update_self ..)

theorem find_remove_self (node : Node ι β m (n + 1)) (h : digit m (n + 1) t = i) :
    find (n + 1) (Function.update node i none : Fin m → _) t = none :=
  find_of_none (by rw [h]; exact Function.update_self ..)

theorem find_update_of_ne {x : Option (ι × Node ι β m n)} (h : digit m (n + 1) t ≠ i) :
    find (n + 1) (Function.update node i x : Fin m → _) t = find (n + 1) node t := by
  rw [find, find, Function.update_of_ne h]

end

/-! ## Marked paths -/

section Closed

variable (p : ι → Prop)

/-- The data below an entry whose note does not have `p` do not have it. -/
def Closed : (n : ℕ) → Node ι β m n → Prop
  | 0, _ => True
  | n + 1, node => ∀ i e, node i = some e →
    Closed n e.2 ∧ (¬ p e.1 → ∀ t x, find n e.2 t = some x → ¬ p x.1)

variable {p} {n : ℕ} {i : Fin m}

@[simp] theorem closed_empty (n : ℕ) : Closed p n (empty n : Node ι β m n) := by
  cases n with
  | zero => trivial
  | succ n => exact fun i e h => nomatch h

theorem Closed.update_none {node : Node ι β m (n + 1)} (h : Closed p (n + 1) node) :
    Closed p (n + 1) (Function.update node i none : Fin m → _) := by
  intro j e hj
  by_cases hij : j = i
  · rw [hij, Function.update_self] at hj
    cases hj
  · rw [Function.update_of_ne hij] at hj
    exact h j e hj

theorem Closed.update_some {node : Node ι β m (n + 1)} {e : ι × Node ι β m n}
    (h : Closed p (n + 1) node) (he : Closed p n e.2)
    (hp : ¬ p e.1 → ∀ t x, find n e.2 t = some x → ¬ p x.1) :
    Closed p (n + 1) (Function.update node i (some e) : Fin m → _) := by
  intro j e' hj
  by_cases hij : j = i
  · rw [hij, Function.update_self] at hj
    obtain rfl := Option.some.inj hj
    exact ⟨he, hp⟩
  · rw [Function.update_of_ne hij] at hj
    exact h j e' hj

end Closed

end Radix
