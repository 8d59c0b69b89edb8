import Mathlib.Data.Fintype.Pigeonhole
import Mathlib.SetTheory.Cardinal.Finite

/-!
# Following links

From a place, a partial function leads to a next place.  If there are finitely many places, the way from
a place ends exactly if it does not come to any place twice (`ends_iff_simple`), and then it ends within
as many steps as there are places (`Simple.ends`).
-/

/-- The place after `n` steps from `a`; none if the way has ended. -/
def follow {α : Type*} (next : α → Option α) : ℕ → α → Option α
  | 0, a => some a
  | n + 1, a => (next a).bind (follow next n)

/-- The way from `a` does not come to a place twice. -/
def SimpleWay {α : Type*} (next : α → Option α) (a : α) : Prop :=
  ∀ i j b, i < j → follow next i a = some b → follow next j a ≠ some b

variable {α : Type*} {next : α → Option α} {a b : α} {i j n : ℕ}

theorem follow_succ (h : next a = some b) : follow next (n + 1) a = follow next n b := by
  show (next a).bind (follow next n) = _
  rw [h, Option.bind_some]

theorem follow_succ_none (h : next a = none) : follow next (n + 1) a = none := by
  show (next a).bind (follow next n) = _
  rw [h, Option.bind_none]

theorem follow_add (i j : ℕ) (a : α) : follow next (i + j) a = (follow next i a).bind (follow next j) := by
  induction i generalizing a with
  | zero =>
    rw [Nat.zero_add]
    rfl
  | succ i ih =>
    rw [Nat.succ_add]
    cases hnext : next a with
    | none => rw [follow_succ_none hnext, follow_succ_none hnext, Option.bind_none]
    | some b => rw [follow_succ hnext, follow_succ hnext, ih]

/-- Behind its end, the way does not go on. -/
theorem follow_none_of_le (h : follow next i a = none) (hij : i ≤ j) : follow next j a = none := by
  obtain ⟨k, rfl⟩ := Nat.exists_eq_add_of_le hij
  rw [follow_add, h, Option.bind_none]

/-- A way that comes back to a place comes back there again and again. -/
theorem follow_round (hi : follow next i a = some b) (hj : follow next (i + j) a = some b) (m : ℕ) :
    follow next (i + m * j) a = some b := by
  have hround : follow next j b = some b := by
    rw [follow_add, hi, Option.bind_some] at hj
    exact hj
  induction m with
  | zero => rw [Nat.zero_mul, Nat.add_zero, hi]
  | succ m ih => rw [Nat.succ_mul, ← Nat.add_assoc, follow_add, ih, Option.bind_some, hround]

theorem SimpleWay.of_ends (h : follow next n a = none) : SimpleWay next a := by
  intro i j b hij hi hj
  obtain ⟨k, rfl⟩ := Nat.exists_eq_add_of_lt hij
  rw [Nat.add_assoc] at hj
  have hround := follow_round hi hj n
  rw [follow_none_of_le h] at hround
  · cases hround
  · have hle : n * 1 ≤ n * (k + 1) := Nat.mul_le_mul_left n (by omega)
    omega

theorem SimpleWay.ends [Finite α] (h : SimpleWay next a) : follow next (Nat.card α + 1) a = none := by
  have := Fintype.ofFinite α
  by_contra hgoes
  have hsome (i : Fin (Nat.card α + 1)) : ∃ b, follow next i a = some b :=
    Option.ne_none_iff_exists'.1 fun hnone => hgoes (follow_none_of_le hnone (by omega))
  choose place hplace using hsome
  obtain ⟨i, j, hne, heq⟩ := Fintype.exists_ne_map_eq_of_card_lt place (by simp [Nat.card_eq_fintype_card])
  rcases lt_or_gt_of_ne hne with hij | hij
  · exact h i j (place i) hij (hplace i) (by rw [hplace j, heq])
  · exact h j i (place j) hij (hplace j) (by rw [hplace i, heq])

theorem ends_iff_simple [Finite α] : (∃ n, follow next n a = none) ↔ SimpleWay next a :=
  ⟨fun ⟨_, h⟩ => .of_ends h, fun h => ⟨_, h.ends⟩⟩
