import Mathlib.Data.Nat.Notation
import Mathlib.Tactic.Common

/-!
# Loops with a narrow counter

`for (i = 0; i < count; i++)` with a counter that wraps around at `bound`.  The loop ends by itself exactly if
`count` is less than `bound`, and has then run its body `count` times; else only an error in the body ends it.
-/

namespace Counter

variable {σ ε : Type*} (bound count : ℕ) (body : ℕ → σ → Except ε σ)

/-- The loop from a counter and a state; `none` if it does not end within `fuel` steps. -/
def loop : (fuel i : ℕ) → σ → Option (Except ε σ)
  | 0, _, _ => none
  | fuel + 1, i, s =>
    if i < count then
      match body i s with
      | .error e => some (.error e)
      | .ok s => loop fuel ((i + 1) % bound) s
    else some (.ok s)

/-- The body for `n` counters from `i` on. -/
def steps : (n i : ℕ) → σ → Except ε σ
  | 0, _, s => .ok s
  | n + 1, i, s =>
    match body i s with
    | .error e => .error e
    | .ok s => steps n (i + 1) s

variable {bound count body} {fuel i n : ℕ} {s t : σ} {r : Except ε σ}

theorem loop_end (hi : ¬i < count) : loop bound count body (fuel + 1) i s = some (.ok s) := if_neg hi

/-- One round of the loop. -/
theorem loop_round (hi : i < count) : loop bound count body (fuel + 1) i s =
    match body i s with
    | .error e => some (.error e)
    | .ok s => loop bound count body fuel ((i + 1) % bound) s := if_pos hi

/-- The first step. -/
theorem steps_first : steps body (n + 1) i s =
    match body i s with
    | .error e => .error e
    | .ok s => steps body n (i + 1) s := rfl

example (s : σ) : loop bound 0 body 1 0 s = some (.ok s) := loop_end (Nat.lt_irrefl 0)

/-- A loop that counts far enough runs its body once for each counter. -/
theorem loop_eq_steps (hcount : count < bound) (hi : i + n = count) :
    loop bound count body (n + 1) i s = some (steps body n i s) := by
  induction n generalizing i s with
  | zero =>
    rw [loop_end (by omega)]
    rfl
  | succ n ih =>
    rw [loop_round (by omega), steps_first]
    cases body i s with
    | error e => rfl
    | ok s =>
      dsimp only
      rw [Nat.mod_eq_of_lt (by omega)]
      exact ih (by omega)

theorem loop_mono (h : loop bound count body fuel i s = some r) :
    loop bound count body (fuel + 1) i s = some r := by
  induction fuel generalizing i s with
  | zero => exact nomatch h
  | succ fuel ih =>
    by_cases hi : i < count
    · rw [loop_round hi] at h ⊢
      cases hbody : body i s with
      | error e =>
        rw [hbody] at h
        exact h
      | ok s =>
        rw [hbody] at h
        exact ih h
    · rw [loop_end hi] at h ⊢
      exact h

theorem loop_le {fuel' : ℕ} (h : loop bound count body fuel i s = some r) (hle : fuel ≤ fuel') :
    loop bound count body fuel' i s = some r := by
  induction hle with
  | refl => exact h
  | step _ ih => exact loop_mono ih

/-- A counter that cannot reach `count` never ends the loop. -/
theorem loop_ne_ok (hcount : bound ≤ count) (hpos : 0 < bound) (hi : i < bound) :
    loop bound count body fuel i s ≠ some (.ok t) := by
  induction fuel generalizing i s with
  | zero => exact nofun
  | succ fuel ih =>
    rw [loop_round (Nat.lt_of_lt_of_le hi hcount)]
    cases body i s with
    | error e => exact nofun
    | ok s => exact ih (Nat.mod_lt _ hpos)

/-- The loop ends by itself exactly if the counter is wide enough and no step fails. -/
theorem loop_ok_iff (hpos : 0 < bound) :
    (∃ fuel, loop bound count body fuel 0 s = some (.ok t)) ↔ count < bound ∧ steps body count 0 s = .ok t := by
  constructor
  · rintro ⟨fuel, h⟩
    have hcount : count < bound := by
      by_contra hge
      exact loop_ne_ok (Nat.le_of_not_lt hge) hpos hpos h
    have hsteps := @loop_eq_steps _ _ bound count body 0 count s hcount (Nat.zero_add _)
    have h₁ := loop_le h (Nat.le_add_right fuel (count + 1))
    have h₂ := loop_le hsteps (Nat.le_add_left (count + 1) fuel)
    rw [h₁] at h₂
    exact ⟨hcount, (Option.some.inj h₂).symm⟩
  · rintro ⟨hcount, hsteps⟩
    refine ⟨count + 1, ?_⟩
    rw [loop_eq_steps hcount (Nat.zero_add _), hsteps]

/-- The last step. -/
theorem steps_succ : steps body (n + 1) i s =
    match steps body n i s with
    | .error e => .error e
    | .ok s => body (i + n) s := by
  induction n generalizing i s with
  | zero =>
    rw [steps_first]
    cases hbody : body i s with
    | error e => exact hbody.symm
    | ok s => exact hbody.symm
  | succ n ih =>
    rw [steps_first, steps_first]
    cases body i s with
    | error e => rfl
    | ok s =>
      dsimp only
      rw [ih, Nat.add_right_comm, Nat.add_assoc]

end Counter
