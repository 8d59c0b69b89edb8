import Mathlib.Data.List.Basic
import Mathlib.Data.Nat.ModEq
import Mathlib.Logic.Function.Basic

/-!
# Ring buffers

A ring of `n` cells with a position to put at and a position to get from.  `Holds n buf i j queue`
says that the cells from `i` up to `j`, counted around the ring, are the elements of `queue`.
Putting at `j` appends to the queue while there is room, and getting at `i` takes from its front.
-/

namespace Ring

variable {α : Type*} {n i j k : ℕ} {buf : ℕ → α} {queue : List α}

/-- Write elements from a position on: the ring and the position after them. -/
def put (n : ℕ) (buf : ℕ → α) (j : ℕ) : List α → (ℕ → α) × ℕ
  | [] => (buf, j)
  | x :: xs => put n (Function.update buf j x) ((j + 1) % n) xs

/-- Read `k` elements from a position on: the elements and the position after them. -/
def get (n : ℕ) (buf : ℕ → α) (i : ℕ) : ℕ → List α × ℕ
  | 0 => ([], i)
  | k + 1 =>
    let (xs, i') := get n buf ((i + 1) % n) k
    (buf i :: xs, i')

theorem put_append (xs ys : List α) : put n buf j (xs ++ ys) = put n (put n buf j xs).1 (put n buf j xs).2 ys := by
  induction xs generalizing buf j with
  | nil => rfl
  | cons x xs ih => exact ih

/-- Putting moves the position once around the ring for every `n` elements. -/
theorem put_snd (hj : j < n) (xs : List α) : (put n buf j xs).2 = (j + xs.length) % n := by
  induction xs generalizing buf j with
  | nil => exact (Nat.mod_eq_of_lt hj).symm
  | cons x xs ih =>
    rw [put, ih (Nat.mod_lt _ (Nat.zero_lt_of_lt hj)), Nat.mod_add_mod, List.length_cons, Nat.add_assoc,
      Nat.add_comm 1]

/-- The cells from `i` up to `j` hold the queue. -/
structure Holds (n : ℕ) (buf : ℕ → α) (i j : ℕ) (queue : List α) : Prop where
  start_lt : i < n
  stop_eq : j = (i + queue.length) % n
  cell : ∀ (m : ℕ) (x : α), queue[m]? = some x → buf ((i + m) % n) = x

theorem Holds.empty (hi : i < n) : Holds n buf i i [] :=
  ⟨hi, (Nat.mod_eq_of_lt hi).symm, fun m x h => by simp at h⟩

/-- Two numbers less than `n` apart are equal when they have the same remainder. -/
theorem add_mod_inj {a b : ℕ} (ha : a < n) (hb : b < n) (h : (i + a) % n = (i + b) % n) : a = b := by
  have hmod : a % n = b % n := Nat.ModEq.add_left_cancel' (n := n) i h
  rwa [Nat.mod_eq_of_lt ha, Nat.mod_eq_of_lt hb] at hmod

theorem Holds.put_one (h : Holds n buf i j queue) (hroom : queue.length < n) (x : α) :
    Holds n (Function.update buf j x) i ((j + 1) % n) (queue ++ [x]) := by
  refine ⟨h.start_lt, ?_, fun m y hy => ?_⟩
  · rw [h.stop_eq, List.length_append, List.length_singleton, Nat.mod_add_mod, Nat.add_assoc]
  · rcases Nat.lt_or_ge m queue.length with hm | hm
    · rw [List.getElem?_append_left hm] at hy
      rw [Function.update_of_ne, h.cell m y hy]
      intro he
      rw [h.stop_eq] at he
      exact Nat.ne_of_lt hm (add_mod_inj (Nat.lt_trans hm hroom) hroom he)
    · obtain rfl : m = queue.length := by
        have hlt := (List.getElem?_eq_some_iff.1 hy).1
        rw [List.length_append, List.length_singleton] at hlt
        omega
      rw [List.getElem?_append_right (Nat.le_refl _), Nat.sub_self] at hy
      rw [← h.stop_eq, Function.update_self]
      exact Option.some.inj hy

/-- Putting appends to the queue. -/
theorem Holds.put {xs : List α} (h : Holds n buf i j queue) (hroom : queue.length + xs.length ≤ n) :
    Holds n (put n buf j xs).1 i (put n buf j xs).2 (queue ++ xs) := by
  induction xs generalizing buf j queue with
  | nil => rwa [List.append_nil]
  | cons x xs ih =>
    rw [List.length_cons] at hroom
    rw [List.append_cons]
    exact ih (h.put_one (by omega) x) (by simp only [List.length_append, List.length_singleton]; omega)

theorem Holds.get_one {x : α} (h : Holds n buf i j (x :: queue)) :
    buf i = x ∧ Holds n buf ((i + 1) % n) j queue := by
  have hpos := Nat.zero_lt_of_lt h.start_lt
  refine ⟨?_, Nat.mod_lt _ hpos, ?_, fun m y hy => ?_⟩
  · have hx := h.cell 0 x rfl
    rwa [Nat.add_zero, Nat.mod_eq_of_lt h.start_lt] at hx
  · rw [h.stop_eq, List.length_cons, Nat.mod_add_mod, Nat.add_assoc, Nat.add_comm 1]
  · rw [Nat.mod_add_mod, Nat.add_assoc, Nat.add_comm 1]
    exact h.cell (m + 1) y hy

/-- Getting takes from the front of the queue. -/
theorem Holds.get (h : Holds n buf i j queue) (hk : k ≤ queue.length) :
    (get n buf i k).1 = queue.take k ∧ Holds n buf (get n buf i k).2 j (queue.drop k) := by
  induction k generalizing i queue with
  | zero => exact ⟨rfl, h⟩
  | succ k ih =>
    obtain ⟨x, rest, rfl⟩ := List.exists_cons_of_length_pos (Nat.zero_lt_of_lt hk)
    obtain ⟨hx, hrest⟩ := h.get_one
    obtain ⟨htake, hdrop⟩ := ih hrest (Nat.le_of_succ_le_succ hk)
    refine ⟨?_, hdrop⟩
    rw [List.take_succ_cons, ← hx, ← htake]
    rfl

/-- The last element is taken off. -/
theorem Holds.pop_back {x : α} (h : Holds n buf i j (queue ++ [x])) :
    Holds n buf i (if j = 0 then n - 1 else j - 1) queue := by
  have hstart := h.start_lt
  refine ⟨hstart, ?_, fun m y hy => ?_⟩
  · have hstop := h.stop_eq
    rw [List.length_append, List.length_singleton] at hstop
    have hlast := Nat.mod_lt (i + queue.length) (Nat.zero_lt_of_lt hstart)
    have hnext : j = ((i + queue.length) % n + 1) % n := by
      rw [hstop, Nat.mod_add_mod, Nat.add_assoc]
    rcases Nat.lt_or_ge ((i + queue.length) % n + 1) n with hlt | hge
    · rw [Nat.mod_eq_of_lt hlt] at hnext
      rw [if_neg (by omega)]
      omega
    · have hwrap : (i + queue.length) % n + 1 = n := by omega
      rw [hwrap, Nat.mod_self] at hnext
      rw [if_pos hnext]
      omega
  · have hlt := (List.getElem?_eq_some_iff.1 hy).1
    exact h.cell m y (by rw [List.getElem?_append_left hlt]; exact hy)

/-- Elements that do not go round the end. -/
theorem get_straight (hi : i + k ≤ n) (hn : i < n) : get n buf i k = ((List.range' i k).map buf, (i + k) % n) := by
  induction k generalizing i with
  | zero => rw [get, Nat.add_zero, Nat.mod_eq_of_lt hn]; rfl
  | succ k ih =>
    rcases Nat.lt_or_ge (i + 1) n with hlt | hge
    · rw [get, Nat.mod_eq_of_lt hlt, ih (by omega) hlt, List.range'_succ, List.map_cons, Nat.add_assoc,
        Nat.add_comm 1]
    · obtain rfl : k = 0 := by omega
      rfl

end Ring
