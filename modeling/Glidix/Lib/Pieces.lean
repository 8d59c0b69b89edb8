import Mathlib.Algebra.GroupWithZero.Nat
import Mathlib.Data.List.Basic
import Mathlib.Data.Set.Basic

/-!
# Lists of pieces

A list of pieces describes a sequence of cells: the piece `s` stands for `size s` cells, the `i`-th of
which is `value s i`.  Cutting a piece in two, or joining two, may leave the cells as they are; what
an operation on the pieces means is said in terms of `cells`.

`resetOn` sets the entries of a table to a default value where they lie in a set and meet a
condition.
-/

section Cells

variable {σ α : Type*} (size : σ → ℕ) (value : σ → ℕ → α)

/-- The cells of a piece. -/
def pieceCells (s : σ) : List α := (List.range (size s)).map (value s)

/-- The cells of a list of pieces. -/
def cells (l : List σ) : List α := l.flatMap (pieceCells size value)

/-- The number of cells. -/
def span (l : List σ) : ℕ := (l.map size).sum

@[simp] theorem span_nil : span size [] = 0 := rfl

@[simp] theorem span_cons (s : σ) (l : List σ) : span size (s :: l) = size s + span size l := by
  rw [span, List.map_cons, List.sum_cons, span]

@[simp] theorem span_append (l l' : List σ) :
    span size (l ++ l') = span size l + span size l' := by
  rw [span, List.map_append, List.sum_append, span, span]

@[simp] theorem cells_nil : cells size value [] = [] := rfl

@[simp] theorem cells_cons (s : σ) (l : List σ) :
    cells size value (s :: l) = pieceCells size value s ++ cells size value l := List.flatMap_cons

@[simp] theorem cells_append (l l' : List σ) :
    cells size value (l ++ l') = cells size value l ++ cells size value l' := List.flatMap_append

@[simp] theorem length_pieceCells (s : σ) : (pieceCells size value s).length = size s := by
  rw [pieceCells, List.length_map, List.length_range]

@[simp] theorem length_cells (l : List σ) : (cells size value l).length = span size l := by
  induction l with
  | nil => rfl
  | cons s l ih => rw [cells_cons, List.length_append, ih, length_pieceCells, span_cons]

variable {size value} {s s₁ s₂ : σ} {pre suf : List σ} {i k : ℕ}

theorem getElem?_pieceCells (hi : i < size s) :
    (pieceCells size value s)[i]? = some (value s i) := by
  rw [pieceCells, List.getElem?_map, List.getElem?_range hi, Option.map_some]

/-- A piece is cut in two. -/
theorem pieceCells_split (h₁ : size s₁ + size s₂ = size s) (hv₁ : ∀ i, value s₁ i = value s i)
    (hv₂ : ∀ i, value s₂ i = value s (size s₁ + i)) :
    pieceCells size value s₁ ++ pieceCells size value s₂ = pieceCells size value s := by
  rw [pieceCells, pieceCells, pieceCells, ← h₁, List.range_add, List.map_append, List.map_map]
  congr 1
  · exact List.map_congr_left fun i _ => hv₁ i
  · exact List.map_congr_left fun i _ => hv₂ i

theorem pieceCells_congr (h : size s₁ = size s) (hv : ∀ i, value s₁ i = value s i) :
    pieceCells size value s₁ = pieceCells size value s := by
  rw [pieceCells, pieceCells, h]
  exact List.map_congr_left fun i _ => hv i

/-- What the cell at a position within one of the pieces is. -/
theorem getElem?_cells (hi : i < size s) :
    (cells size value (pre ++ s :: suf))[span size pre + i]? = some (value s i) := by
  rw [cells_append, cells_cons, List.getElem?_append_right (by simp), length_cells,
    Nat.add_sub_cancel_left, List.getElem?_append_left (by simpa using hi), getElem?_pieceCells hi]

/-- A map of the pieces that comes from one of the cells. -/
theorem cells_map {g : σ → σ} {g' : α → α} (hsize : ∀ s, size (g s) = size s)
    (hvalue : ∀ s i, value (g s) i = g' (value s i)) (l : List σ) :
    cells size value (l.map g) = (cells size value l).map g' := by
  induction l with
  | nil => rfl
  | cons s l ih =>
    rw [List.map_cons, cells_cons, cells_cons, List.map_append, ih, pieceCells, pieceCells, hsize,
      List.map_map]
    congr 1
    exact List.map_congr_left fun i _ => hvalue s i

/-- Two places in one list: they are the same, or one is behind the other. -/
theorem append_cons_cases {l l' r r' : List σ} {a a' : σ} (h : l ++ a :: r = l' ++ a' :: r') :
    (l = l' ∧ a = a' ∧ r = r') ∨ (∃ mid, l' = l ++ a :: mid ∧ r = mid ++ a' :: r') ∨
      ∃ mid, l = l' ++ a' :: mid ∧ r' = mid ++ a :: r := by
  rcases List.append_eq_append_iff.1 h with ⟨mid, rfl, hmid⟩ | ⟨mid, rfl, hmid⟩ <;>
    cases mid with
    | nil =>
      obtain ⟨rfl, rfl⟩ := List.cons.inj hmid
      exact Or.inl ⟨by simp, rfl, rfl⟩
    | cons t mid =>
      obtain ⟨rfl, rfl⟩ := List.cons.inj hmid
      first
        | exact Or.inr (Or.inl ⟨mid, rfl, rfl⟩)
        | exact Or.inr (Or.inr ⟨mid, rfl, rfl⟩)

end Cells

/-! ## Tables with a default -/

section Reset

variable {β : Type*} {default : β} {P : β → Prop} {S T : Set ℕ} {e : ℕ → β}

open Classical in
/-- The entries in `S` that meet `P` are set to the default. -/
noncomputable def resetOn (default : β) (P : β → Prop) (S : Set ℕ) (e : ℕ → β) : ℕ → β :=
  fun i => if i ∈ S ∧ P (e i) then default else e i

theorem resetOn_of_mem {i : ℕ} (hi : i ∈ S) (hP : P (e i)) : resetOn default P S e i = default :=
  if_pos ⟨hi, hP⟩

theorem resetOn_of_not {i : ℕ} (h : ¬ (i ∈ S ∧ P (e i))) : resetOn default P S e i = e i := if_neg h

@[simp] theorem resetOn_empty : resetOn default P ∅ e = e :=
  funext fun _ => resetOn_of_not fun h => h.1

theorem resetOn_resetOn (hdefault : ¬ P default) :
    resetOn default P T (resetOn default P S e) = resetOn default P (S ∪ T) e := by
  funext i
  by_cases hS : i ∈ S ∧ P (e i)
  · have h₁ : resetOn default P S e i = default := resetOn_of_mem hS.1 hS.2
    rw [resetOn_of_not (by rw [h₁]; exact fun h => hdefault h.2), h₁,
      resetOn_of_mem (Or.inl hS.1) hS.2]
  · have h₁ : resetOn default P S e i = e i := resetOn_of_not hS
    by_cases hT : i ∈ T ∧ P (e i)
    · rw [resetOn_of_mem hT.1 (by rw [h₁]; exact hT.2), resetOn_of_mem (Or.inr hT.1) hT.2]
    · rw [resetOn_of_not (by rwa [h₁]), h₁, resetOn_of_not]
      rintro ⟨hi | hi, hP⟩
      · exact hS ⟨hi, hP⟩
      · exact hT ⟨hi, hP⟩

end Reset
