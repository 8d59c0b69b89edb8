import Mathlib.Algebra.BigOperators.Group.List.Basic
import Mathlib.Algebra.GroupWithZero.Nat
import Mathlib.Algebra.Order.BigOperators.Group.List
import Mathlib.Data.List.Pairwise

/-!
# Tilings of an interval

Objects of a type `α` cover intervals: `x` covers the numbers from `off x` up to `off x + size x`.
`Tiles off size a l b` says that the objects of the list `l`, none of them empty, cover the interval
from `a` to `b` one after the other.  A list of objects that lie in order (`Before`) is determined by
its elements (`eq_of_perm_of_before`).
-/

section

variable {α : Type*} (off size : α → ℕ)

/-- `x` ends where `y` begins, or earlier. -/
def Before (x y : α) : Prop := off x + size x ≤ off y

/-- The objects of `l` cover the interval from `a` to `b` in order. -/
def Tiles : ℕ → List α → ℕ → Prop
  | a, [], b => a = b
  | a, x :: l, b => off x = a ∧ 0 < size x ∧ Tiles (a + size x) l b

variable {off size} {a b i : ℕ} {l l' : List α} {x y : α}

theorem Before.not_before (hx : 0 < size x) (h : Before off size x y) : ¬ Before off size y x := by
  unfold Before at *
  omega

theorem eq_of_perm_of_before (hpos : ∀ x ∈ l, 0 < size x) (hl : l.Pairwise (Before off size))
    (hl' : l'.Pairwise (Before off size)) (hp : l.Perm l') : l = l' :=
  hp.eq_of_pairwise (fun x _ hx _ hxy hyx => absurd hyx (hxy.not_before (hpos x hx))) hl hl'

namespace Tiles

theorem sum_size (h : Tiles off size a l b) : a + (l.map size).sum = b := by
  induction l generalizing a with
  | nil => exact h
  | cons x l ih =>
    rw [List.map_cons, List.sum_cons, ← Nat.add_assoc]
    exact ih h.2.2

theorem le (h : Tiles off size a l b) : a ≤ b := by
  have := h.sum_size
  omega

theorem size_pos (h : Tiles off size a l b) (hx : x ∈ l) : 0 < size x := by
  induction l generalizing a with
  | nil => cases hx
  | cons y l ih =>
    rcases List.mem_cons.1 hx with rfl | hx
    · exact h.2.1
    · exact ih h.2.2 hx

/-- The objects lie in the interval. -/
theorem bounds (h : Tiles off size a l b) (hx : x ∈ l) : a ≤ off x ∧ off x + size x ≤ b := by
  induction l generalizing a with
  | nil => cases hx
  | cons y l ih =>
    obtain ⟨rfl, -, h⟩ := h
    rcases List.mem_cons.1 hx with rfl | hx
    · exact ⟨le_rfl, h.le⟩
    · have := (ih h hx).1
      exact ⟨by omega, (ih h hx).2⟩

theorem pairwise (h : Tiles off size a l b) : l.Pairwise (Before off size) := by
  induction l generalizing a with
  | nil => exact List.Pairwise.nil
  | cons y l ih =>
    obtain ⟨rfl, -, h⟩ := h
    exact List.Pairwise.cons (fun x hx => (h.bounds hx).1) (ih h)

/-- Different objects do not overlap. -/
theorem disjoint (h : Tiles off size a l b) (hx : x ∈ l) (hy : y ∈ l) (hne : x ≠ y) :
    Before off size x y ∨ Before off size y x := by
  have hsymm : Std.Symm fun x y => Before off size x y ∨ Before off size y x :=
    ⟨fun _ _ => Or.symm⟩
  have hpair : l.Pairwise fun x y => Before off size x y ∨ Before off size y x :=
    h.pairwise.imp Or.inl
  exact hpair.forall hx hy hne

/-- Every number of the interval is covered. -/
theorem covers (h : Tiles off size a l b) (ha : a ≤ i) (hb : i < b) :
    ∃ x ∈ l, off x ≤ i ∧ i < off x + size x := by
  induction l generalizing a with
  | nil =>
    obtain rfl : a = b := h
    omega
  | cons y l ih =>
    obtain ⟨rfl, -, h⟩ := h
    by_cases hi : i < off y + size y
    · exact ⟨y, List.mem_cons_self, ha, hi⟩
    · obtain ⟨x, hx, hcover⟩ := ih h (Nat.le_of_not_lt hi)
      exact ⟨x, List.mem_cons_of_mem y hx, hcover⟩

theorem append {c : ℕ} (h : Tiles off size a l b) (h' : Tiles off size b l' c) :
    Tiles off size a (l ++ l') c := by
  induction l generalizing a with
  | nil =>
    obtain rfl : a = b := h
    exact h'
  | cons y l ih => exact ⟨h.1, h.2.1, ih h.2.2⟩

theorem exists_append {c : ℕ} (h : Tiles off size a (l ++ l') c) :
    ∃ b, Tiles off size a l b ∧ Tiles off size b l' c := by
  induction l generalizing a with
  | nil => exact ⟨a, rfl, h⟩
  | cons y l ih =>
    obtain ⟨b, hl, hl'⟩ := ih h.2.2
    exact ⟨b, ⟨h.1, h.2.1, hl⟩, hl'⟩

/-- The interval is determined by the objects. -/
theorem unique {a' b' : ℕ} (h : Tiles off size a l b) (h' : Tiles off size a' l b') (hl : l ≠ []) :
    a = a' ∧ b = b' := by
  have hsum := h.sum_size
  have hsum' := h'.sum_size
  cases l with
  | nil => exact absurd rfl hl
  | cons x l =>
    have ha : a = a' := h.1.symm.trans h'.1
    exact ⟨ha, by omega⟩

/-- Put other objects into the place of one. -/
theorem exists_replace {mid : List α} (h : Tiles off size a l b) (hx : x ∈ l)
    (hmid : Tiles off size (off x) mid (off x + size x)) :
    ∃ l', Tiles off size a l' b ∧ ∀ y, y ∈ l' ↔ y ∈ mid ∨ y ∈ l ∧ y ≠ x := by
  obtain ⟨pre, post, rfl⟩ := List.append_of_mem hx
  have hpair := h.pairwise
  obtain ⟨c, hpre, rfl, hpos, hpost⟩ := h.exists_append
  refine ⟨pre ++ (mid ++ post), hpre.append (hmid.append hpost), fun y => ?_⟩
  obtain ⟨-, hright, hleft⟩ := List.pairwise_append.1 hpair
  have hnotpost : x ∉ post := fun hmem => by
    have := (List.pairwise_cons.1 hright).1 x hmem
    unfold Before at this
    omega
  have hnotpre : x ∉ pre := fun hmem => by
    have := hleft x hmem x List.mem_cons_self
    unfold Before at this
    omega
  simp only [List.mem_append, List.mem_cons]
  constructor
  · rintro (hy | hy | hy)
    · exact .inr ⟨.inl hy, fun e => hnotpre (e ▸ hy)⟩
    · exact .inl hy
    · exact .inr ⟨.inr (.inr hy), fun e => hnotpost (e ▸ hy)⟩
  · rintro (hy | ⟨hy | hy | hy, hne⟩)
    · exact .inr (.inl hy)
    · exact .inl hy
    · exact absurd hy hne
    · exact .inr (.inr hy)

theorem map {β : Type*} {off size : β → ℕ} {g : α → β}
    (h : Tiles (fun x => off (g x)) (fun x => size (g x)) a l b) :
    Tiles off size a (l.map g) b := by
  induction l generalizing a with
  | nil => exact h
  | cons y l ih => exact ⟨h.1, h.2.1, ih h.2.2⟩

/-- Objects of the same size, one after the other. -/
theorem range {m : ℕ} (hm : 0 < m) {g : ℕ → α} {n : ℕ}
    (hg : ∀ i < n, off (g i) = i * m ∧ size (g i) = m) :
    Tiles off size 0 ((List.range n).map g) (n * m) := by
  induction n with
  | zero => exact (Nat.zero_mul m).symm
  | succ n ih =>
    rw [List.range_succ, List.map_append, Nat.succ_mul]
    obtain ⟨hoff, hsize⟩ := hg n (Nat.lt_succ_self n)
    exact (ih fun i hi => hg i (Nat.lt_succ_of_lt hi)).append ⟨hoff, by omega, by rw [hsize]; rfl⟩

/-- The object that reaches the end of the interval is the last one. -/
theorem eq_end_iff {last : α} (h : Tiles off size a (l ++ [last]) b) (hx : x ∈ l ++ [last]) :
    off x + size x = b ↔ x ∉ l := by
  induction l generalizing a with
  | nil =>
    obtain rfl : x = last := by simpa using hx
    obtain ⟨rfl, -, h⟩ := h
    exact iff_of_true h List.not_mem_nil
  | cons y l ih =>
    obtain ⟨rfl, -, h⟩ := h
    have hlast := h.bounds (x := last) (by simp)
    have hpos := h.size_pos (x := last) (by simp)
    rw [List.cons_append, List.mem_cons] at hx
    rw [List.mem_cons, not_or]
    rcases hx with rfl | hx
    · exact iff_of_false (by omega) fun hn => hn.1 rfl
    · have hy := (h.bounds hx).1
      have hxpos := h.size_pos hx
      rw [ih h hx]
      refine ⟨fun hn => ⟨fun e => ?_, hn⟩, fun hn => hn.2⟩
      rw [e] at hy hxpos
      omega

end Tiles

end
