import Glidix.Lib.Bubble

/-!
# Sorting and searching in the C library

`qsort` makes bubble passes over the array, each over one member less than the one before, until a
pass swaps nothing; `bsearch` halves an interval of the array.  Both go through the array by the
numbers of its members; an access outside it is `none`.
-/

namespace Glidix.Libc.Sort

variable {α κ : Type}

/-! ## The functions -/

section Functions

variable (compar : α → α → Int32)

/-- One turn of the loop of `qsort`: the array, and whether members were swapped. -/
def qsortStep (base : List α) (i : ℕ) : Option (List α × Bool) := do
  let a ← base[i]?
  let b ← base[i + 1]?
  if compar a b > 0 then return ((base.set i b).set (i + 1) a, true) else return (base, false)

/-- The loop of `qsort` from the member `i` on, with the number of turns that are left. -/
def qsortLoop (base : List α) (i : ℕ) (doneSwaps : Bool) : ℕ → Option (List α × Bool)
  | 0 => some (base, doneSwaps)
  | turns + 1 => do
    let (base, swapped) ← qsortStep compar base i
    qsortLoop base (i + 1) (doneSwaps || swapped) turns

/-- `qsort`, of the first `nmemb` members of an array. -/
def qsort : (nmemb : ℕ) → (base : List α) → Option (List α)
  | 0, base | 1, base => some base
  | nmemb + 2, base => do
    let (base, doneSwaps) ← qsortLoop compar base 0 false (nmemb + 1)
    if doneSwaps then qsort (nmemb + 1) base else return base

variable (cmp : κ → α → Int32) (key : κ) (base : List α)

/-- The loop of `bsearch`: the number of the member that was found, if any. -/
def bsearchLoop (start stop : ℕ) : Option (Option ℕ) :=
  if _h : start < stop then do
    let mid := start + (stop - start) / 2
    let elt ← base[mid]?
    if cmp key elt < 0 then bsearchLoop start mid
    else if cmp key elt > 0 then bsearchLoop (mid + 1) stop
    else return some mid
  else return none
termination_by stop - start

def bsearch (num : ℕ) : Option (Option ℕ) := bsearchLoop cmp key base 0 num

end Functions

/-! ## Orders -/

/-- The comparison function is a total preorder. -/
structure IsPreorder (compar : α → α → Int32) : Prop where
  swap : ∀ a b, compar a b < 0 ↔ compar b a > 0
  trans : ∀ a b c, compar a b ≤ 0 → compar b c ≤ 0 → compar a c ≤ 0

/-- What is less than the key lies before what is not, and what is greater behind what is not. -/
structure Consistent (compar : α → α → Int32) (cmp : κ → α → Int32) (key : κ) : Prop where
  less : ∀ a b, compar a b ≤ 0 → cmp key a < 0 → cmp key b < 0
  greater : ∀ a b, compar a b ≤ 0 → cmp key b > 0 → cmp key a > 0

section Sorting

variable {compar : α → α → Int32} {base pre tail l : List α} {a b : α} {n : ℕ}

/-- `a` is greater than `b`. -/
def gt (compar : α → α → Int32) (a b : α) : Bool := decide (compar a b > 0)

theorem not_gt_iff : ¬ gt compar a b ↔ compar a b ≤ 0 := by
  rw [gt, decide_eq_true_iff]
  exact Int32.not_lt

theorem IsPreorder.strictWeak (h : IsPreorder compar) : StrictWeak (gt compar) where
  asymm a b hgt := by
    rw [not_gt_iff]
    exact Int32.le_of_lt ((h.swap b a).2 (of_decide_eq_true hgt))
  trans a b c hab hbc := not_gt_iff.2 (h.trans a b c (not_gt_iff.1 hab) (not_gt_iff.1 hbc))

theorem qsortStep_append : qsortStep compar (pre ++ a :: b :: tail) pre.length =
    if gt compar a b then some (pre ++ b :: a :: tail, true)
    else some (pre ++ a :: b :: tail, false) := by
  have ha : (pre ++ a :: b :: tail)[pre.length]? = some a := by simp
  have hb : (pre ++ a :: b :: tail)[pre.length + 1]? = some b := by
    rw [List.getElem?_append_right (by omega)]
    simp
  have hset : ((pre ++ a :: b :: tail).set pre.length b).set (pre.length + 1) a =
      pre ++ b :: a :: tail := by
    rw [List.set_append_right _ _ (Nat.le_refl _), List.set_append_right _ _ (by omega)]
    simp
  simp only [qsortStep, ha, hb, Option.bind_eq_bind, Option.bind_some, hset, gt, decide_eq_true_eq]
  rfl

/-- The loop makes a pass over the members. -/
theorem qsortLoop_append (d : Bool) (hl : l.length = n + 1) (pre tail : List α) :
    qsortLoop compar (pre ++ (l ++ tail)) pre.length d n =
      some (pre ++ ((bubblePass (gt compar) l).1 ++ tail), d || (bubblePass (gt compar) l).2) := by
  induction n generalizing pre l d with
  | zero =>
    obtain ⟨a, rfl⟩ := List.length_eq_one_iff.1 hl
    rw [qsortLoop, bubblePass, Bool.or_false]
  | succ n ih =>
    obtain ⟨a, b, rest, rfl⟩ : ∃ a b rest, l = a :: b :: rest := by
      obtain ⟨a, l, rfl⟩ := List.exists_cons_of_length_eq_add_one hl
      obtain ⟨b, rest, rfl⟩ := List.exists_cons_of_length_eq_add_one (Nat.succ.inj hl)
      exact ⟨a, b, rest, rfl⟩
    have hlen : rest.length = n := by simpa using hl
    rw [List.cons_append, List.cons_append, qsortLoop, qsortStep_append]
    by_cases hgt : gt compar a b
    · have hrec := ih (l := a :: rest) (d || true) (by simp [hlen]) (pre ++ [b])
      rw [if_pos hgt, Bubble.pass_swap hgt]
      simpa using hrec
    · have hrec := ih (l := b :: rest) (d || false) (by simp [hlen]) (pre ++ [a])
      rw [if_neg hgt, Bubble.pass_keep hgt]
      simpa using hrec

/-- `qsort` is `bubbleSort`. -/
theorem qsort_eq (hn : n ≤ base.length) :
    qsort compar n base = some (bubbleSort (gt compar) n base) := by
  fun_induction qsort compar n base with
  | case1 base => rfl
  | case2 base =>
    cases base with
    | nil => simp at hn
    | cons a rest => simp [bubbleSort, bubblePass]
  | case3 n base ih =>
    have hsplit := List.take_append_drop (n + 2) base
    have hlen : (base.take (n + 2)).length = n + 2 := List.length_take_of_le hn
    have hloop := @qsortLoop_append _ compar _ (n + 1) false hlen [] (base.drop (n + 2))
    rw [List.nil_append, List.nil_append, hsplit, List.length_nil, Bool.false_or] at hloop
    rw [hloop, bubbleSort]
    have hlen' : ∀ d, n + 1 ≤ ((bubblePass (gt compar) (base.take (n + 2))).1 ++ d).length := by
      intro d
      rw [List.length_append, Bubble.length_pass, hlen]
      omega
    cases hs : (bubblePass (gt compar) (base.take (n + 2))).2 with
    | false => simp [hs]
    | true => simp [hs, ih _ (hlen' _)]

/-- What sorting an array does. -/
structure Sorts (compar : α → α → Int32) (base sorted : List α) : Prop where
  perm : sorted.Perm base
  ordered : sorted.Pairwise fun a b => compar a b ≤ 0
  /-- Members that compare equal keep their order. -/
  stable : ∀ x, (sorted.filter fun a => compar a x = 0) = base.filter fun a => compar a x = 0

/-- Comparing equal is being neither greater nor less. -/
theorem IsPreorder.eq_zero_iff (h : IsPreorder compar) (a x : α) :
    compar a x = 0 ↔ (!gt compar a x && !gt compar x a) = true := by
  have hle : compar x a ≤ 0 ↔ ¬ compar a x < 0 := by
    rw [h.swap]
    exact Int32.not_lt.symm
  rw [Bool.and_eq_true, Bool.not_eq_true', Bool.not_eq_true', ← Bool.not_eq_true,
    ← Bool.not_eq_true, not_gt_iff, not_gt_iff, hle]
  constructor
  · intro heq
    rw [heq]
    exact ⟨Int32.le_refl _, Int32.lt_irrefl⟩
  · intro ⟨hax, hnot⟩
    exact Int32.le_antisymm hax (Int32.not_lt.1 hnot)

theorem IsPreorder.filter_eq_same (h : IsPreorder compar) (x : α) (l : List α) :
    (l.filter fun a => compar a x = 0) = Bubble.same (gt compar) x l := by
  apply List.filter_congr
  intro a _
  rw [Bool.eq_iff_iff, decide_eq_true_iff]
  exact h.eq_zero_iff a x

theorem qsort_sorts (h : IsPreorder compar) (base : List α) :
    ∃ sorted, qsort compar base.length base = some sorted ∧ Sorts compar base sorted := by
  obtain ⟨sorted, he, hsort⟩ :=
    Bubble.sort_spec h.strictWeak (Eq.refl base.length) []
  rw [List.append_nil, List.append_nil] at he
  refine ⟨sorted, by rw [qsort_eq (Nat.le_refl _), he], hsort.perm, ?_, fun x => ?_⟩
  · exact hsort.sorted.imp not_gt_iff.1
  · rw [h.filter_eq_same, h.filter_eq_same, hsort.same]

end Sorting

section Searching

variable {compar : α → α → Int32} {cmp : κ → α → Int32} {key : κ} {base : List α} {start stop : ℕ}

/-- `found` is the number of a member that compares equal to the key, or there is no such member. -/
def Finds (cmp : κ → α → Int32) (key : κ) (base : List α) : (found : Option ℕ) → Prop
  | some i => ∃ a, base[i]? = some a ∧ cmp key a = 0
  | none => ∀ a ∈ base, cmp key a ≠ 0

/-- The members outside the interval do not compare equal to the key. -/
structure Narrowed (cmp : κ → α → Int32) (key : κ) (base : List α) (start stop : ℕ) : Prop where
  bound : stop ≤ base.length
  below : ∀ i a, base[i]? = some a → i < start → cmp key a > 0
  above : ∀ i a, base[i]? = some a → stop ≤ i → cmp key a < 0

theorem Narrowed.finds_none (h : Narrowed cmp key base start stop) (hle : stop ≤ start) :
    Finds cmp key base none := by
  intro a ha heq
  obtain ⟨i, hi⟩ := List.getElem?_of_mem ha
  by_cases his : i < start
  · have := h.below i a hi his
    rw [heq] at this
    exact Int32.lt_irrefl this
  · have := h.above i a hi (by omega)
    rw [heq] at this
    exact Int32.lt_irrefl this

theorem le_of_ordered (hord : base.Pairwise fun a b => compar a b ≤ 0) {i j : ℕ} {a b : α}
    (hi : base[i]? = some a) (hj : base[j]? = some b) (hlt : i < j) : compar a b ≤ 0 := by
  obtain ⟨hil, rfl⟩ := List.getElem?_eq_some_iff.1 hi
  obtain ⟨hjl, rfl⟩ := List.getElem?_eq_some_iff.1 hj
  exact List.pairwise_iff_getElem.1 hord i j hil hjl hlt

theorem bsearchLoop_finds (hord : base.Pairwise fun a b => compar a b ≤ 0)
    (hc : Consistent compar cmp key) (h : Narrowed cmp key base start stop) :
    ∃ found, bsearchLoop cmp key base start stop = some found ∧ Finds cmp key base found := by
  induction hd : stop - start using Nat.strongRecOn generalizing start stop with
  | ind d ih =>
    rw [bsearchLoop]
    by_cases hlt : start < stop
    · have hmid : start + (stop - start) / 2 < stop := by omega
      have hbound := h.bound
      have hge : start ≤ start + (stop - start) / 2 := Nat.le_add_right _ _
      generalize start + (stop - start) / 2 = mid at hmid hge
      have helt : base[mid]? = some base[mid] := List.getElem?_eq_getElem (by omega)
      rw [dif_pos hlt]
      dsimp only
      rw [helt, Option.bind_eq_bind, Option.bind_some]
      by_cases hneg : cmp key base[mid] < 0
      · have hnarrow : Narrowed cmp key base start mid := by
          refine ⟨by omega, h.below, fun j b hj hmj => ?_⟩
          rcases Nat.eq_or_lt_of_le hmj with rfl | hmj
          · rw [helt] at hj
            exact Option.some.inj hj ▸ hneg
          · exact hc.less _ b (le_of_ordered hord helt hj hmj) hneg
        rw [if_pos hneg]
        exact ih (mid - start) (by omega) hnarrow rfl
      rw [if_neg hneg]
      by_cases hpos : cmp key base[mid] > 0
      · have hnarrow : Narrowed cmp key base (mid + 1) stop := by
          refine ⟨h.bound, fun j b hj hjm => ?_, h.above⟩
          rcases Nat.eq_or_lt_of_le (Nat.le_of_lt_succ hjm) with rfl | hjm
          · rw [helt] at hj
            exact Option.some.inj hj ▸ hpos
          · exact hc.greater b _ (le_of_ordered hord hj helt hjm) hpos
        rw [if_pos hpos]
        exact ih (stop - (mid + 1)) (by omega) hnarrow rfl
      rw [if_neg hpos]
      have heq := Int32.le_antisymm (Int32.not_lt.1 hpos) (Int32.not_lt.1 hneg)
      exact ⟨some mid, rfl, base[mid], helt, heq⟩
    · rw [dif_neg hlt]
      exact ⟨none, rfl, h.finds_none (by omega)⟩

theorem bsearch_finds (hord : base.Pairwise fun a b => compar a b ≤ 0)
    (hc : Consistent compar cmp key) :
    ∃ found, bsearch cmp key base base.length = some found ∧ Finds cmp key base found := by
  apply bsearchLoop_finds hord hc
  refine ⟨Nat.le_refl _, fun i a _ hi => absurd hi (Nat.not_lt_zero i), fun i a hi hle => ?_⟩
  obtain ⟨hlt, -⟩ := List.getElem?_eq_some_iff.1 hi
  omega

end Searching

/-- The order of the first components. -/
def byNumber (a b : ℕ × Bool) : Int32 := if a.1 < b.1 then -1 else if b.1 < a.1 then 1 else 0

theorem byNumber_le {a b : ℕ × Bool} : byNumber a b ≤ 0 ↔ a.1 ≤ b.1 := by
  unfold byNumber
  split
  · exact iff_of_true (by decide) (by omega)
  · split
    · exact iff_of_false (by decide) (by omega)
    · exact iff_of_true (by decide) (by omega)

theorem byNumber_lt {a b : ℕ × Bool} : byNumber a b < 0 ↔ a.1 < b.1 := by
  unfold byNumber
  split
  · exact iff_of_true (by decide) (by omega)
  · split
    · exact iff_of_false (by decide) (by omega)
    · exact iff_of_false (by decide) (by omega)

theorem byNumber_preorder : IsPreorder byNumber where
  swap a b := by
    rw [byNumber_lt, gt_iff_lt, ← Int32.not_le, byNumber_le, Nat.not_le]
  trans a b c hab hbc := byNumber_le.2 (Nat.le_trans (byNumber_le.1 hab) (byNumber_le.1 hbc))

example : qsort byNumber 3 [(2, true), (1, false), (2, false)] =
    some [(1, false), (2, true), (2, false)] := by decide

end Glidix.Libc.Sort
