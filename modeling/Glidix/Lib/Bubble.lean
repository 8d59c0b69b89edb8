import Mathlib.Data.List.Perm.Basic

/-!
# Bubble passes

A pass over a list compares each element with the next one, and swaps them when the first is greater
(`gt`).  A pass puts a greatest element last, and one that swaps nothing has found a sorted list.
`bubbleSort` makes passes over ever shorter prefixes until one swaps nothing; its result is sorted,
and elements of which neither is greater than the other keep their order.
-/

variable {α : Type*}

/-- One pass, and whether it swapped anything. -/
def bubblePass (gt : α → α → Bool) : List α → List α × Bool
  | [] => ([], false)
  | [a] => ([a], false)
  | a :: b :: rest =>
    if gt a b then (b :: (bubblePass gt (a :: rest)).1, true)
    else (a :: (bubblePass gt (b :: rest)).1, (bubblePass gt (b :: rest)).2)

/-- `gt` is the strict part of a total preorder. -/
structure StrictWeak (gt : α → α → Bool) : Prop where
  asymm : ∀ a b, gt a b → ¬ gt b a
  trans : ∀ a b c, ¬ gt a b → ¬ gt b c → ¬ gt a c

namespace Bubble

variable {gt : α → α → Bool} {a b : α} {l rest : List α}

/-- No element is greater than one behind it. -/
abbrev Sorted (gt : α → α → Bool) (l : List α) : Prop := l.Pairwise fun a b => ¬ gt a b

/-- The elements that are neither greater nor less than `x`. -/
def same (gt : α → α → Bool) (x : α) (l : List α) : List α := l.filter fun a => !gt a x && !gt x a

theorem pass_swap (h : gt a b) :
    bubblePass gt (a :: b :: rest) = (b :: (bubblePass gt (a :: rest)).1, true) := by
  rw [bubblePass, if_pos h]

theorem pass_keep (h : ¬ gt a b) : bubblePass gt (a :: b :: rest) =
    (a :: (bubblePass gt (b :: rest)).1, (bubblePass gt (b :: rest)).2) := by
  rw [bubblePass, if_neg h]

theorem pass_perm (gt : α → α → Bool) (l : List α) : (bubblePass gt l).1.Perm l := by
  fun_induction bubblePass gt l with
  | case1 => exact .refl _
  | case2 a => exact .refl _
  | case3 a b rest h ih => exact (ih.cons b).trans (.swap a b rest)
  | case4 a b rest h ih => exact ih.cons a

theorem length_pass (gt : α → α → Bool) (l : List α) : (bubblePass gt l).1.length = l.length :=
  (pass_perm gt l).length_eq

/-- Elements that are swapped are not the same. -/
theorem same_pass (h : StrictWeak gt) (x : α) (l : List α) :
    same gt x (bubblePass gt l).1 = same gt x l := by
  fun_induction bubblePass gt l with
  | case1 => rfl
  | case2 a => rfl
  | case3 a b rest hgt ih =>
    have hsplit : (!gt a x && !gt x a) = false ∨ (!gt b x && !gt x b) = false := by
      by_contra hboth
      simp only [not_or, Bool.not_eq_false, Bool.and_eq_true, Bool.not_eq_true'] at hboth
      obtain ⟨⟨hax, -⟩, -, hxb⟩ := hboth
      exact h.trans a x b (by simp [hax]) (by simp [hxb]) hgt
    simp only [same] at ih ⊢
    rw [List.filter_cons, ih]
    rcases hsplit with ha | hb
    · simp only [List.filter_cons, ha, Bool.false_eq_true, if_false]
    · simp only [List.filter_cons, hb, Bool.false_eq_true, if_false]
  | case4 a b rest hgt ih =>
    simp only [same] at ih ⊢
    rw [List.filter_cons, ih]
    exact (List.filter_cons (p := fun a => !gt a x && !gt x a)).symm

/-- A pass puts an element last that is no less than any other. -/
theorem pass_last (h : StrictWeak gt) (hl : l ≠ []) : ∃ init last,
    (bubblePass gt l).1 = init ++ [last] ∧ ∀ x ∈ l, ¬ gt x last := by
  fun_induction bubblePass gt l with
  | case1 => exact absurd rfl hl
  | case2 a =>
    refine ⟨[], a, rfl, fun x hx => ?_⟩
    obtain rfl := List.mem_singleton.1 hx
    exact fun hgt => h.asymm _ _ hgt hgt
  | case3 a b rest hgt ih =>
    obtain ⟨init, last, he, hmax⟩ := ih (List.cons_ne_nil a rest)
    refine ⟨b :: init, last, by rw [he, List.cons_append], fun x hx => ?_⟩
    have hba : ¬ gt b last :=
      h.trans b a last (h.asymm a b hgt) (hmax a List.mem_cons_self)
    rcases List.mem_cons.1 hx with rfl | hx
    · exact hmax x List.mem_cons_self
    · rcases List.mem_cons.1 hx with rfl | hx
      · exact hba
      · exact hmax x (List.mem_cons_of_mem a hx)
  | case4 a b rest hgt ih =>
    obtain ⟨init, last, he, hmax⟩ := ih (List.cons_ne_nil b rest)
    refine ⟨a :: init, last, by rw [he, List.cons_append], fun x hx => ?_⟩
    rcases List.mem_cons.1 hx with rfl | hx
    · exact h.trans x b last hgt (hmax b List.mem_cons_self)
    · exact hmax x hx

/-- A pass that swaps nothing leaves a list as it is, and the list is sorted. -/
theorem pass_of_not_swapped (h : StrictWeak gt) (hs : (bubblePass gt l).2 = false) :
    (bubblePass gt l).1 = l ∧ Sorted gt l := by
  fun_induction bubblePass gt l with
  | case1 => exact ⟨rfl, List.Pairwise.nil⟩
  | case2 a => exact ⟨rfl, List.pairwise_singleton _ a⟩
  | case3 a b rest hgt ih => cases hs
  | case4 a b rest hgt ih =>
    obtain ⟨he, hsorted⟩ := ih hs
    refine ⟨by rw [he], List.pairwise_cons.2 ⟨fun x hx => ?_, hsorted⟩⟩
    rcases List.mem_cons.1 hx with rfl | hx
    · exact hgt
    · exact h.trans a b x hgt ((List.pairwise_cons.1 hsorted).1 x hx)

end Bubble

/-- Passes over the first `n` elements, then over one less, until one swaps nothing. -/
def bubbleSort (gt : α → α → Bool) : ℕ → List α → List α
  | 0, l => l
  | n + 1, l =>
    let (l', swapped) := bubblePass gt (l.take (n + 1))
    if swapped then bubbleSort gt n (l' ++ l.drop (n + 1)) else l' ++ l.drop (n + 1)

namespace Bubble

variable {gt : α → α → Bool} {l : List α} {n : ℕ}

/-- What sorting the first elements of a list does. -/
structure SortedFrom (gt : α → α → Bool) (l l' : List α) : Prop where
  perm : l'.Perm l
  sorted : Sorted gt l'
  same : ∀ x, same gt x l' = same gt x l

theorem sort_spec (h : StrictWeak gt) (hn : l.length = n) (tail : List α) :
    ∃ l', bubbleSort gt n (l ++ tail) = l' ++ tail ∧ SortedFrom gt l l' := by
  induction n generalizing l tail with
  | zero =>
    obtain rfl := List.length_eq_zero_iff.1 hn
    exact ⟨[], rfl, .refl _, List.Pairwise.nil, fun _ => rfl⟩
  | succ n ih =>
    have htake : (l ++ tail).take (n + 1) = l := List.take_left' hn
    have hdrop : (l ++ tail).drop (n + 1) = tail := List.drop_left' hn
    have hne : l ≠ [] := fun he => by simp [he] at hn
    rw [bubbleSort, htake, hdrop]
    dsimp only
    by_cases hs : (bubblePass gt l).2 = true
    · obtain ⟨init, last, he, hmax⟩ := pass_last h hne
      have hperm := pass_perm gt l
      have hsame := fun x => same_pass h x l
      rw [he] at hperm hsame
      have hlen : init.length = n := by
        have := hperm.length_eq
        rw [List.length_append, List.length_singleton] at this
        omega
      obtain ⟨l', hl', hsort⟩ := ih hlen (last :: tail)
      rw [if_pos hs, he, List.append_assoc, List.singleton_append, hl']
      refine ⟨l' ++ [last], by simp, (hsort.perm.append_right [last]).trans hperm, ?_, fun x => ?_⟩
      · refine List.pairwise_append.2 ⟨hsort.sorted, List.pairwise_singleton _ _, fun x hx y hy => ?_⟩
        obtain rfl := List.mem_singleton.1 hy
        exact hmax x (hperm.subset (List.mem_append_left _ (hsort.perm.subset hx)))
      · rw [← hsame x, same, List.filter_append, ← same, hsort.same x, same, same, List.filter_append]
    · rw [if_neg hs]
      obtain ⟨he, hsorted⟩ := pass_of_not_swapped h (Bool.eq_false_iff.2 hs)
      rw [he]
      exact ⟨l, rfl, .refl _, hsorted, fun _ => rfl⟩

end Bubble
