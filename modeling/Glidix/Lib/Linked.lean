import Mathlib.Data.List.Nodup

/-!
# Linked lists threaded through a memory

`Linked next h l` says that the cells of the list `l` are found, in order, by starting at `h` and
following `next` until the null address `0`.  Only the links of the cells of `l` matter
(`Linked.congr`), and `l` is determined by the links (`Linked.unique`).  `DoublyLinked` has backward
links as well, which link the reversed list.
-/

/-- The null-terminated list `l` of cells starts at `h` and is linked by `next`. -/
def Linked (next : ℕ → ℕ) : ℕ → List ℕ → Prop
  | h, [] => h = 0
  | h, a :: l => h = a ∧ a ≠ 0 ∧ Linked next (next a) l

namespace Linked

variable {next next' : ℕ → ℕ} {h a : ℕ} {l : List ℕ}

theorem ne_zero (hl : Linked next h l) (ha : a ∈ l) : a ≠ 0 := by
  induction l generalizing h with
  | nil => cases ha
  | cons b l ih =>
    obtain ⟨-, hb, hl⟩ := hl
    rcases List.mem_cons.1 ha with rfl | ha
    · exact hb
    · exact ih hl ha

/-- The links of other cells do not matter. -/
theorem congr (hl : Linked next h l) (hn : ∀ a ∈ l, next' a = next a) : Linked next' h l := by
  induction l generalizing h with
  | nil => exact hl
  | cons b l ih =>
    obtain ⟨rfl, hb, hl⟩ := hl
    rw [← hn h List.mem_cons_self] at hl
    exact ⟨rfl, hb, ih hl fun a ha => hn a (List.mem_cons_of_mem _ ha)⟩

theorem eq_nil (hl : Linked next 0 l) : l = [] := by
  cases l with
  | nil => rfl
  | cons b l => exact absurd hl.1.symm hl.2.1

/-- A list that does not start at null has a first cell. -/
theorem exists_cons (hl : Linked next h l) (hh : h ≠ 0) :
    ∃ l', l = h :: l' ∧ Linked next (next h) l' := by
  cases l with
  | nil => exact absurd hl hh
  | cons b l =>
    obtain ⟨rfl, -, hl⟩ := hl
    exact ⟨l, rfl, hl⟩

theorem unique {l' : List ℕ} (hl : Linked next h l) (hl' : Linked next h l') : l = l' := by
  induction l generalizing h l' with
  | nil =>
    obtain rfl : h = 0 := hl
    exact (eq_nil hl').symm
  | cons b l ih =>
    obtain ⟨rfl, hb, hl⟩ := hl
    obtain ⟨m, rfl, hm⟩ := hl'.exists_cons hb
    rw [ih hl hm]

theorem head_eq (hl : Linked next h l) : h = l.headD 0 := by
  cases l with
  | nil => exact hl
  | cons b l => exact hl.1

section Splice

variable {pre post : List ℕ}

/-- The link of a cell names the cell after it. -/
theorem next_eq (hl : Linked next h (pre ++ a :: post)) : next a = post.headD 0 := by
  induction pre generalizing h with
  | nil => exact hl.2.2.head_eq
  | cons b pre ih => exact ih hl.2.2

theorem getLast?_cons_ne {b c : ℕ} (hc : c ≠ b) (hpre : c ∈ pre ∨ c ∈ post) :
    (b :: pre).getLast? = some c ↔ pre.getLast? = some c := by
  cases pre with
  | nil => simp [Ne.symm hc]
  | cons d pre => rw [List.getLast?_cons_cons]

theorem getLast?_cons_self_ne {b : ℕ} (hb : b ∉ pre) (hpre : pre ≠ []) :
    (b :: pre).getLast? ≠ some b := fun e => by
  rw [List.getLast?_cons_of_ne_nil hpre] at e
  exact hb (List.mem_of_getLast? e)

/-- Take the cell `a` out of the list: the cell before it is linked to the one after it. -/
theorem remove (hl : Linked next h (pre ++ a :: post)) (hnodup : (pre ++ post).Nodup)
    (hn : ∀ b ∈ pre ++ post, next' b = if pre.getLast? = some b then next a else next b) :
    Linked next' (if pre = [] then next a else h) (pre ++ post) := by
  induction pre generalizing h with
  | nil => exact hl.2.2.congr fun b hb => by simpa using hn b hb
  | cons b pre ih =>
    obtain ⟨rfl, hb, hl⟩ := hl
    rw [List.cons_append, List.nodup_cons] at hnodup
    have htail := ih hl hnodup.2 fun c hc => by
      have hne : c ≠ h := fun e => hnodup.1 (e ▸ hc)
      rw [hn c (List.mem_cons_of_mem _ hc)]
      simp only [getLast?_cons_ne hne (List.mem_append.1 hc)]
    rw [if_neg (List.cons_ne_nil _ _)]
    refine ⟨rfl, hb, ?_⟩
    have hhead : next' h = if pre = [] then next a else next h := by
      rw [hn h List.mem_cons_self]
      by_cases hpre : pre = []
      · simp [hpre]
      · have hlast := getLast?_cons_self_ne (fun hm => hnodup.1 (List.mem_append_left _ hm)) hpre
        rw [if_neg hlast, if_neg hpre]
    rw [hhead]
    exact htail

/-- Put the cell `a` into the list. -/
theorem insert (hl : Linked next h (pre ++ post)) (hnodup : (pre ++ post).Nodup) (ha : a ≠ 0)
    (hna : next' a = post.headD 0)
    (hn : ∀ b ∈ pre ++ post, next' b = if pre.getLast? = some b then a else next b) :
    Linked next' (if pre = [] then a else h) (pre ++ a :: post) := by
  induction pre generalizing h with
  | nil =>
    refine ⟨rfl, ha, ?_⟩
    rw [List.nil_append] at hl
    rw [hna, ← hl.head_eq]
    exact hl.congr fun b hb => by simpa using hn b hb
  | cons b pre ih =>
    obtain ⟨rfl, hb, hl⟩ := hl
    rw [List.cons_append, List.nodup_cons] at hnodup
    have htail := ih hl hnodup.2 fun c hc => by
      have hne : c ≠ h := fun e => hnodup.1 (e ▸ hc)
      rw [hn c (List.mem_cons_of_mem _ hc)]
      simp only [getLast?_cons_ne hne (List.mem_append.1 hc)]
    rw [if_neg (List.cons_ne_nil _ _)]
    refine ⟨rfl, hb, ?_⟩
    have hhead : next' h = if pre = [] then a else next h := by
      rw [hn h List.mem_cons_self]
      by_cases hpre : pre = []
      · simp [hpre]
      · have hlast := getLast?_cons_self_ne (fun hm => hnodup.1 (List.mem_append_left _ hm)) hpre
        rw [if_neg hlast, if_neg hpre]
    rw [hhead]
    exact htail

end Splice

end Linked

/-- The list `l` starts at `h`, is linked by `next` and backwards by `prev`, and has no cell twice. -/
structure DoublyLinked (next prev : ℕ → ℕ) (h : ℕ) (l : List ℕ) : Prop where
  next : Linked next h l
  prev : Linked prev (l.reverse.headD 0) l.reverse
  nodup : l.Nodup

namespace DoublyLinked

variable {next prev next' prev' : ℕ → ℕ} {h a : ℕ} {l pre post : List ℕ}

theorem nil (next prev : ℕ → ℕ) : DoublyLinked next prev 0 [] := ⟨rfl, rfl, List.nodup_nil⟩

theorem headD_reverse (l : List ℕ) : l.reverse.headD 0 = l.getLast?.getD 0 := by
  rw [List.headD_eq_head?_getD, List.head?_reverse]

theorem next_eq (hl : DoublyLinked next prev h (pre ++ a :: post)) : next a = post.headD 0 :=
  hl.next.next_eq

theorem prev_eq (hl : DoublyLinked next prev h (pre ++ a :: post)) :
    prev a = pre.getLast?.getD 0 := by
  have hprev := hl.prev
  rw [List.reverse_append, List.reverse_cons, List.append_assoc, List.singleton_append] at hprev
  rw [← headD_reverse]
  exact hprev.next_eq

/-- Take the cell `a` out of the list. -/
theorem remove (hl : DoublyLinked next prev h (pre ++ a :: post))
    (hn : ∀ b ∈ pre ++ post, next' b = if pre.getLast? = some b then next a else next b)
    (hp : ∀ b ∈ pre ++ post, prev' b = if post.head? = some b then prev a else prev b) :
    DoublyLinked next' prev' (if pre = [] then next a else h) (pre ++ post) := by
  have hnodup : (pre ++ post).Nodup :=
    hl.nodup.sublist (List.Sublist.append_left (List.sublist_cons_self a post) pre)
  have hprev := hl.prev
  rw [List.reverse_append, List.reverse_cons, List.append_assoc, List.singleton_append] at hprev
  refine ⟨hl.next.remove hnodup hn, ?_, hnodup⟩
  rw [List.reverse_append]
  have hrev : (post.reverse ++ pre.reverse).Nodup := by
    rw [← List.reverse_append]
    exact List.nodup_reverse.2 hnodup
  have hremoved := @Linked.remove _ prev' _ _ _ _ hprev hrev fun b hb => by
    rw [List.getLast?_reverse]
    apply hp
    rw [← List.reverse_append] at hb
    exact List.mem_reverse.1 hb
  exact hremoved.head_eq ▸ hremoved

/-- Put the cell `a` into the list. -/
theorem insert (hl : DoublyLinked next prev h (pre ++ post)) (ha : a ≠ 0) (hmem : a ∉ pre ++ post)
    (hna : next' a = post.headD 0) (hpa : prev' a = pre.getLast?.getD 0)
    (hn : ∀ b ∈ pre ++ post, next' b = if pre.getLast? = some b then a else next b)
    (hp : ∀ b ∈ pre ++ post, prev' b = if post.head? = some b then a else prev b) :
    DoublyLinked next' prev' (if pre = [] then a else h) (pre ++ a :: post) := by
  have hprev := hl.prev
  rw [List.reverse_append] at hprev
  refine ⟨hl.next.insert hl.nodup ha hna hn, ?_, ?_⟩
  · rw [List.reverse_append, List.reverse_cons, List.append_assoc]
    have hrev : (post.reverse ++ pre.reverse).Nodup := by
      rw [← List.reverse_append]
      exact List.nodup_reverse.2 hl.nodup
    have hinserted := @Linked.insert _ prev' _ _ _ _ hprev hrev ha
      (by rw [headD_reverse, hpa]) fun b hb => by
      rw [List.getLast?_reverse]
      apply hp
      rw [← List.reverse_append] at hb
      exact List.mem_reverse.1 hb
    exact hinserted.head_eq ▸ hinserted
  · exact (List.nodup_middle).2 (List.nodup_cons.2 ⟨hmem, hl.nodup⟩)

end DoublyLinked
