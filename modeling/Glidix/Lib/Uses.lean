import Mathlib.Data.List.Basic

/-!
# Taking and giving back

What a program takes and gives back, in order.  `useAll` follows a list of uses from what is held; nothing
is taken twice in a row or given back unless it is held.  A list is balanced if it can be followed from
nothing and leaves nothing: whatever it takes, it gives back once.
-/

inductive Use (α : Type*) where
  | take (a : α)
  | give (a : α)
  deriving DecidableEq

namespace Use

variable {α : Type*} [DecidableEq α]

/-- What is held after a use. -/
def apply (held : List α) : Use α → Option (List α)
  | .take a => if a ∈ held then none else some (a :: held)
  | .give a => if a ∈ held then some (held.erase a) else none

def useAll (held : List α) : List (Use α) → Option (List α)
  | [] => some held
  | u :: l => (u.apply held).bind fun held => useAll held l

def Balanced (l : List (Use α)) : Prop := useAll [] l = some []

instance (l : List (Use α)) : Decidable (Balanced l) := inferInstanceAs (Decidable (_ = _))

variable {held : List α} {l l' : List (Use α)} {a : α}

@[simp] theorem useAll_nil : useAll held [] = some held := rfl

theorem useAll_append : useAll held (l ++ l') = (useAll held l).bind fun held => useAll held l' := by
  induction l generalizing held with
  | nil => rfl
  | cons u l ih =>
    rw [List.cons_append, useAll, useAll, Option.bind_assoc]
    exact Option.bind_congr fun held _ => ih

theorem useAll_take (h : a ∉ held) : useAll held (.take a :: l) = useAll (a :: held) l := by
  rw [useAll, apply, if_neg h, Option.bind_some]

theorem useAll_give (h : a ∈ held) : useAll held (.give a :: l) = useAll (held.erase a) l := by
  rw [useAll, apply, if_pos h, Option.bind_some]

theorem balanced_nil : Balanced ([] : List (Use α)) := rfl

/-- What is never given back stays held. -/
theorem mem_of_useAll {held' : List α} (h : useAll held l = some held') (hgive : .give a ∉ l)
    (htake : a ∈ held ∨ .take a ∈ l) : a ∈ held' := by
  induction l generalizing held with
  | nil =>
    obtain rfl := Option.some.inj h
    exact htake.resolve_right List.not_mem_nil
  | cons u l ih =>
    obtain ⟨next, hu, hl⟩ := Option.bind_eq_some_iff.1 h
    refine ih hl (fun hmem => hgive (List.mem_cons_of_mem _ hmem)) ?_
    cases u with
    | take b =>
      rw [apply] at hu
      split_ifs at hu
      obtain rfl := Option.some.inj hu
      rcases htake with hheld | hmem
      · exact Or.inl (List.mem_cons_of_mem _ hheld)
      · rcases List.mem_cons.1 hmem with heq | hmem
        · cases heq
          exact Or.inl List.mem_cons_self
        · exact Or.inr hmem
    | give b =>
      rw [apply] at hu
      split_ifs at hu
      obtain rfl := Option.some.inj hu
      have hne : a ≠ b := by
        rintro rfl
        exact hgive List.mem_cons_self
      rcases htake with hheld | hmem
      · exact Or.inl ((List.mem_erase_of_ne hne).2 hheld)
      · rcases List.mem_cons.1 hmem with heq | hmem
        · exact nomatch heq
        · exact Or.inr hmem

/-- Whatever a balanced list takes, it gives back. -/
theorem Balanced.give_mem (h : Balanced l) (htake : .take a ∈ l) : .give a ∈ l := by
  by_contra hgive
  exact absurd (mem_of_useAll h hgive (Or.inr htake)) List.not_mem_nil

/-- What comes before does not matter if it is balanced. -/
theorem Balanced.append_iff (h : Balanced l) : Balanced (l ++ l') ↔ Balanced l' := by
  unfold Balanced at h ⊢
  rw [useAll_append, h, Option.bind_some]

end Use
