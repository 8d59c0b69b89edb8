import Mathlib.Logic.Basic

/-!
# Runs of a labelled transition system

A `System` is given by its initial states and a labelled step relation.  `T.ReachesBy c s` says
that `s` ends a finite run of `T` whose steps all meet the condition `c` in the state they are
taken from; `T.Reachable` is the case without a condition.  An invariant is proved once per step and
holds in every state of a run by `ReachesBy.invariant`.
-/

/-- A labelled transition system. -/
structure System (σ α : Type*) where
  /-- The states a run may start in. -/
  init : σ → Prop
  /-- One step, with its label. -/
  step : σ → α → σ → Prop

namespace System

variable {σ α : Type*} {T : System σ α} {c d : σ → α → Prop} {s t : σ}

/-- `s` is reached by a run all of whose steps meet the condition `c`. -/
inductive ReachesBy (T : System σ α) (c : σ → α → Prop) : σ → Prop
  | init {s : σ} (h : T.init s) : ReachesBy T c s
  | step {s t : σ} {a : α} (h : ReachesBy T c s) (hc : c s a) (ht : T.step s a t) : ReachesBy T c t

/-- `s` is reached by some run. -/
abbrev Reachable (T : System σ α) (s : σ) : Prop := T.ReachesBy (fun _ _ => True) s

theorem ReachesBy.mono (h : T.ReachesBy c s) (hcd : ∀ s a, c s a → d s a) : T.ReachesBy d s := by
  induction h with
  | init h => exact .init h
  | step _ hc ht ih => exact .step ih (hcd _ _ hc) ht

theorem ReachesBy.reachable (h : T.ReachesBy c s) : T.Reachable s := h.mono fun _ _ _ => trivial

/-- What holds initially and is preserved by every step that meets the condition holds in every
state of a run. -/
theorem ReachesBy.invariant {I : σ → Prop} (h : T.ReachesBy c s) (hinit : ∀ s, T.init s → I s)
    (hstep : ∀ s a t, I s → c s a → T.step s a t → I t) : I s := by
  induction h with
  | init h => exact hinit _ h
  | step _ hc ht ih => exact hstep _ _ _ ih hc ht

/-- A run given by a list of steps. -/
theorem ReachesBy.foldlM {f : σ → α → Option σ} {l : List α}
    (hf : ∀ s a t, f s a = some t → c s a ∧ T.step s a t) (hs : T.ReachesBy c s)
    (ht : l.foldlM f s = some t) : T.ReachesBy c t := by
  induction l generalizing s with
  | nil =>
    obtain rfl : s = t := Option.some.inj ht
    exact hs
  | cons a l ih =>
    rw [List.foldlM_cons] at ht
    obtain ⟨u, hu, ht⟩ := Option.bind_eq_some_iff.1 ht
    exact ih (hs.step (hf s a u hu).1 (hf s a u hu).2) ht

/-- A run given by a step function and a list of steps; `none` if one of them is not possible or does
not meet the condition. -/
def execBy (c : σ → α → Prop) [∀ s, DecidablePred (c s)] (step : σ → α → Option σ) (s : σ)
    (l : List α) : Option σ :=
  l.foldlM (fun s a => if c s a then step s a else none) s

theorem ReachesBy.execBy [∀ s, DecidablePred (c s)] {step : σ → α → Option σ} {l : List α}
    (hstep : ∀ s a t, step s a = some t → T.step s a t) (hs : T.ReachesBy c s)
    (ht : System.execBy c step s l = some t) : T.ReachesBy c t := by
  refine hs.foldlM (fun s a t h => ?_) ht
  obtain ⟨hc, h⟩ := Option.ite_none_right_eq_some.1 h
  exact ⟨hc, hstep s a t h⟩

end System
