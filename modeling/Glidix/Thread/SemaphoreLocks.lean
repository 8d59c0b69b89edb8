import Mathlib.Data.Fintype.Basic
import Mathlib.Data.List.Basic
import Mathlib.Logic.Function.Basic
import Mathlib.Logic.Relation
import Mathlib.Order.WithBot
import Glidix.Lib.Runs

/-!
# The order of the locks of semaphores

The functions of semaphores take the lock of a semaphore before `schedLock`, and `semPoll` takes the locks of
many semaphores one after the other; when it wakes up, it takes `schedLock` first.  No cycle of processors
wait for each other if all calls of `semPoll` name their semaphores in one order and without repetition, and
if `semPoll` finds the locks free that it takes under `schedLock`.
-/

namespace Glidix.Thread.SemaphoreLocks

/-! ## The code -/

inductive Lock (σ : Type*) where
  | sem (s : σ)
  | schedLock
  deriving DecidableEq

inductive Action (σ : Type*) where
  | acquire (l : Lock σ)
  | release (l : Lock σ)
  | kyield
  deriving DecidableEq

open Lock Action

/-- The places of the functions where the counts, the queues, the clock and the signals decide how to go
on; a semaphore is named by its address. -/
inductive Point (σ : Type*) where
  | done
  /-- `while (sem->count == 0)` of `semWaitGen`. -/
  | waitTest (s : σ)
  /-- `while (!waiter.give)` of `semWaitGen`. -/
  | waitLoop (s : σ)
  /-- `semSignal2` and `semTerminate` with the lock. -/
  | signal (s : σ)
  /-- `semPoll` with all locks. -/
  | pollFree (sems : List σ)
  /-- `while (1)` of `semPoll`. -/
  | pollLoop (sems : List σ)
  deriving DecidableEq

variable {σ ι : Type*}

def acquireAll (sems : List σ) : List (Action σ) := sems.map fun s => acquire (sem s)

def releaseAll (sems : List σ) : List (Action σ) := sems.map fun s => release (sem s)

/-- How the functions go on from a place, up to the next one. -/
def Point.ways : Point σ → List (List (Action σ) × Point σ)
  | .done => []
  | .waitTest s =>
    [ -- nothing is free, or it is taken and nobody is woken up
      ([release (sem s)], .done),
      ([acquire schedLock], .waitLoop s),
      ([acquire schedLock, release schedLock, release (sem s)], .done)]
  | .waitLoop s =>
    [ -- the deadline is over, or a signal is ready
      ([release schedLock, release (sem s)], .done),
      ([release schedLock], .waitTest s),
      ([release (sem s), release schedLock, kyield, acquire (sem s), acquire schedLock], .waitLoop s)]
  | .signal s =>
    [([release (sem s)], .done), ([acquire schedLock, release schedLock, release (sem s)], .done)]
  | .pollFree sems => [(releaseAll sems, .done), ([acquire schedLock], .pollLoop sems)]
  | .pollLoop sems =>
    [(releaseAll sems ++ [release schedLock], .done),
      (releaseAll sems ++ release schedLock :: kyield :: acquire schedLock :: acquireAll sems, .pollLoop sems)]

inductive Call (σ : Type*) where
  | semWaitGen (s : σ)
  | semSignal2 (s : σ)
  | semTerminate (s : σ)
  | semPoll (sems : List (Option σ))
  deriving DecidableEq

/-- What a call does first. -/
def Call.start : Call σ → List (Action σ) × Point σ
  | .semWaitGen s => ([acquire (sem s)], .waitTest s)
  | .semSignal2 s => ([acquire (sem s)], .signal s)
  | .semTerminate s => ([acquire (sem s)], .signal s)
  | .semPoll sems => (acquireAll sems.reduceOption, .pollFree sems.reduceOption)

/-! ## Runs -/

/-- The holders of the locks, and for each thread what it does next.  A thread that holds a lock or waits
for one has a processor of its own, since the interrupts are disabled. -/
structure State (σ ι : Type*) where
  holder : Lock σ → Option ι
  todo : ι → List (Action σ)
  point : ι → Point σ

inductive Op (σ ι : Type*) where
  | call (t : ι) (c : Call σ)
  | run (t : ι)
  | choose (t : ι) (way : ℕ)

section Steps

variable [DecidableEq σ] [DecidableEq ι]

namespace State

def goOn (s : State σ ι) (t : ι) (way : List (Action σ) × Point σ) : State σ ι :=
  { s with todo := Function.update s.todo t way.1, point := Function.update s.point t way.2 }

/-- The next action of a thread; a thread that waits for a lock cannot go on. -/
def run (s : State σ ι) (t : ι) : Option (State σ ι) :=
  match s.todo t with
  | [] => none
  | acquire l :: rest =>
    if s.holder l = none then
      some { s with holder := Function.update s.holder l (some t), todo := Function.update s.todo t rest }
    else none
  | release l :: rest =>
    some { s with holder := Function.update s.holder l none, todo := Function.update s.todo t rest }
  | kyield :: rest => some { s with todo := Function.update s.todo t rest }

end State

def step (s : State σ ι) : Op σ ι → Option (State σ ι)
  | .call t c => if s.todo t = [] ∧ s.point t = .done then some (s.goOn t c.start) else none
  | .run t => s.run t
  | .choose t way =>
    if s.todo t = [] then ((s.point t).ways[way]?).map (s.goOn t) else none

def initial (σ ι : Type*) : State σ ι := ⟨fun _ => none, fun _ => [], fun _ => .done⟩

def locks (σ ι : Type*) [DecidableEq σ] [DecidableEq ι] : System (State σ ι) (Op σ ι) where
  init s := s = initial σ ι
  step s op s' := step s op = some s'

end Steps

/-! ## What is to hold -/

/-- `t` is about to take the lock, or spins on it. -/
def Tries (s : State σ ι) (t : ι) (l : Lock σ) : Prop := ∃ rest, s.todo t = acquire l :: rest

def Waits (s : State σ ι) (t u : ι) : Prop := ∃ l, Tries s t l ∧ s.holder l = some u

structure Safe (s : State σ ι) : Prop where
  other : ∀ t l, Tries s t l → s.holder l ≠ some t
  no_cycle : ∀ t, ¬Relation.TransGen (Waits s) t t

/-- The semaphores whose locks are taken before `schedLock` is released. -/
def underSched : List (Action σ) → List σ
  | [] => []
  | acquire (sem s) :: rest => s :: underSched rest
  | release schedLock :: _ => []
  | _ :: rest => underSched rest

/-- The calls of `semPoll` name their semaphores in one order; the locks that `semPoll` takes under
`schedLock` are free when it takes `schedLock`, and stay so for the other threads. -/
def Ordered [LT σ] (s : State σ ι) : Op σ ι → Prop
  | .call _ (.semPoll sems) => sems.reduceOption.Pairwise (· < ·)
  | .call _ _ => True
  | .run t =>
    match s.todo t with
    | acquire schedLock :: rest => ∀ a ∈ underSched rest, s.holder (sem a) = none
    | acquire (sem a) :: _ => ∀ u, s.holder schedLock = some u → u ≠ t → a ∉ underSched (s.todo u)
    | _ => True
  | .choose _ _ => True

instance [LT σ] [DecidableLT σ] [DecidableEq σ] [DecidableEq ι] [Fintype ι] (s : State σ ι) :
    DecidablePred (Ordered s) := by
  intro op
  unfold Ordered
  split
  · infer_instance
  · infer_instance
  · split
    · infer_instance
    · infer_instance
    · infer_instance
  · infer_instance

/-! ## Waiting in an order -/

/-- If who waits for a waiting thread has the smaller value, nobody waits for itself. -/
theorem no_cycle_of_lt {κ τ : Type*} [Preorder κ] {W : τ → τ → Prop} {f : τ → κ}
    (h : ∀ t u v, W t u → W u v → f t < f u) (t : τ) : ¬Relation.TransGen W t t := by
  have hlt : ∀ u, Relation.TransGen W t u → ∀ v, W u v → f t < f u := by
    intro u hu
    induction hu with
    | single htu => exact fun v => h t _ v htu
    | tail _ hbc ih => exact fun v hv => (ih _ hbc).trans (h _ _ v hbc hv)
  intro hcycle
  obtain ⟨v, hv, -⟩ := Relation.TransGen.head'_iff.1 hcycle
  exact lt_irrefl _ (hlt t hcycle v hv)

/-! ## The locks of one thread -/

/-- The locks that a thread holds at a place. -/
def Point.held : Point σ → List (Lock σ)
  | .done => []
  | .waitTest s => [sem s]
  | .waitLoop s => [sem s, schedLock]
  | .signal s => [sem s]
  | .pollFree sems => sems.map sem
  | .pollLoop sems => schedLock :: sems.map sem

section Ok

variable [Preorder σ] {H : Lock σ → Prop} {rest : List (Action σ)} {p : Point σ} {sems : List σ}

def Point.Sorted : Point σ → Prop
  | .pollFree sems | .pollLoop sems => sems.Pairwise (· < ·)
  | _ => True

/-- With the locks of `H` a thread can do these actions: it takes no lock that it has, and without `schedLock`
it takes the locks of semaphores in their order. -/
def Ok : (Lock σ → Prop) → List (Action σ) → Point σ → Prop
  | H, [], p => (∀ l, H l ↔ l ∈ p.held) ∧ p.Sorted
  | H, acquire l :: rest, p =>
    ¬H l ∧ (¬H schedLock → ∀ a, l = sem a → ∀ b, H (sem b) → b < a) ∧ Ok (fun x => x = l ∨ H x) rest p
  | H, release l :: rest, p => H l ∧ Ok (fun x => x ≠ l ∧ H x) rest p
  | H, kyield :: rest, p => (∀ l, ¬H l) ∧ Ok H rest p

theorem Ok.congr {H' : Lock σ → Prop} (h : Ok H rest p) (heq : ∀ l, H l ↔ H' l) : Ok H' rest p := by
  obtain rfl : H = H' := funext fun l => propext (heq l)
  exact h

theorem ok_releaseAll (hheld : ∀ a ∈ sems, H (sem a)) (hnodup : sems.Nodup)
    (h : Ok (fun x => H x ∧ ∀ a ∈ sems, x ≠ sem a) rest p) : Ok H (releaseAll sems ++ rest) p := by
  induction sems generalizing H with
  | nil => exact h.congr fun l => by simp
  | cons a sems ih =>
    obtain ⟨hnot, hnodup⟩ := List.nodup_cons.1 hnodup
    refine ⟨hheld a List.mem_cons_self, ih (fun b hb => ⟨?_, hheld b (List.mem_cons_of_mem _ hb)⟩) hnodup ?_⟩
    · rintro ⟨⟩
      exact hnot hb
    · exact h.congr fun l => by simp only [List.forall_mem_cons]; tauto

theorem ok_acquireAll (hnew : ∀ a ∈ sems, ¬H (sem a)) (hsorted : sems.Pairwise (· < ·))
    (hlow : ¬H schedLock → ∀ b, H (sem b) → ∀ a ∈ sems, b < a)
    (h : Ok (fun x => H x ∨ ∃ a ∈ sems, x = sem a) rest p) : Ok H (acquireAll sems ++ rest) p := by
  induction sems generalizing H with
  | nil => exact h.congr fun l => by simp
  | cons a sems ih =>
    obtain ⟨hlt, hsorted⟩ := List.pairwise_cons.1 hsorted
    refine ⟨hnew a List.mem_cons_self, fun hs c hc b hb => ?_, ih (fun b hb => ?_) hsorted (fun hs b hb c hc => ?_) ?_⟩
    · cases hc
      exact hlow hs b hb a List.mem_cons_self
    · rintro (h | h)
      · cases h
        exact lt_irrefl _ (hlt _ hb)
      · exact hnew b (List.mem_cons_of_mem _ hb) h
    · rcases hb with hb | hb
      · cases hb
        exact hlt c hc
      · exact hlow (fun h => hs (.inr h)) b hb c (List.mem_cons_of_mem _ hc)
    · exact h.congr fun l => by simp only [List.exists_mem_cons_iff]; tauto

theorem Point.Sorted.nodup (h : sems.Pairwise (· < ·)) : sems.Nodup := h.imp fun hab => hab.ne

/-- All ways that go on from a place. -/
theorem ok_ways (hp : p.Sorted) : ∀ w ∈ p.ways, Ok (· ∈ p.held) w.1 w.2 := by
  cases p with
  | done => exact nofun
  | waitTest s =>
    simp only [Point.ways, List.forall_mem_cons, Point.held]
    refine ⟨?_, ?_, ?_, nofun⟩
    · simp [Ok, Point.held, Point.Sorted]
    · simp [Ok, Point.held, Point.Sorted, or_comm]
    · simp [Ok, Point.held, Point.Sorted]
      grind
  | waitLoop s =>
    simp only [Point.ways, List.forall_mem_cons, Point.held]
    refine ⟨?_, ?_, ?_, nofun⟩
    · simp [Ok, Point.held, Point.Sorted]
      grind
    · simp [Ok, Point.held, Point.Sorted]
      grind
    · simp [Ok, Point.held, Point.Sorted]
      grind
  | signal s =>
    simp only [Point.ways, List.forall_mem_cons, Point.held]
    refine ⟨?_, ?_, nofun⟩
    · simp [Ok, Point.held, Point.Sorted]
    · simp [Ok, Point.held, Point.Sorted]
      grind
  | pollFree sems =>
    have hnodup := Point.Sorted.nodup hp
    simp only [Point.ways, List.forall_mem_cons]
    refine ⟨?_, ?_, nofun⟩
    · rw [← List.append_nil (releaseAll sems)]
      refine ok_releaseAll (fun a ha => List.mem_map_of_mem ha) hnodup ⟨fun l => ?_, trivial⟩
      simp only [Point.held, List.mem_map, List.not_mem_nil, iff_false]
      rintro ⟨⟨a, ha, rfl⟩, hne⟩
      exact hne a ha rfl
    · refine ⟨by simp [Point.held], nofun, fun l => ?_, hp⟩
      simp [Point.held]
  | pollLoop sems =>
    have hnodup := Point.Sorted.nodup hp
    have hheld : ∀ a ∈ sems, sem a ∈ (Point.pollLoop sems).held := fun a ha =>
      List.mem_cons_of_mem _ (List.mem_map_of_mem ha)
    have hrest : ∀ l, (l ∈ (Point.pollLoop sems).held ∧ ∀ a ∈ sems, l ≠ sem a) ↔ l = schedLock := by
      intro l
      simp only [Point.held, List.mem_cons, List.mem_map]
      constructor
      · rintro ⟨rfl | ⟨a, ha, rfl⟩, hne⟩
        · rfl
        · exact absurd rfl (hne a ha)
      · rintro rfl
        exact ⟨.inl rfl, nofun⟩
    simp only [Point.ways, List.forall_mem_cons]
    refine ⟨?_, ?_, nofun⟩
    · refine ok_releaseAll hheld hnodup ⟨(hrest _).2 rfl, fun l => ?_, trivial⟩
      exact iff_of_false (fun h => h.1 ((hrest l).1 h.2)) List.not_mem_nil
    · have hnone : ∀ l : Lock σ, ¬(l ≠ schedLock ∧ l = schedLock) := fun l h => h.1 h.2
      refine ok_releaseAll hheld hnodup (Ok.congr ?_ fun l => (hrest l).symm)
      refine ⟨rfl, hnone, hnone _, nofun, ?_⟩
      rw [← List.append_nil (acquireAll sems)]
      refine ok_acquireAll (fun a _ h => ?_) hp (fun h => absurd (.inl rfl) h) ⟨fun l => ?_, hp⟩
      · rcases h with h | h
        · exact nomatch h
        · exact hnone _ h
      · simp only [Point.held, List.mem_cons, List.mem_map]
        simp only [hnone, or_false, eq_comm]

theorem ok_start {c : Call σ} (hc : ∀ sems, c = .semPoll sems → sems.reduceOption.Pairwise (· < ·)) :
    Ok (fun _ => False) c.start.1 c.start.2 := by
  cases c with
  | semWaitGen s => simp [Call.start, Ok, Point.held, Point.Sorted]
  | semSignal2 s => simp [Call.start, Ok, Point.held, Point.Sorted]
  | semTerminate s => simp [Call.start, Ok, Point.held, Point.Sorted]
  | semPoll sems =>
    have hsorted := hc sems rfl
    rw [Call.start, ← List.append_nil (acquireAll _)]
    refine ok_acquireAll (fun _ _ => id) hsorted (fun _ _ h => h.elim) ⟨fun l => ?_, hsorted⟩
    simp only [Point.held, List.mem_map, false_or, eq_comm]

end Ok

/-! ## The locks that a thread is going to take -/

/-- The semaphores whose locks a thread is going to take up to the next place. -/
def acquired : List (Action σ) → List σ
  | [] => []
  | acquire (sem s) :: rest => s :: acquired rest
  | _ :: rest => acquired rest

section Acquired

variable {sems : List σ} {rest : List (Action σ)} {p : Point σ} {a : σ}

theorem underSched_sub (h : a ∈ underSched rest) : a ∈ acquired rest := by
  induction rest with
  | nil => exact h
  | cons x rest ih =>
    match x with
    | acquire (sem b) =>
      rcases List.mem_cons.1 h with rfl | h
      · exact List.mem_cons_self
      · exact List.mem_cons_of_mem _ (ih h)
    | acquire schedLock => exact ih h
    | release schedLock => exact nomatch h
    | release (sem b) => exact ih h
    | kyield => exact ih h

theorem acquired_acquireAll (sems : List σ) : acquired (acquireAll sems) = sems := by
  induction sems with
  | nil => rfl
  | cons a sems ih => exact congrArg (a :: ·) ih

theorem acquired_releaseAll (sems : List σ) : acquired (releaseAll sems ++ rest) = acquired rest := by
  induction sems with
  | nil => rfl
  | cons a sems ih => exact ih

theorem underSched_releaseAll (sems : List σ) :
    underSched (releaseAll sems ++ release schedLock :: rest) = [] := by
  induction sems with
  | nil => rfl
  | cons a sems ih => exact ih

theorem acquired_ways [Preorder σ] (hp : p.Sorted) : ∀ w ∈ p.ways, (acquired w.1).Nodup := by
  cases p with
  | done => exact nofun
  | waitTest s => simp [Point.ways, acquired]
  | waitLoop s => simp [Point.ways, acquired]
  | signal s => simp [Point.ways, acquired]
  | pollFree sems =>
    have hnil := @acquired_releaseAll σ [] sems
    rw [List.append_nil] at hnil
    simp [Point.ways, acquired, hnil]
  | pollLoop sems =>
    have hnodup := Point.Sorted.nodup hp
    simp [Point.ways, acquired, acquired_releaseAll, acquired_acquireAll, hnodup]

/-- Who holds `schedLock` at a place takes no other lock before it has released it. -/
theorem underSched_ways (h : schedLock ∈ p.held) : ∀ w ∈ p.ways, underSched w.1 = [] := by
  cases p with
  | waitLoop s => simp [Point.ways, underSched]
  | pollLoop sems =>
    have hnil := @underSched_releaseAll σ [] sems
    simp [Point.ways, underSched_releaseAll, hnil]
  | _ => simp [Point.held] at h

end Acquired

/-! ## Every run -/

theorem Lock.sem_ne (a : σ) : sem a ≠ schedLock := nofun

section Runs

variable [Preorder σ] {s s' : State σ ι} {t : ι} {op : Op σ ι}

structure Inv (s : State σ ι) : Prop where
  each : ∀ t, Ok (fun l => s.holder l = some t) (s.todo t) (s.point t)
  /-- The locks that are taken under `schedLock` are free. -/
  free : ∀ t, s.holder schedLock = some t → ∀ a ∈ underSched (s.todo t), s.holder (sem a) = none
  nodup : ∀ t, (acquired (s.todo t)).Nodup

/-- The lock that a thread tries, in the order of the locks; `schedLock` is the last one. -/
def tried (s : State σ ι) (t : ι) : WithTop σ :=
  match s.todo t with
  | acquire (sem a) :: _ => a
  | _ => ⊤

/-- The locks of a waiting thread are before the lock that it waits for. -/
theorem Inv.tried_lt (hi : Inv s) {u v : ι} (htu : Waits s t u) (huv : Waits s u v) : tried s t < tried s u := by
  obtain ⟨l, ⟨rest, htodo⟩, hl⟩ := htu
  obtain ⟨l', ⟨rest', htodo'⟩, hl'⟩ := huv
  have hok := hi.each u
  rw [htodo'] at hok
  obtain ⟨hnew, hbefore, -⟩ := hok
  -- who holds `schedLock` does not wait
  have hsched : s.holder schedLock ≠ some u := by
    intro hs
    have hfree := hi.free u hs
    rw [htodo'] at hfree
    cases l' with
    | schedLock => exact hnew hs
    | sem a =>
      rw [hfree a List.mem_cons_self] at hl'
      exact nomatch hl'
  cases l with
  | schedLock => exact absurd hl hsched
  | sem a =>
    cases l' with
    | schedLock => simp only [tried, htodo, htodo', WithTop.coe_lt_top]
    | sem b =>
      simp only [tried, htodo, htodo', WithTop.coe_lt_coe]
      exact hbefore hsched b rfl a hl

theorem Inv.safe (hi : Inv s) : Safe s := by
  refine ⟨fun t l ⟨rest, htodo⟩ => ?_, no_cycle_of_lt fun t u v htu huv => hi.tried_lt htu huv⟩
  have hok := hi.each t
  rw [htodo] at hok
  exact hok.1

theorem inv_initial : Inv (initial σ ι) :=
  ⟨fun _ => ⟨fun _ => iff_of_false nofun nofun, trivial⟩, nofun, fun _ => List.nodup_nil⟩

variable [DecidableEq ι]

theorem Inv.goOn {way : List (Action σ) × Point σ} (hi : Inv s)
    (hok : Ok (fun l => s.holder l = some t) way.1 way.2)
    (hfree : s.holder schedLock = some t → underSched way.1 = []) (hnodup : (acquired way.1).Nodup) :
    Inv (s.goOn t way) := by
  refine ⟨fun u => ?_, fun u hu => ?_, fun u => ?_⟩
  · by_cases hut : u = t
    · subst hut
      simpa only [State.goOn, Function.update_self] using hok
    · simpa only [State.goOn, Function.update_of_ne hut] using hi.each u
  · by_cases hut : u = t
    · subst hut
      simp only [State.goOn, Function.update_self, hfree hu]
      exact nofun
    · simpa only [State.goOn, Function.update_of_ne hut] using hi.free u hu
  · by_cases hut : u = t
    · subst hut
      simpa only [State.goOn, Function.update_self] using hnodup
    · simpa only [State.goOn, Function.update_of_ne hut] using hi.nodup u

variable [DecidableEq σ]

theorem Inv.acquire {l : Lock σ} {rest : List (Action σ)} (hi : Inv s) (hc : Ordered s (.run t))
    (htodo : s.todo t = acquire l :: rest) (hl : s.holder l = none) :
    Inv { s with holder := Function.update s.holder l (some t), todo := Function.update s.todo t rest } := by
  have hok := hi.each t
  have hnodup := hi.nodup t
  have hown := hi.free t
  rw [htodo] at hok hnodup hown
  obtain ⟨-, -, hok⟩ := hok
  simp only [Ordered, htodo] at hc
  refine ⟨fun u => ?_, fun u hu a ha => ?_, fun u => ?_⟩
  · by_cases hut : u = t
    · subst hut
      simp only [Function.update_self]
      refine hok.congr fun x => ?_
      by_cases hx : x = l
      · subst hx
        simp
      · simp [hx]
    · simp only [Function.update_of_ne hut]
      refine (hi.each u).congr fun x => ?_
      by_cases hx : x = l
      · subst hx
        simp [hl, Ne.symm hut]
      · simp [hx]
  · simp only at hu ha ⊢
    cases l with
    | schedLock =>
      rw [Function.update_self] at hu
      obtain rfl := Option.some.inj hu
      rw [Function.update_self] at ha
      rw [Function.update_of_ne (Lock.sem_ne a)]
      exact hc a ha
    | sem b =>
      rw [Function.update_of_ne (Lock.sem_ne b).symm] at hu
      by_cases hut : u = t
      · subst hut
        rw [Function.update_self] at ha
        have hab : a ≠ b := by
          rintro rfl
          exact (List.nodup_cons.1 hnodup).1 (underSched_sub ha)
        rw [Function.update_of_ne fun h => hab (Lock.sem.inj h)]
        exact hown hu a (List.mem_cons_of_mem _ ha)
      · rw [Function.update_of_ne hut] at ha
        have hab : a ≠ b := by
          rintro rfl
          exact hc u hu hut ha
        rw [Function.update_of_ne fun h => hab (Lock.sem.inj h)]
        exact hi.free u hu a ha
  · by_cases hut : u = t
    · subst hut
      simp only [Function.update_self]
      cases l with
      | schedLock => exact hnodup
      | sem b => exact (List.nodup_cons.1 hnodup).2
    · simpa only [Function.update_of_ne hut] using hi.nodup u

theorem Inv.release {l : Lock σ} {rest : List (Action σ)} (hi : Inv s) (htodo : s.todo t = release l :: rest) :
    Inv { s with holder := Function.update s.holder l none, todo := Function.update s.todo t rest } := by
  have hok := hi.each t
  have hnodup := hi.nodup t
  have hown := hi.free t
  rw [htodo] at hok hnodup hown
  obtain ⟨hl, hok⟩ := hok
  refine ⟨fun u => ?_, fun u hu a ha => ?_, fun u => ?_⟩
  · by_cases hut : u = t
    · subst hut
      simp only [Function.update_self]
      refine hok.congr fun x => ?_
      by_cases hx : x = l
      · subst hx
        simp
      · simp [hx]
    · simp only [Function.update_of_ne hut]
      refine (hi.each u).congr fun x => ?_
      by_cases hx : x = l
      · subst hx
        simp [hl, Ne.symm hut]
      · simp [hx]
  · simp only at hu ha ⊢
    have hsched : l ≠ schedLock := by
      rintro rfl
      rw [Function.update_self] at hu
      exact nomatch hu
    rw [Function.update_of_ne hsched.symm] at hu
    have hfree : s.holder (sem a) = none := by
      by_cases hut : u = t
      · subst hut
        rw [Function.update_self] at ha
        cases l with
        | schedLock => exact absurd rfl hsched
        | sem b => exact hown hu a ha
      · rw [Function.update_of_ne hut] at ha
        exact hi.free u hu a ha
    by_cases ha : sem a = l
    · rw [ha, Function.update_self]
    · rw [Function.update_of_ne ha, hfree]
  · by_cases hut : u = t
    · subst hut
      simp only [Function.update_self]
      cases l with
      | schedLock => exact hnodup
      | sem b => exact hnodup
    · simpa only [Function.update_of_ne hut] using hi.nodup u

theorem Inv.step (hi : Inv s) (hc : Ordered s op) (h : step s op = some s') : Inv s' := by
  cases op with
  | call t c =>
    obtain ⟨⟨htodo, hpoint⟩, h⟩ := Option.ite_none_right_eq_some.1 h
    obtain rfl := Option.some.inj h
    have hok := hi.each t
    rw [htodo, hpoint] at hok
    have hnone : ∀ l, ¬s.holder l = some t := fun l hl => nomatch (hok.1 l).1 hl
    have hsorted : ∀ sems, c = .semPoll sems → sems.reduceOption.Pairwise (· < ·) := by
      rintro sems rfl
      exact hc
    have hstart : (acquired c.start.1).Nodup := by
      cases c with
      | semPoll sems =>
        rw [Call.start, acquired_acquireAll]
        exact Point.Sorted.nodup hc
      | _ => simp [Call.start, acquired]
    exact hi.goOn ((ok_start hsorted).congr fun l => (iff_false_intro (hnone l)).symm)
      (fun hl => absurd hl (hnone _)) hstart
  | choose t way =>
    obtain ⟨htodo, h⟩ := Option.ite_none_right_eq_some.1 h
    obtain ⟨w, hw, rfl⟩ := Option.map_eq_some_iff.1 h
    have hmem := List.mem_of_getElem? hw
    have hok := hi.each t
    rw [htodo] at hok
    obtain ⟨hheld, hsorted⟩ := hok
    exact hi.goOn ((ok_ways hsorted w hmem).congr fun l => (hheld l).symm)
      (fun hl => underSched_ways ((hheld _).1 hl) w hmem) (acquired_ways hsorted w hmem)
  | run t =>
    simp only [SemaphoreLocks.step, State.run] at h
    split at h
    · exact nomatch h
    · next l rest htodo =>
      obtain ⟨hl, h⟩ := Option.ite_none_right_eq_some.1 h
      exact Option.some.inj h ▸ hi.acquire hc htodo hl
    · next l rest htodo => exact Option.some.inj h ▸ hi.release htodo
    · next rest htodo =>
      obtain rfl := Option.some.inj h
      have hok := hi.each t
      have hnodup := hi.nodup t
      rw [htodo] at hok hnodup
      have hgo : Inv (s.goOn t (rest, s.point t)) :=
        hi.goOn hok.2 (fun hl => absurd hl (hok.1 _)) hnodup
      simpa only [State.goOn, Function.update_eq_self] using hgo

/-- No thread takes a lock that it has and no cycle of threads wait for each other, in every run in which
the calls of `semPoll` name their semaphores in one order and find the locks free that they take under
`schedLock`. -/
theorem safe_of_run (h : (locks σ ι).ReachesBy Ordered s) : Safe s := by
  refine (h.invariant (I := Inv) ?_ fun s op s' hi hc hstep => hi.step hc hstep).safe
  rintro s rfl
  exact inv_initial

end Runs

/-- Two calls of `semPoll` have a semaphore in common; the first one sleeps, is signalled, and the other one
waits for it. -/
theorem safe_of_polls : ∃ s : State ℕ (Fin 3), (locks ℕ (Fin 3)).ReachesBy Ordered s ∧
    Waits s 2 0 ∧ Safe s := by
  have hrun : (System.execBy Ordered step (initial ℕ (Fin 3)) [.call 0 (.semPoll [some 1, none, some 7]),
      .run 0, .run 0, .choose 0 1, .run 0, .choose 0 1, .run 0, .run 0, .run 0, .run 0,
      .call 1 (.semSignal2 7), .run 1, .choose 1 1, .run 1, .run 1, .run 1, .run 0, .run 0, .run 0,
      .call 2 (.semPoll [some 4, some 7]), .run 2]).any
      (fun s => decide (s.todo 2 = [acquire (sem 7)] ∧ s.holder (sem 7) = some 0)) = true := by decide
  obtain ⟨s, hs, hstate⟩ := (Option.any_eq_true ..).1 hrun
  have hreach : (locks ℕ (Fin 3)).ReachesBy Ordered s :=
    System.ReachesBy.execBy (fun _ _ _ h => h) (.init rfl) hs
  obtain ⟨htodo, hheld⟩ := of_decide_eq_true hstate
  exact ⟨s, hreach, ⟨_, ⟨_, htodo⟩, hheld⟩, safe_of_run hreach⟩

/-! ## Runs that end in a deadlock -/

section Deadlock

/-- A run of two threads. -/
def exec (ops : List (Op ℕ (Fin 2))) : Option (State ℕ (Fin 2)) := ops.foldlM step (initial ℕ (Fin 2))

theorem reachable_exec {ops : List (Op ℕ (Fin 2))} {s : State ℕ (Fin 2)} (h : exec ops = some s) :
    (locks ℕ (Fin 2)).Reachable s :=
  System.ReachesBy.foldlM (fun _ _ _ hstep => ⟨trivial, hstep⟩) (.init rfl) h

/-- `semPoll` with the same semaphore twice. -/
theorem poll_twice : ∃ s : State ℕ (Fin 2), (locks ℕ (Fin 2)).Reachable s ∧
    (Tries s 0 (sem 7) ∧ s.holder (sem 7) = some 0) ∧ ¬Safe s := by
  have hrun : (exec [.call 0 (.semPoll [some 7, some 7]), .run 0]).any
      (fun s => decide (s.todo 0 = [acquire (sem 7)] ∧ s.holder (sem 7) = some 0)) = true := by decide
  obtain ⟨s, hs, hstate⟩ := (Option.any_eq_true ..).1 hrun
  obtain ⟨htodo, hheld⟩ := of_decide_eq_true hstate
  exact ⟨s, reachable_exec hs, ⟨⟨_, htodo⟩, hheld⟩, fun hsafe => hsafe.other 0 _ ⟨_, htodo⟩ hheld⟩

/-- `semPoll` wakes up and takes `schedLock` while `semSignal2` has the lock of the semaphore. -/
theorem poll_against_signal : ∃ s : State ℕ (Fin 2), (locks ℕ (Fin 2)).Reachable s ∧
    Waits s 0 1 ∧ Waits s 1 0 ∧ ¬Safe s := by
  have hrun : (exec [.call 0 (.semPoll [some 7]), .run 0, .choose 0 1, .run 0, .choose 0 1, .run 0, .run 0,
      .run 0, .call 1 (.semSignal2 7), .run 1, .choose 1 1, .run 0]).any
      (fun s => decide ((s.todo 0 = [acquire (sem 7)] ∧ s.holder (sem 7) = some 1) ∧
        s.todo 1 = [acquire schedLock, release schedLock, release (sem 7)] ∧
          s.holder schedLock = some 0)) = true := by decide
  obtain ⟨s, hs, hstate⟩ := (Option.any_eq_true ..).1 hrun
  obtain ⟨⟨htodo, hheld⟩, htodo', hheld'⟩ := of_decide_eq_true hstate
  have h01 : Waits s 0 1 := ⟨_, ⟨_, htodo⟩, hheld⟩
  have h10 : Waits s 1 0 := ⟨_, ⟨_, htodo'⟩, hheld'⟩
  exact ⟨s, reachable_exec hs, h01, h10, fun hsafe => hsafe.no_cycle 0 (.tail (.single h01) h10)⟩

end Deadlock

end Glidix.Thread.SemaphoreLocks
