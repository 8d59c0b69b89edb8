import Mathlib.Algebra.Order.Ring.Int
import Mathlib.Data.Finset.Card
import Glidix.Lib.Runs

/-!
# Semaphores of the C library

`sem_wait` and `sem_post` change one word by compare-and-swap: it is the count, or -1 when somebody may be
asleep.  Units are neither lost nor made up, and nobody is left asleep, as long as no `sem_post` counts up
from -2, which is 2^64 - 2 without its sign, to the mark.
-/

namespace Glidix.Libc.Semaphore

/-- A value in a word of type `int64_t`. -/
def int64 (v : ℤ) : ℤ := (v + 2 ^ 63) % 2 ^ 64 - 2 ^ 63

/-! ## The code -/

/-- Where a thread is; `value` is what it has read from the word. -/
inductive Pc where
  | idle
  | waitRead
  | waitRun (value : ℤ)
  /-- `sem_wait` has set the mark. -/
  | waitBlock
  | asleep
  | postRead
  | postRun (value : ℤ)
  /-- `sem_post` has taken the mark away. -/
  | postUnblock
  deriving DecidableEq

/-- A semaphore with its threads, and the numbers of calls of `sem_post`, of units that they have added,
and of calls of `sem_wait` that returned 0. -/
structure Sem (ι : Type*) where
  value : ℤ
  pc : ι → Pc
  begun : ℕ
  posted : ℕ
  taken : ℕ

variable {ι : Type*} [DecidableEq ι]

namespace Sem

def set (s : Sem ι) (t : ι) (p : Pc) : Sem ι := { s with pc := Function.update s.pc t p }

/-- `block_on` with the mark as the expected value. -/
def block (s : Sem ι) (t : ι) : Sem ι :=
  if s.value = -1 then s.set t .asleep else s.set t .waitRead

/-- `unblock`; it wakes all that are asleep. -/
def unblock (s : Sem ι) (t : ι) : Sem ι :=
  { s with pc := fun u => if u = t then .idle else if s.pc u = .asleep then .waitRead else s.pc u }

/-- `sem_wait` behind the read of the word. -/
def waitRun (s : Sem ι) (t : ι) (value : ℤ) : Sem ι :=
  if value = -1 then s.block t
  else if value = 0 then
    if s.value = 0 then { s with value := -1 }.set t .waitBlock else s.set t .waitRead
  else if s.value = value then
    { s with value := int64 (value - 1), taken := s.taken + 1 }.set t .idle
  else s.set t .waitRead

/-- `sem_post` behind the read of the word. -/
def postRun (s : Sem ι) (t : ι) (value : ℤ) : Sem ι :=
  if s.value = value then
    if value = -1 then { s with value := 1, posted := s.posted + 1 }.set t .postUnblock
    else { s with value := int64 (value + 1), posted := s.posted + 1 }.set t .idle
  else s.set t .postRead

/-- The next operation of a thread on the word. -/
def run (s : Sem ι) (t : ι) : Option (Sem ι) :=
  match s.pc t with
  | .idle => none
  | .waitRead => some (s.set t (.waitRun s.value))
  | .waitRun value => some (s.waitRun t value)
  | .waitBlock => some (s.block t)
  | .asleep => none
  | .postRead => some (s.set t (.postRun s.value))
  | .postRun value => some (s.postRun t value)
  | .postUnblock => some (s.unblock t)

end Sem

/-! ## Runs -/

inductive Op (ι : Type*) where
  | sem_wait (t : ι)
  | sem_post (t : ι)
  | run (t : ι)
  /-- The wait of a thread is interrupted and `block_on` returns 0. -/
  | wake (t : ι)
  /-- The wait is interrupted, or cannot begin, and `block_on` returns an error. -/
  | fail (t : ι)
  deriving DecidableEq

def step (s : Sem ι) : Op ι → Option (Sem ι)
  | .sem_wait t => if s.pc t = .idle then some (s.set t .waitRead) else none
  | .sem_post t =>
    if s.pc t = .idle then some ({ s with begun := s.begun + 1 }.set t .postRead) else none
  | .run t => s.run t
  | .wake t => if s.pc t = .asleep then some (s.set t .waitRead) else none
  | .fail t =>
    if s.pc t = .asleep ∨ s.pc t = .waitBlock ∨ s.pc t = .waitRun (-1) then some (s.set t .idle) else none

/-- `sem_init`. -/
def sem_init (ι : Type*) (value : ℕ) : Sem ι := ⟨value, fun _ => .idle, 0, 0, 0⟩

/-- One semaphore whose initial value is an `unsigned`. -/
def semaphore (ι : Type*) [DecidableEq ι] (value : ℕ) : System (Sem ι) (Op ι) where
  init s := value < 2 ^ 32 ∧ s = sem_init ι value
  step s op s' := step s op = some s'

/-! ## What is to hold -/

/-- The units that the word stands for; the mark stands for none. -/
def units (v : ℤ) : ℤ := if v = -1 then 0 else v % 2 ^ 64

/-- In `sem_post`. -/
def Pc.Posting (p : Pc) : Prop := p = .postRead ∨ (∃ value, p = .postRun value) ∨ p = .postUnblock

structure Safe (value : ℕ) (s : Sem ι) : Prop where
  /-- No more calls of `sem_wait` return 0 than there are units. -/
  bounded : s.taken ≤ value + s.begun
  posted_le : s.posted ≤ s.begun
  /-- No unit is lost. -/
  kept : units s.value = value + s.posted - s.taken
  settled : (∀ t, ¬(s.pc t).Posting) → s.posted = s.begun
  awake : (∀ t, ¬(s.pc t).Posting) → ∀ t, s.pc t = .asleep → ¬0 < s.value

/-- No `sem_post` counts up from -2. -/
def NotFull (s : Sem ι) : Op ι → Prop
  | .run t => s.pc t = .postRun (-2) → s.value ≠ -2
  | _ => True

instance (s : Sem ι) : DecidablePred (NotFull s)
  | .run t => inferInstanceAs (Decidable (s.pc t = .postRun (-2) → s.value ≠ -2))
  | .sem_wait _ | .sem_post _ | .wake _ | .fail _ => isTrue trivial

/-! ## What a step can do -/

/-- In `sem_post`, before its effect on the word. -/
def Pc.Before : Pc → Prop
  | .postRead | .postRun _ => True
  | _ => False

@[simp] theorem Sem.set_pc (s : Sem ι) (t : ι) (p : Pc) : (s.set t p).pc = Function.update s.pc t p := rfl
@[simp] theorem Sem.set_value (s : Sem ι) (t : ι) (p : Pc) : (s.set t p).value = s.value := rfl
@[simp] theorem Sem.set_begun (s : Sem ι) (t : ι) (p : Pc) : (s.set t p).begun = s.begun := rfl
@[simp] theorem Sem.set_posted (s : Sem ι) (t : ι) (p : Pc) : (s.set t p).posted = s.posted := rfl
@[simp] theorem Sem.set_taken (s : Sem ι) (t : ι) (p : Pc) : (s.set t p).taken = s.taken := rfl

/-- The effects of the steps. -/
inductive Move (s : Sem ι) : Op ι → Sem ι → Prop
  /-- The word stays as it is; a thread goes to sleep only if the mark is set. -/
  | quiet {op : Op ι} (t : ι) (p : Pc) (hsleep : p = .asleep → s.value = -1) (hun : s.pc t ≠ .postUnblock)
      (hbefore : p.Before ↔ (s.pc t).Before) : Move s op (s.set t p)
  | begin (t : ι) (hpc : s.pc t = .idle) : Move s (.sem_post t) ({ s with begun := s.begun + 1 }.set t .postRead)
  | mark (t : ι) (hpc : s.pc t = .waitRun 0) (hv : s.value = 0) :
      Move s (.run t) ({ s with value := -1 }.set t .waitBlock)
  | take (t : ι) (hpc : s.pc t = .waitRun s.value) (hmark : s.value ≠ -1) (hzero : s.value ≠ 0) :
      Move s (.run t) ({ s with value := int64 (s.value - 1), taken := s.taken + 1 }.set t .idle)
  | unmark (t : ι) (hpc : s.pc t = .postRun (-1)) (hv : s.value = -1) :
      Move s (.run t) ({ s with value := 1, posted := s.posted + 1 }.set t .postUnblock)
  | add (t : ι) (hpc : s.pc t = .postRun s.value) (hmark : s.value ≠ -1) :
      Move s (.run t) ({ s with value := int64 (s.value + 1), posted := s.posted + 1 }.set t .idle)
  | unblock (t : ι) (hpc : s.pc t = .postUnblock) : Move s (.run t) (s.unblock t)

variable {s s' : Sem ι} {t : ι} {op : Op ι} {value : ℤ}

theorem move_block (hun : s.pc t ≠ .postUnblock) (hbefore : ¬(s.pc t).Before) : Move s op (s.block t) := by
  unfold Sem.block
  split
  · next hv => exact .quiet t _ (fun _ => hv) hun (iff_of_false id hbefore)
  · exact .quiet t _ nofun hun (iff_of_false id hbefore)

theorem move_waitRun (hpc : s.pc t = .waitRun value) : Move s (.run t) (s.waitRun t value) := by
  have hun : s.pc t ≠ .postUnblock := by rw [hpc]; nofun
  have hbefore : ¬(s.pc t).Before := by rw [hpc]; exact id
  unfold Sem.waitRun
  split_ifs with hmark hzero hv hv
  · exact move_block hun hbefore
  · exact .mark t (hzero ▸ hpc) hv
  · exact .quiet t _ nofun hun (iff_of_false id hbefore)
  · subst hv
    exact .take t hpc hmark hzero
  · exact .quiet t _ nofun hun (iff_of_false id hbefore)

theorem move_postRun (hpc : s.pc t = .postRun value) : Move s (.run t) (s.postRun t value) := by
  have hun : s.pc t ≠ .postUnblock := by rw [hpc]; nofun
  have hbefore : (s.pc t).Before := by rw [hpc]; trivial
  unfold Sem.postRun
  split_ifs with hv hmark
  · exact .unmark t (hmark ▸ hpc) (hv.trans hmark)
  · subst hv
    exact .add t hpc hmark
  · exact .quiet t _ nofun hun (iff_of_true trivial hbefore)

theorem move_run (h : s.run t = some s') : Move s (.run t) s' := by
  unfold Sem.run at h
  split at h
  · exact nomatch h
  · next hpc =>
    obtain rfl := Option.some.inj h
    exact .quiet t _ nofun (by rw [hpc]; nofun) (by rw [hpc]; exact Iff.rfl)
  · next hpc => exact Option.some.inj h ▸ move_waitRun hpc
  · next hpc => exact Option.some.inj h ▸ move_block (by rw [hpc]; nofun) (by rw [hpc]; exact id)
  · exact nomatch h
  · next hpc =>
    obtain rfl := Option.some.inj h
    exact .quiet t _ nofun (by rw [hpc]; nofun) (by rw [hpc]; exact Iff.rfl)
  · next hpc => exact Option.some.inj h ▸ move_postRun hpc
  · next hpc => exact Option.some.inj h ▸ .unblock t hpc

theorem move_of_step (h : step s op = some s') : Move s op s' := by
  cases op with
  | sem_wait t =>
    obtain ⟨hpc, h⟩ := Option.ite_none_right_eq_some.1 h
    obtain rfl := Option.some.inj h
    exact .quiet t _ nofun (by rw [hpc]; nofun) (by rw [hpc]; exact Iff.rfl)
  | sem_post t =>
    obtain ⟨hpc, h⟩ := Option.ite_none_right_eq_some.1 h
    obtain rfl := Option.some.inj h
    exact .begin t hpc
  | run t => exact move_run h
  | wake t =>
    obtain ⟨hpc, h⟩ := Option.ite_none_right_eq_some.1 h
    obtain rfl := Option.some.inj h
    exact .quiet t _ nofun (by rw [hpc]; nofun) (by rw [hpc]; exact Iff.rfl)
  | fail t =>
    obtain ⟨hpc, h⟩ := Option.ite_none_right_eq_some.1 h
    obtain rfl := Option.some.inj h
    rcases hpc with hpc | hpc | hpc
    · exact .quiet t _ nofun (by rw [hpc]; nofun) (by rw [hpc]; exact Iff.rfl)
    · exact .quiet t _ nofun (by rw [hpc]; nofun) (by rw [hpc]; exact Iff.rfl)
    · exact .quiet t _ nofun (by rw [hpc]; nofun) (by rw [hpc]; exact Iff.rfl)

/-! ## The units -/

/-- What a unit more or less is for the word. -/
structure Kept (n : ℕ) (s : Sem ι) : Prop where
  lower : -2 ^ 63 ≤ s.value
  upper : s.value < 2 ^ 63
  kept : units s.value + s.taken = n + s.posted

theorem int64_range (v : ℤ) : -2 ^ 63 ≤ int64 v ∧ int64 v < 2 ^ 63 := by
  unfold int64
  omega

theorem units_nonneg (v : ℤ) : 0 ≤ units v := by
  unfold units
  split
  · exact le_rfl
  · exact Int.emod_nonneg _ (by decide)

theorem units_pred {v : ℤ} (hl : -2 ^ 63 ≤ v) (hu : v < 2 ^ 63) (hmark : v ≠ -1) (hzero : v ≠ 0) :
    units (int64 (v - 1)) + 1 = units v := by
  unfold units int64
  rw [if_neg hmark, if_neg (by omega)]
  omega

theorem units_succ {v : ℤ} (hl : -2 ^ 63 ≤ v) (hu : v < 2 ^ 63) (hmark : v ≠ -1) (hfull : v ≠ -2) :
    units (int64 (v + 1)) = units v + 1 := by
  unfold units int64
  rw [if_neg hmark, if_neg (by omega)]
  omega

variable {n : ℕ}

theorem Kept.move (hi : Kept n s) (hc : NotFull s op) (h : Move s op s') : Kept n s' := by
  obtain ⟨hl, hu, hk⟩ := hi
  cases h with
  | quiet t p => exact ⟨hl, hu, hk⟩
  | begin t hpc => exact ⟨hl, hu, hk⟩
  | mark t hpc hv =>
    rw [hv] at hk
    exact ⟨by simp, by simp, hk⟩
  | take t hpc hmark hzero =>
    refine ⟨(int64_range _).1, (int64_range _).2, ?_⟩
    have hone := units_pred hl hu hmark hzero
    simp only [Sem.set_value, Sem.set_taken, Sem.set_posted]
    push_cast
    omega
  | unmark t hpc hv =>
    have hone : units 1 = 1 := by decide
    have hnone : units (-1) = 0 := by decide
    rw [hv, hnone] at hk
    refine ⟨by simp, by simp, ?_⟩
    simp only [Sem.set_value, Sem.set_taken, Sem.set_posted, hone]
    push_cast
    omega
  | add t hpc hmark =>
    have hfull : s.value ≠ -2 := fun hv => hc (hv ▸ hpc) hv
    refine ⟨(int64_range _).1, (int64_range _).2, ?_⟩
    have hone := units_succ hl hu hmark hfull
    simp only [Sem.set_value, Sem.set_taken, Sem.set_posted]
    push_cast
    omega
  | unblock t hpc => exact ⟨hl, hu, hk⟩

/-! ## The sleeping threads -/

/-- A thread is asleep only under the mark, or if a `sem_post` is about to wake it. -/
def Awake (s : Sem ι) : Prop :=
  ∀ t, s.pc t = .asleep → s.value = -1 ∨ ∃ u, s.pc u = .postUnblock

/-- A thread that is not about to wake the others goes on, and does not fall asleep. -/
theorem Awake.update (hi : Awake s) (p : Pc) (hpc : s'.pc = Function.update s.pc t p)
    (hun : s.pc t ≠ .postUnblock) (hsleep : p = .asleep → s'.value = -1) (hv : s.value = -1 → s'.value = -1) :
    Awake s' := by
  intro u hu
  rw [hpc] at hu ⊢
  by_cases hut : u = t
  · subst hut
    rw [Function.update_self] at hu
    exact .inl (hsleep hu)
  · rw [Function.update_of_ne hut] at hu
    apply (hi u hu).imp hv
    rintro ⟨w, hw⟩
    have hwt : w ≠ t := by
      rintro rfl
      exact hun hw
    exact ⟨w, (Function.update_of_ne hwt ..).trans hw⟩

theorem Awake.move (hi : Awake s) (h : Move s op s') : Awake s' := by
  cases h with
  | quiet t p hsleep hun => exact hi.update p rfl hun hsleep id
  | begin t hpc => exact hi.update .postRead rfl (by rw [hpc]; nofun) nofun id
  | mark t hpc => exact hi.update .waitBlock rfl (by rw [hpc]; nofun) (fun _ => rfl) fun _ => rfl
  | take t hpc hmark =>
    exact hi.update .idle rfl (by rw [hpc]; nofun) nofun fun hv => absurd hv hmark
  | unmark t hpc => exact fun _ _ => .inr ⟨t, Function.update_self ..⟩
  | add t hpc hmark =>
    exact hi.update .idle rfl (by rw [hpc]; nofun) nofun fun hv => absurd hv hmark
  | unblock t hpc =>
    intro u hu
    simp only [Sem.unblock] at hu
    split_ifs at hu with hut hsleep
    exact absurd hu hsleep

/-! ## The calls of `sem_post` -/

/-- The calls of `sem_post` that have begun and not yet changed the word. -/
def Counted (s : Sem ι) : Prop :=
  ∃ A : Finset ι, (∀ u, u ∈ A ↔ (s.pc u).Before) ∧ s.posted + A.card = s.begun

section Counted

variable {A : Finset ι} {pc : ι → Pc} {p : Pc}

theorem before_update (hA : ∀ u, u ∈ A ↔ (pc u).Before) (hp : p.Before ↔ (pc t).Before) (u : ι) :
    u ∈ A ↔ (Function.update pc t p u).Before := by
  by_cases hut : u = t
  · subst hut
    rw [Function.update_self, hA, hp]
  · rw [Function.update_of_ne hut, hA]

theorem before_insert (hA : ∀ u, u ∈ A ↔ (pc u).Before) (hp : p.Before) (u : ι) :
    u ∈ insert t A ↔ (Function.update pc t p u).Before := by
  by_cases hut : u = t
  · subst hut
    rw [Function.update_self]
    exact iff_of_true (Finset.mem_insert_self ..) hp
  · rw [Function.update_of_ne hut, Finset.mem_insert, or_iff_right hut, hA]

theorem before_erase (hA : ∀ u, u ∈ A ↔ (pc u).Before) (hp : ¬p.Before) (u : ι) :
    u ∈ A.erase t ↔ (Function.update pc t p u).Before := by
  by_cases hut : u = t
  · subst hut
    rw [Function.update_self]
    exact iff_of_false (Finset.notMem_erase u A) hp
  · rw [Function.update_of_ne hut, Finset.mem_erase, and_iff_right hut, hA]

end Counted

theorem Counted.move (hi : Counted s) (h : Move s op s') : Counted s' := by
  obtain ⟨A, hA, hcard⟩ := hi
  cases h with
  | quiet t p _ _ hbefore => exact ⟨A, before_update hA hbefore, hcard⟩
  | begin t hpc =>
    have hnot : t ∉ A := by
      rw [hA, hpc]
      exact id
    refine ⟨insert t A, before_insert hA trivial, ?_⟩
    rw [Finset.card_insert_of_notMem hnot, ← Nat.add_assoc]
    exact congrArg Nat.succ hcard
  | mark t hpc => exact ⟨A, before_update hA (by rw [hpc]; exact Iff.rfl), hcard⟩
  | take t hpc => exact ⟨A, before_update hA (by rw [hpc]; exact Iff.rfl), hcard⟩
  | unmark t hpc =>
    have hmem : t ∈ A := by
      rw [hA, hpc]
      trivial
    refine ⟨A.erase t, before_erase hA id, ?_⟩
    have hpos := Finset.card_pos.2 ⟨t, hmem⟩
    rw [Finset.card_erase_of_mem hmem]
    simp only [Sem.set_posted, Sem.set_begun]
    omega
  | add t hpc =>
    have hmem : t ∈ A := by
      rw [hA, hpc]
      trivial
    refine ⟨A.erase t, before_erase hA id, ?_⟩
    have hpos := Finset.card_pos.2 ⟨t, hmem⟩
    rw [Finset.card_erase_of_mem hmem]
    simp only [Sem.set_posted, Sem.set_begun]
    omega
  | unblock t hpc =>
    refine ⟨A, fun u => ?_, hcard⟩
    simp only [Sem.unblock]
    split_ifs with hut hsleep
    · subst hut
      rw [hA, hpc]
      exact Iff.rfl
    · rw [hA, hsleep]
      exact Iff.rfl
    · exact hA u

/-! ## Every run -/

structure Inv (n : ℕ) (s : Sem ι) : Prop where
  kept : Kept n s
  awake : Awake s
  counted : Counted s

theorem inv_init {κ : Type*} (h : n < 2 ^ 32) : Inv n (sem_init κ n) := by
  refine ⟨⟨?_, ?_, ?_⟩, nofun, ∅, ?_, rfl⟩
  · simp only [sem_init]
    omega
  · simp only [sem_init]
    omega
  · simp only [sem_init, units]
    omega
  · exact fun u => iff_of_false (Finset.notMem_empty u) id

theorem Pc.Before.posting {p : Pc} (h : p.Before) : p.Posting := by
  cases p with
  | postRead => exact .inl rfl
  | postRun value => exact .inr (.inl ⟨value, rfl⟩)
  | _ => exact h.elim

theorem Inv.safe {κ : Type*} {s : Sem κ} (hi : Inv n s) : Safe n s := by
  obtain ⟨⟨-, -, hkept⟩, hawake, A, hA, hcard⟩ := hi
  have hunits := units_nonneg s.value
  refine ⟨by omega, by omega, by omega, fun hnone => ?_, fun hnone t ht hpos => ?_⟩
  · have hempty : A = ∅ := Finset.eq_empty_of_forall_notMem fun u hu => hnone u ((hA u).1 hu).posting
    rw [hempty, Finset.card_empty] at hcard
    exact hcard
  · rcases hawake t ht with hv | ⟨u, hu⟩
    · omega
    · exact hnone u (.inr (.inr hu))

/-- Units are neither lost nor made up and nobody is left asleep, in every run in which no `sem_post` counts
up from -2. -/
theorem semaphoreSafe_of_run (h : (semaphore ι n).ReachesBy NotFull s) : Safe n s := by
  refine (h.invariant (I := Inv n) ?_ fun s op s' hi hc hstep => ?_).safe
  · rintro s ⟨hn, rfl⟩
    exact inv_init hn
  · have hmove := move_of_step hstep
    exact ⟨hi.kept.move hc hmove, hi.awake.move hmove, hi.counted.move hmove⟩

/-- One thread sleeps until the other one posts. -/
def meeting : List (Op (Fin 2)) :=
  [.sem_wait 0, .run 0, .run 0, .run 0, .sem_post 1, .run 1, .run 1, .run 1, .run 0, .run 0]

theorem safe_of_meeting : ∃ s : Sem (Fin 2), (s.begun = 1 ∧ s.taken = 1) ∧ Safe 0 s := by
  have hrun : (System.execBy NotFull step (sem_init (Fin 2) 0) meeting).any
      (fun s => decide (s.begun = 1 ∧ s.taken = 1)) = true := by decide
  obtain ⟨s, hs, hcount⟩ := (Option.any_eq_true ..).1 hrun
  have hreach : (semaphore (Fin 2) 0).ReachesBy NotFull s :=
    System.ReachesBy.execBy (fun _ _ _ h => h) (.init ⟨by decide, rfl⟩) hs
  exact ⟨s, of_decide_eq_true hcount, semaphoreSafe_of_run hreach⟩

/-! ## The end of the count -/

/-- A semaphore of one thread after calls of `sem_post`. -/
def afterPosts (k : ℕ) : Sem Unit := ⟨int64 k, fun _ => .idle, k, k, 0⟩

theorem post_afterPosts {k : ℕ} (h : int64 k ≠ -1) :
    [Op.sem_post (), .run (), .run ()].foldlM step (afterPosts k) = some (afterPosts (k + 1)) := by
  have hset : ∀ p q : Pc, Function.update (fun _ : Unit => p) () q = fun _ => q := fun p q => by
    funext u
    exact Function.update_self ..
  have hnext : int64 (int64 k + 1) = int64 ((k + 1 : ℕ) : ℤ) := by
    unfold int64
    push_cast
    omega
  simp [step, afterPosts, Sem.set, Sem.run, Sem.postRun, hset, h, hnext]

theorem reachable_afterPosts (k : ℕ) (h : k < 2 ^ 64) : (semaphore Unit 0).Reachable (afterPosts k) := by
  induction k with
  | zero => exact .init ⟨by decide, rfl⟩
  | succ k ih =>
    have hmark : int64 k ≠ -1 := by
      unfold int64
      omega
    exact (ih (by omega)).foldlM (fun _ _ _ hstep => ⟨trivial, hstep⟩) (post_afterPosts hmark)

/-- After 2^64 - 1 calls of `sem_post` the count is the mark, and all units are lost. -/
theorem units_lost : ∃ s : Sem Unit, (semaphore Unit 0).Reachable s ∧ (∀ t, s.pc t = .idle) ∧
    s.posted = 2 ^ 64 - 1 ∧ s.taken = 0 ∧ units s.value = 0 ∧ ¬Safe 0 s := by
  have hvalue : int64 ((2 ^ 64 - 1 : ℕ) : ℤ) = -1 := by decide
  have hunits : units (int64 ((2 ^ 64 - 1 : ℕ) : ℤ)) = 0 := by rw [hvalue]; rfl
  refine ⟨afterPosts (2 ^ 64 - 1), reachable_afterPosts _ (by omega), fun _ => rfl, rfl, rfl, hunits, ?_⟩
  intro hsafe
  have hkept := hsafe.kept
  simp only [afterPosts, hunits] at hkept
  omega

end Glidix.Libc.Semaphore
