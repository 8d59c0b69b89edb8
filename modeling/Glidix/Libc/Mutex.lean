import Mathlib.Algebra.Order.Ring.Int
import Mathlib.Data.List.Nodup
import Mathlib.Data.List.Perm.Subperm
import Mathlib.Logic.Function.Basic
import Glidix.Lib.Runs

/-!
# Mutexes of the C library

A thread takes a ticket and waits until it is served.  The threads with a ticket are a queue, and the head
of the queue has the mutex.  This needs that no wait fails, since nobody serves the ticket of a thread that
has given up, and that no `pthread_mutex_trylock` takes a free mutex, since it does not make the thread the
owner.
-/

namespace Glidix.Libc.Pthread

/-! ## The code -/

/-- The id of a thread, an `int` without its sign; 0 is not an id. -/
abbrev Tid := { id : ℕ // 0 < id ∧ id < 2 ^ 32 }

inductive MutexType where
  | normal
  | errorcheck
  | recursive
  deriving DecidableEq

/-- Where a thread is, with its ticket and with what it has read. -/
inductive Pc where
  | idle
  | lockOwner
  /-- In `__count++`, of `pthread_mutex_lock` and of `pthread_mutex_trylock`. -/
  | nestRead
  | nestWrite (count : ℕ)
  | lockTicket
  | lockRead (ticket : ℕ)
  | lockBlock (ticket cakes : ℕ)
  | asleep (ticket : ℕ)
  | lockOwn
  | lockOne
  | tryOwner
  | tryTickets
  | tryCakes (tickets : ℕ)
  | tryCas (tickets : ℕ)
  | unlockOwner
  | unlockCount
  | unlockClear
  | unlockServe
  | unlockCakes
  | unlockTickets (cakes : ℕ)
  | unlockWake
  deriving DecidableEq

/-- A mutex with its threads; `held` counts the calls of each that returned 0, less those that have been
undone by `pthread_mutex_unlock`. -/
structure Mutex where
  tickets : ℕ
  cakes : ℕ
  type : MutexType
  owner : Option Tid
  count : ℕ
  pc : Tid → Pc
  held : Tid → ℕ

namespace Mutex

def set (s : Mutex) (t : Tid) (p : Pc) : Mutex := { s with pc := Function.update s.pc t p }

def setHeld (s : Mutex) (t : Tid) (n : ℕ) : Mutex := { s with held := Function.update s.held t n }

/-- `unblock`; it wakes all that are asleep. -/
def unblock (s : Mutex) : Mutex :=
  { s with pc := fun u => match s.pc u with
      | .asleep ticket => .lockRead ticket
      | p => p }

/-- The next operation of a thread on the mutex. -/
def run (s : Mutex) (t : Tid) : Option Mutex :=
  match s.pc t with
  | .idle => none
  | .lockOwner =>
    if s.owner = some t then
      if s.type = .recursive then some (s.set t .nestRead) else some (s.set t .idle)
    else some (s.set t .lockTicket)
  | .nestRead => some (s.set t (.nestWrite s.count))
  | .nestWrite count =>
    some (({ s with count := (count + 1) % 2 ^ 32 }.setHeld t (s.held t + 1)).set t .idle)
  | .lockTicket =>
    some ({ s with tickets := (s.tickets + 1) % 2 ^ 64 }.set t (.lockRead s.tickets))
  | .lockRead ticket =>
    if s.cakes = ticket then some (s.set t .lockOwn) else some (s.set t (.lockBlock ticket s.cakes))
  | .lockBlock ticket cakes =>
    if s.cakes = cakes then some (s.set t (.asleep ticket)) else some (s.set t (.lockRead ticket))
  | .asleep _ => none
  | .lockOwn => some ({ s with owner := some t }.set t .lockOne)
  | .lockOne => some (({ s with count := 1 }.setHeld t (s.held t + 1)).set t .idle)
  | .tryOwner =>
    if s.owner = some t then
      if s.type = .recursive then some (s.set t .nestRead) else some (s.set t .idle)
    else some (s.set t .tryTickets)
  | .tryTickets => some (s.set t (.tryCakes s.tickets))
  | .tryCakes tickets =>
    if tickets ≠ s.cakes then some (s.set t .idle) else some (s.set t (.tryCas tickets))
  | .tryCas tickets =>
    if s.tickets = tickets then
      some (({ s with tickets := (tickets + 1) % 2 ^ 64 }.setHeld t (s.held t + 1)).set t .idle)
    else some (s.set t .idle)
  | .unlockOwner => if s.owner ≠ some t then some (s.set t .idle) else some (s.set t .unlockCount)
  | .unlockCount =>
    let count := (s.count + (2 ^ 32 - 1)) % 2 ^ 32
    if count = 0 then some ({ s with count := count }.set t .unlockClear)
    else some (({ s with count := count }.setHeld t (s.held t - 1)).set t .idle)
  | .unlockClear => some ({ s with owner := none }.set t .unlockServe)
  | .unlockServe =>
    some (({ s with cakes := (s.cakes + 1) % 2 ^ 64 }.setHeld t (s.held t - 1)).set t .unlockCakes)
  | .unlockCakes => some (s.set t (.unlockTickets s.cakes))
  | .unlockTickets cakes =>
    if cakes ≠ s.tickets then some (s.set t .unlockWake) else some (s.set t .idle)
  | .unlockWake => some (s.unblock.set t .idle)

end Mutex

/-! ## Runs -/

inductive Op where
  | pthread_mutex_lock (t : Tid)
  | pthread_mutex_trylock (t : Tid)
  | pthread_mutex_unlock (t : Tid)
  | run (t : Tid)
  /-- The wait of a thread is interrupted and `block_on` returns 0. -/
  | wake (t : Tid)
  /-- The wait is interrupted, or cannot begin, and `block_on` returns an error. -/
  | fail (t : Tid)
  deriving DecidableEq

def Mutex.call (s : Mutex) (t : Tid) (p : Pc) : Option Mutex :=
  if s.pc t = .idle then some (s.set t p) else none

def step (s : Mutex) : Op → Option Mutex
  | .pthread_mutex_lock t => s.call t .lockOwner
  | .pthread_mutex_trylock t => s.call t .tryOwner
  | .pthread_mutex_unlock t => s.call t .unlockOwner
  | .run t => s.run t
  | .wake t =>
    match s.pc t with
    | .asleep ticket => some (s.set t (.lockRead ticket))
    | _ => none
  | .fail t =>
    match s.pc t with
    | .asleep _ | .lockBlock _ _ => some (s.set t .idle)
    | _ => none

/-- `pthread_mutex_init`. -/
def pthread_mutex_init (type : MutexType) : Mutex := ⟨0, 0, type, none, 0, fun _ => .idle, fun _ => 0⟩

def mutex (type : MutexType) : System Mutex Op where
  init s := s = pthread_mutex_init type
  step s op s' := step s op = some s'

/-! ## What is to hold -/

/-- A call of a thread, with the next operations of this thread alone. -/
def alone (s : Mutex) (op : Op) (t : Tid) (k : ℕ) : Option Mutex :=
  (op :: List.replicate k (.run t)).foldlM step s

/-- In `pthread_mutex_lock`, with a ticket. -/
def Pc.Waiting : Pc → Prop
  | .lockRead _ | .lockBlock _ _ | .asleep _ | .lockOwn | .lockOne => True
  | _ => False

/-- Behind the point in `pthread_mutex_unlock` where the last hold is given up. -/
def Pc.Releasing (p : Pc) : Prop := p = .unlockClear ∨ p = .unlockServe

structure Safe (s : Mutex) : Prop where
  exclusive : ∀ t u, 0 < s.held t → 0 < s.held u → t = u
  /-- `pthread_mutex_unlock` finds the thread as the owner, and the number of its holds. -/
  owned : ∀ t, 0 < s.held t → ¬(s.pc t).Releasing → s.owner = some t ∧ s.count = s.held t
  releases : ∀ t, 0 < s.held t → s.pc t = .idle →
    ∃ k s', alone s (.pthread_mutex_unlock t) t k = some s' ∧ s'.held t + 1 = s.held t
  equal : (∀ t, s.held t = 0) → (∀ t, ¬(s.pc t).Waiting) → s.tickets = s.cakes
  locks : (∀ t, s.held t = 0) → (∀ t, ¬(s.pc t).Waiting) → ∀ t, s.pc t = .idle →
    ∃ k s', alone s (.pthread_mutex_lock t) t k = some s' ∧ s'.held t = 1

/-- No wait fails, no `pthread_mutex_trylock` takes the mutex while it is free, and no hold is the 2^32nd. -/
def Served (s : Mutex) (op : Op) : Prop :=
  match op with
  | .fail _ => False
  | .run t => (∀ tickets, s.pc t = .tryCas tickets → s.tickets ≠ tickets) ∧
      ∀ count, s.pc t = .nestWrite count → count + 1 < 2 ^ 32
  | _ => True

/-- `Served` as a function. -/
def served (s : Mutex) : Op → Bool
  | .fail _ => false
  | .run t =>
    match s.pc t with
    | .tryCas tickets => decide (s.tickets ≠ tickets)
    | .nestWrite count => decide (count + 1 < 2 ^ 32)
    | _ => true
  | _ => true

theorem served_iff (s : Mutex) (op : Op) : served s op = true ↔ Served s op := by
  cases op with
  | run t => cases hpc : s.pc t <;> simp [served, Served, hpc]
  | _ => simp [served, Served]

instance (s : Mutex) : DecidablePred (Served s) := fun op => decidable_of_iff _ (served_iff s op)

/-! ## The queue -/

/-- The ticket of a thread that waits to be served. -/
def Pc.ticket : Pc → Option ℕ
  | .lockRead ticket | .lockBlock ticket _ | .asleep ticket => some ticket
  | _ => none

/-- Served, and not yet returned. -/
def Pc.Served (p : Pc) : Prop := p = .lockOwn ∨ p = .lockOne

/-- What `__owner` and `__count` are to a thread: its holds, or nothing. -/
def Local (owner : Option Tid) (count : ℕ) (t : Tid) (held : ℕ) : Pc → Prop
  | .idle | .lockOwner | .tryOwner | .unlockOwner | .unlockCakes | .unlockTickets _ | .unlockWake =>
    if held = 0 then owner ≠ some t else owner = some t ∧ count = held
  | .nestRead | .unlockCount => 0 < held ∧ owner = some t ∧ count = held
  | .nestWrite c => 0 < held ∧ owner = some t ∧ count = held ∧ c = count
  | .lockOne => held = 0 ∧ owner = some t
  | .unlockClear => held = 1 ∧ owner = some t
  | .unlockServe => held = 1 ∧ owner ≠ some t
  | .lockTicket | .lockRead _ | .lockBlock _ _ | .asleep _ | .lockOwn | .tryTickets | .tryCakes _ | .tryCas _ =>
    held = 0 ∧ owner ≠ some t

/-- The thread has the mutex, or it has been served. -/
def Has (s : Mutex) (t : Tid) : Prop := (s.pc t).Served ∨ 0 < s.held t

/-- The threads with a ticket, in the order of their tickets. -/
structure Queue (s : Mutex) (q : List Tid) : Prop where
  nodup : q.Nodup
  tickets : s.tickets = (s.cakes + q.length) % 2 ^ 64
  cakes : s.cakes < 2 ^ 64
  mem : ∀ t, t ∈ q ↔ (s.pc t).Waiting ∨ 0 < s.held t
  place : ∀ t ticket, (s.pc t).ticket = some ticket → ∃ i, q[i]? = some t ∧ ticket = (s.cakes + i) % 2 ^ 64
  head : ∀ t, Has s t → q.head? = some t

structure Inv (s : Mutex) : Prop where
  queue : ∃ q, Queue s q
  count : s.count < 2 ^ 32
  each : ∀ t, Local s.owner s.count t (s.held t) (s.pc t)

variable {s s' : Mutex} {q : List Tid} {t u : Tid} {p : Pc} {ticket : ℕ}

theorem Queue.length_lt (h : Queue s q) : q.length < 2 ^ 64 := by
  have hids : (q.map Subtype.val).Nodup := h.nodup.map Subtype.val_injective
  have hsub : q.map Subtype.val ⊆ List.range (2 ^ 32) := by
    intro id hid
    obtain ⟨t, -, rfl⟩ := List.mem_map.1 hid
    exact List.mem_range.2 t.2.2
  have hlen := (List.subperm_of_subset hids hsub).length_le
  rw [List.length_map, List.length_range] at hlen
  omega

/-- One thread at most has the mutex. -/
theorem Queue.has_unique (h : Queue s q) (ht : Has s t) (hu : Has s u) : t = u :=
  Option.some.inj ((h.head t ht).symm.trans (h.head u hu))

/-- A thread with the ticket that is served is the head of the queue. -/
theorem Queue.head_of_served (h : Queue s q) (hticket : (s.pc t).ticket = some s.cakes) : q.head? = some t := by
  obtain ⟨i, hi, heq⟩ := h.place t _ hticket
  have hlen := h.length_lt
  have hcakes := h.cakes
  obtain ⟨hlt, -⟩ := List.getElem?_eq_some_iff.1 hi
  obtain rfl : i = 0 := by omega
  rwa [List.head?_eq_getElem?]

/-! ## One thread goes on -/

variable {n : ℕ} {o o' : Option Tid} {c c' : ℕ}

theorem Local.has (h : Local o c u n p) (ho : o = some u) : p.Served ∨ 0 < n := by
  subst ho
  cases p <;> simp only [Local, ne_eq, not_true_eq_false, and_false] at h
  case lockOne => exact .inl (.inr rfl)
  all_goals
    refine .inr ?_
    first
    | exact h.1
    | omega
    | split at h
      · exact h.elim
      · omega

/-- The owner may change for a thread that has not got the mutex. -/
theorem Local.other (h : Local o c u n p) (hnot : ¬(p.Served ∨ 0 < n)) (ho : o' ≠ some u) : Local o' c' u n p := by
  obtain ⟨hserved, hheld⟩ := not_or.1 hnot
  obtain rfl : n = 0 := by omega
  cases p <;> simp_all [Local, Pc.Served]

theorem Queue.stay (hq : Queue s q) (htickets : s'.tickets = s.tickets) (hcakes : s'.cakes = s.cakes)
    (hpc : s'.pc = Function.update s.pc t p) (hheld : s'.held = Function.update s.held t n)
    (hmem : p.Waiting ∨ 0 < n ↔ (s.pc t).Waiting ∨ 0 < s.held t)
    (hplace : ∀ ticket, p.ticket = some ticket → (s.pc t).ticket = some ticket)
    (hhead : p.Served ∨ 0 < n → q.head? = some t) : Queue s' q := by
  refine ⟨hq.nodup, by rw [htickets, hcakes, hq.tickets], hcakes ▸ hq.cakes, fun u => ?_, fun u ticket hu => ?_,
    fun u hu => ?_⟩
  · by_cases hut : u = t
    · subst hut
      rw [hpc, hheld, Function.update_self, Function.update_self, hmem, hq.mem]
    · rw [hpc, hheld, Function.update_of_ne hut, Function.update_of_ne hut, hq.mem]
  · rw [hcakes]
    by_cases hut : u = t
    · subst hut
      rw [hpc, Function.update_self] at hu
      exact hq.place u _ (hplace _ hu)
    · rw [hpc, Function.update_of_ne hut] at hu
      exact hq.place u _ hu
  · by_cases hut : u = t
    · subst hut
      rw [Has, hpc, hheld, Function.update_self, Function.update_self] at hu
      exact hhead hu
    · rw [Has, hpc, hheld, Function.update_of_ne hut, Function.update_of_ne hut] at hu
      exact hq.head u hu

/-- What the others see: the owner and the count stay, or they are changed by the thread that has the
mutex. -/
theorem each_update (hq : Queue s q) (heach : ∀ u, Local s.owner s.count u (s.held u) (s.pc u))
    (hpc : s'.pc = Function.update s.pc t p) (hheld : s'.held = Function.update s.held t n)
    (ht : Local s'.owner s'.count t n p)
    (hothers : s'.owner = s.owner ∧ s'.count = s.count ∨
      Has s t ∧ (s'.owner = s.owner ∨ s'.owner = some t ∨ s'.owner = none)) (u : Tid) :
    Local s'.owner s'.count u (s'.held u) (s'.pc u) := by
  by_cases hut : u = t
  · subst hut
    rwa [hpc, hheld, Function.update_self, Function.update_self]
  · rw [hpc, hheld, Function.update_of_ne hut, Function.update_of_ne hut]
    rcases hothers with ⟨ho, hc⟩ | ⟨hhas, ho⟩
    · rw [ho, hc]
      exact heach u
    · have hnot : ¬Has s u := fun hu => hut (hq.has_unique hu hhas)
      refine (heach u).other hnot fun hown => ?_
      rcases ho with ho | ho | ho
      · exact hnot ((heach u).has (ho.symm.trans hown))
      · exact hut (Option.some.inj (hown.symm.trans ho))
      · exact nomatch hown.symm.trans ho

/-- A thread goes on without a change of the mutex. -/
theorem Inv.quiet {p₀ : Pc} (hi : Inv s) (hpc : s.pc t = p₀) (hwait : p.Waiting ↔ p₀.Waiting)
    (hplace : ∀ ticket, p.ticket = some ticket → p₀.ticket = some ticket)
    (hserved : p.Served → p₀.Served ∨ p₀.ticket = some s.cakes)
    (ht : Local s.owner s.count t (s.held t) p) : Inv (s.set t p) := by
  subst hpc
  obtain ⟨⟨q, hq⟩, hcount, heach⟩ := hi
  have hheld : (s.set t p).held = Function.update s.held t (s.held t) := (Function.update_eq_self t s.held).symm
  refine ⟨⟨q, hq.stay rfl rfl rfl hheld (by rw [hwait]) hplace fun h => ?_⟩, hcount,
    each_update hq heach rfl hheld ht (.inl ⟨rfl, rfl⟩)⟩
  rcases h with h | h
  · rcases hserved h with h | h
    · exact hq.head t (.inl h)
    · exact hq.head_of_served h
  · exact hq.head t (.inr h)

/-- The thread that has the mutex changes the owner, the count, or its holds. -/
theorem Inv.own (hi : Inv s) (hhas : Has s t) (htickets : s'.tickets = s.tickets) (hcakes : s'.cakes = s.cakes)
    (hpc : s'.pc = Function.update s.pc t p) (hheld : s'.held = Function.update s.held t n)
    (ho : s'.owner = s.owner ∨ s'.owner = some t ∨ s'.owner = none) (hstill : p.Waiting ∨ 0 < n)
    (hticket : p.ticket = none) (hlt : s'.count < 2 ^ 32) (ht : Local s'.owner s'.count t n p) : Inv s' := by
  obtain ⟨⟨q, hq⟩, hcount, heach⟩ := hi
  have hmem : (s.pc t).Waiting ∨ 0 < s.held t := by
    refine hhas.imp_left fun h => ?_
    rcases h with h | h
    · rw [h]; trivial
    · rw [h]; trivial
  refine ⟨⟨q, hq.stay htickets hcakes hpc hheld (iff_of_true hstill hmem) ?_ fun _ => hq.head t hhas⟩, hlt,
    each_update hq heach hpc hheld ht (.inr ⟨hhas, ho⟩)⟩
  rw [hticket]
  nofun

/-- A thread takes a ticket: it goes to the end of the queue. -/
theorem Inv.takeTicket (hi : Inv s) (hpc : s.pc t = .lockTicket) :
    Inv ({ s with tickets := (s.tickets + 1) % 2 ^ 64 }.set t (.lockRead s.tickets)) := by
  obtain ⟨⟨q, hq⟩, hcount, heach⟩ := hi
  have hlocal := heach t
  rw [hpc] at hlocal
  have hnot : t ∉ q := by
    rw [hq.mem, hpc, hlocal.1]
    simp [Pc.Waiting]
  have hheld : s.held = Function.update s.held t (s.held t) := (Function.update_eq_self t s.held).symm
  refine ⟨⟨q ++ [t], ?_, ?_, hq.cakes, fun u => ?_, fun u ticket hu => ?_, fun u hu => ?_⟩, hcount,
    each_update hq heach rfl hheld hlocal (.inl ⟨rfl, rfl⟩)⟩
  · exact hq.nodup.append (List.nodup_singleton t) (List.disjoint_singleton.2 hnot)
  · have htickets := hq.tickets
    simp only [Mutex.set, List.length_append, List.length_singleton]
    omega
  · simp only [Mutex.set, List.mem_append, List.mem_singleton]
    by_cases hut : u = t
    · subst hut
      rw [Function.update_self]
      exact iff_of_true (.inr rfl) (.inl trivial)
    · rw [Function.update_of_ne hut, or_iff_left hut, hq.mem]
  · simp only [Mutex.set] at hu ⊢
    by_cases hut : u = t
    · subst hut
      rw [Function.update_self] at hu
      obtain rfl := Option.some.inj hu
      exact ⟨q.length, by simp, hq.tickets⟩
    · rw [Function.update_of_ne hut] at hu
      obtain ⟨i, hget, heq⟩ := hq.place u _ hu
      exact ⟨i, by rw [List.getElem?_append_left (List.getElem?_eq_some_iff.1 hget).1, hget], heq⟩
  · simp only [Has, Mutex.set] at hu
    by_cases hut : u = t
    · subst hut
      rw [Function.update_self, hlocal.1] at hu
      simp [Pc.Served] at hu
    · rw [Function.update_of_ne hut] at hu
      rw [List.head?_append, hq.head u hu]
      rfl

/-- The head of the queue gives up its last hold. -/
theorem Inv.serve (hi : Inv s) (hpc : s.pc t = .unlockServe) :
    Inv (({ s with cakes := (s.cakes + 1) % 2 ^ 64 }.setHeld t (s.held t - 1)).set t .unlockCakes) := by
  obtain ⟨⟨q, hq⟩, hcount, heach⟩ := hi
  have hlocal := heach t
  rw [hpc] at hlocal
  obtain ⟨hone, howner⟩ := hlocal
  have hhas : Has s t := .inr (by omega)
  obtain ⟨rest, rfl⟩ : ∃ rest, q = t :: rest := by
    have hhead := hq.head t hhas
    cases q with
    | nil => exact nomatch hhead
    | cons u rest => exact ⟨rest, by rw [Option.some.inj hhead]⟩
  obtain ⟨hnot, hrest⟩ := List.nodup_cons.1 hq.nodup
  have hcakes := hq.cakes
  have hnone : ∀ u ≠ t, ¬Has s u := fun u hut hu => hut (hq.has_unique hu hhas)
  refine ⟨⟨rest, hrest, ?_, ?_, fun u => ?_, fun u ticket hu => ?_, fun u hu => ?_⟩, hcount,
    each_update (n := s.held t - 1) hq heach rfl rfl ?_ (.inl ⟨rfl, rfl⟩)⟩
  · have htickets := hq.tickets
    rw [List.length_cons] at htickets
    simp only [Mutex.set, Mutex.setHeld]
    omega
  · exact Nat.mod_lt _ (by decide)
  · simp only [Mutex.set, Mutex.setHeld]
    by_cases hut : u = t
    · subst hut
      rw [Function.update_self, Function.update_self, hone]
      exact iff_of_false hnot (by simp [Pc.Waiting])
    · rw [Function.update_of_ne hut, Function.update_of_ne hut, ← hq.mem, List.mem_cons, or_iff_right hut]
  · simp only [Mutex.set, Mutex.setHeld] at hu ⊢
    have hut : u ≠ t := by
      rintro rfl
      rw [Function.update_self] at hu
      exact nomatch hu
    rw [Function.update_of_ne hut] at hu
    obtain ⟨i, hget, heq⟩ := hq.place u _ hu
    cases i with
    | zero => exact absurd (Option.some.inj hget).symm hut
    | succ i => exact ⟨i, hget, by omega⟩
  · simp only [Has, Mutex.set, Mutex.setHeld] at hu
    by_cases hut : u = t
    · subst hut
      rw [Function.update_self, Function.update_self, hone] at hu
      simp [Pc.Served] at hu
    · rw [Function.update_of_ne hut, Function.update_of_ne hut] at hu
      exact absurd hu (hnone u hut)
  · rw [hone]
    exact howner

theorem Inv.unblock (hi : Inv s) : Inv s.unblock := by
  have hpc : ∀ u, (s.unblock.pc u).Waiting = (s.pc u).Waiting ∧ (s.unblock.pc u).ticket = (s.pc u).ticket ∧
      (s.unblock.pc u).Served = (s.pc u).Served ∧
        Local s.owner s.count u (s.held u) (s.unblock.pc u) = Local s.owner s.count u (s.held u) (s.pc u) := by
    intro u
    unfold Mutex.unblock
    simp only
    split
    · next h =>
      rw [h]
      simp [Pc.Waiting, Pc.ticket, Pc.Served, Local]
    · exact ⟨rfl, rfl, rfl, rfl⟩
  obtain ⟨⟨q, hq⟩, hcount, heach⟩ := hi
  refine ⟨⟨q, hq.nodup, hq.tickets, hq.cakes, fun u => ?_, fun u ticket hu => ?_, fun u hu => ?_⟩, hcount,
    fun u => ?_⟩
  · rw [(hpc u).1]
    exact hq.mem u
  · rw [(hpc u).2.1] at hu
    exact hq.place u ticket hu
  · rw [Has, (hpc u).2.2.1] at hu
    exact hq.head u hu
  · exact (hpc u).2.2.2.symm ▸ heach u

theorem not_served {p : Pc} (hown : p ≠ .lockOwn) (hone : p ≠ .lockOne) : ¬p.Served := by
  rintro (h | h)
  · exact hown h
  · exact hone h

/-! The four cases of a thread outside of the functions. -/

theorem outside_held (h : if n = 0 then o ≠ some t else o = some t ∧ c = n) (ho : o = some t) :
    0 < n ∧ o = some t ∧ c = n := by
  split_ifs at h with hn
  · exact absurd ho h
  · exact ⟨by omega, h⟩

theorem outside_free (h : if n = 0 then o ≠ some t else o = some t ∧ c = n) (ho : o ≠ some t) :
    n = 0 ∧ o ≠ some t := by
  split_ifs at h with hn
  · exact ⟨hn, ho⟩
  · exact absurd h.1 ho

theorem outside_of_held (h : 0 < n ∧ o = some t ∧ c = n) :
    if n = 0 then o ≠ some t else o = some t ∧ c = n := by
  rw [if_neg (by omega)]
  exact h.2

theorem outside_of_free (h : n = 0 ∧ o ≠ some t) : if n = 0 then o ≠ some t else o = some t ∧ c = n := by
  rw [if_pos h.1]
  exact h.2

/-- The next operation of a thread keeps the queue. -/
theorem Inv.run (hi : Inv s) (hc : Served s (.run t)) (h : s.run t = some s') : Inv s' := by
  have hlocal := hi.each t
  have hcount := hi.count
  unfold Mutex.run at h
  split at h
  case h_1 => exact nomatch h
  case h_2 hpc =>
    rw [hpc] at hlocal
    split_ifs at h with hown htype
    · exact Option.some.inj h ▸ hi.quiet hpc Iff.rfl nofun (fun hs => absurd hs (not_served nofun nofun))
        (outside_held hlocal hown)
    · exact Option.some.inj h ▸ hi.quiet hpc Iff.rfl nofun (fun hs => absurd hs (not_served nofun nofun)) hlocal
    · exact Option.some.inj h ▸ hi.quiet hpc Iff.rfl nofun (fun hs => absurd hs (not_served nofun nofun))
        (outside_free hlocal hown)
  case h_3 hpc =>
    rw [hpc] at hlocal
    obtain ⟨hheld, hown, heq⟩ := hlocal
    exact Option.some.inj h ▸ hi.quiet hpc Iff.rfl nofun (fun hs => absurd hs (not_served nofun nofun))
      ⟨hheld, hown, heq, rfl⟩
  case h_4 count hpc =>
    rw [hpc] at hlocal
    obtain ⟨hheld, hown, heq, rfl⟩ := hlocal
    have hroom := hc.2 _ hpc
    have hmod : (s.count + 1) % 2 ^ 32 = s.count + 1 := Nat.mod_eq_of_lt hroom
    obtain rfl := Option.some.inj h
    have hnew := outside_of_held (n := s.held t + 1) (c := (s.count + 1) % 2 ^ 32)
      ⟨Nat.succ_pos _, hown, by rw [hmod, heq]⟩
    exact hi.own (n := s.held t + 1) (.inr hheld) rfl rfl rfl rfl (.inl rfl) (.inr (Nat.succ_pos _)) rfl
      (Nat.mod_lt _ (by decide)) hnew
  case h_5 hpc => exact Option.some.inj h ▸ hi.takeTicket hpc
  case h_6 ticket hpc =>
    rw [hpc] at hlocal
    split_ifs at h with hserved
    · exact Option.some.inj h ▸ hi.quiet hpc Iff.rfl nofun (fun _ => .inr (by rw [hserved]; rfl)) hlocal
    · exact Option.some.inj h ▸ hi.quiet hpc Iff.rfl (fun _ => id)
        (fun hs => absurd hs (not_served nofun nofun)) hlocal
  case h_7 ticket cakes hpc =>
    rw [hpc] at hlocal
    split_ifs at h
    · exact Option.some.inj h ▸ hi.quiet hpc Iff.rfl (fun _ => id)
        (fun hs => absurd hs (not_served nofun nofun)) hlocal
    · exact Option.some.inj h ▸ hi.quiet hpc Iff.rfl (fun _ => id)
        (fun hs => absurd hs (not_served nofun nofun)) hlocal
  case h_8 => exact nomatch h
  case h_9 hpc =>
    rw [hpc] at hlocal
    obtain rfl := Option.some.inj h
    exact hi.own (n := s.held t) (.inl (.inl hpc)) rfl rfl rfl (Function.update_eq_self t s.held).symm
      (.inr (.inl rfl)) (.inl trivial) rfl hcount ⟨hlocal.1, rfl⟩
  case h_10 hpc =>
    rw [hpc] at hlocal
    obtain rfl := Option.some.inj h
    have hnew := outside_of_held (n := s.held t + 1) (c := 1) ⟨Nat.succ_pos _, hlocal.2, by rw [hlocal.1]⟩
    exact hi.own (n := s.held t + 1) (.inl (.inr hpc)) rfl rfl rfl rfl (.inl rfl) (.inr (Nat.succ_pos _)) rfl
      (by simp [Mutex.set, Mutex.setHeld]) hnew
  case h_11 hpc =>
    rw [hpc] at hlocal
    split_ifs at h with hown htype
    · exact Option.some.inj h ▸ hi.quiet hpc Iff.rfl nofun (fun hs => absurd hs (not_served nofun nofun))
        (outside_held hlocal hown)
    · exact Option.some.inj h ▸ hi.quiet hpc Iff.rfl nofun (fun hs => absurd hs (not_served nofun nofun)) hlocal
    · exact Option.some.inj h ▸ hi.quiet hpc Iff.rfl nofun (fun hs => absurd hs (not_served nofun nofun))
        (outside_free hlocal hown)
  case h_12 hpc =>
    rw [hpc] at hlocal
    exact Option.some.inj h ▸ hi.quiet hpc Iff.rfl nofun (fun hs => absurd hs (not_served nofun nofun)) hlocal
  case h_13 tickets hpc =>
    rw [hpc] at hlocal
    split_ifs at h
    · exact Option.some.inj h ▸ hi.quiet hpc Iff.rfl nofun (fun hs => absurd hs (not_served nofun nofun))
        (outside_of_free hlocal)
    · exact Option.some.inj h ▸ hi.quiet hpc Iff.rfl nofun (fun hs => absurd hs (not_served nofun nofun)) hlocal
  case h_14 tickets hpc =>
    rw [hpc] at hlocal
    rw [if_neg (hc.1 _ hpc)] at h
    exact Option.some.inj h ▸ hi.quiet hpc Iff.rfl nofun (fun hs => absurd hs (not_served nofun nofun))
      (outside_of_free hlocal)
  case h_15 hpc =>
    rw [hpc] at hlocal
    split_ifs at h with hown
    · exact Option.some.inj h ▸ hi.quiet hpc Iff.rfl nofun (fun hs => absurd hs (not_served nofun nofun)) hlocal
    · exact Option.some.inj h ▸ hi.quiet hpc Iff.rfl nofun (fun hs => absurd hs (not_served nofun nofun))
        (outside_held hlocal (not_not.1 hown))
  case h_16 hpc =>
    rw [hpc] at hlocal
    obtain ⟨hheld, hown, heq⟩ := hlocal
    have hmod : (s.count + (2 ^ 32 - 1)) % 2 ^ 32 = s.count - 1 := by omega
    simp only [hmod] at h
    split_ifs at h with hzero
    · obtain rfl := Option.some.inj h
      exact hi.own (n := s.held t) (.inr hheld) rfl rfl rfl (Function.update_eq_self t s.held).symm (.inl rfl)
        (.inr hheld) rfl (by simp only [Mutex.set]; omega) ⟨by omega, hown⟩
    · obtain rfl := Option.some.inj h
      exact hi.own (n := s.held t - 1) (.inr hheld) rfl rfl rfl rfl (.inl rfl) (.inr (by omega)) rfl
        (by simp only [Mutex.set, Mutex.setHeld]; omega)
        (outside_of_held ⟨by omega, hown, by rw [← heq]; rfl⟩)
  case h_17 hpc =>
    rw [hpc] at hlocal
    obtain rfl := Option.some.inj h
    exact hi.own (n := s.held t) (.inr (by rw [hlocal.1]; decide)) rfl rfl rfl
      (Function.update_eq_self t s.held).symm (.inr (.inr rfl)) (.inr (by rw [hlocal.1]; decide)) rfl hcount
      ⟨hlocal.1, nofun⟩
  case h_18 hpc => exact Option.some.inj h ▸ hi.serve hpc
  case h_19 hpc =>
    rw [hpc] at hlocal
    exact Option.some.inj h ▸ hi.quiet hpc Iff.rfl nofun (fun hs => absurd hs (not_served nofun nofun)) hlocal
  case h_20 cakes hpc =>
    rw [hpc] at hlocal
    split_ifs at h
    · exact Option.some.inj h ▸ hi.quiet hpc Iff.rfl nofun (fun hs => absurd hs (not_served nofun nofun)) hlocal
    · exact Option.some.inj h ▸ hi.quiet hpc Iff.rfl nofun (fun hs => absurd hs (not_served nofun nofun)) hlocal
  case h_21 hpc =>
    rw [hpc] at hlocal
    have hpc' : s.unblock.pc t = .unlockWake := by simp [Mutex.unblock, hpc]
    exact Option.some.inj h ▸ hi.unblock.quiet hpc' Iff.rfl nofun
      (fun hs => absurd hs (not_served nofun nofun)) hlocal

theorem Inv.step {op : Op} (hi : Inv s) (hc : Served s op) (h : step s op = some s') : Inv s' := by
  have hcall : ∀ {t : Tid} {p : Pc}, s.call t p = some s' → (p.Waiting ↔ Pc.Waiting .idle) → p.ticket = none →
      ¬p.Served → (Local s.owner s.count t (s.held t) .idle → Local s.owner s.count t (s.held t) p) → Inv s' := by
    intro t p h hwait hticket hserved hlocal
    obtain ⟨hpc, h⟩ := Option.ite_none_right_eq_some.1 h
    have hl := hi.each t
    rw [hpc] at hl
    exact Option.some.inj h ▸ hi.quiet hpc hwait (by rw [hticket]; nofun) (fun hs => absurd hs hserved) (hlocal hl)
  cases op with
  | pthread_mutex_lock t => exact hcall h Iff.rfl rfl (not_served nofun nofun) id
  | pthread_mutex_trylock t => exact hcall h Iff.rfl rfl (not_served nofun nofun) id
  | pthread_mutex_unlock t => exact hcall h Iff.rfl rfl (not_served nofun nofun) id
  | run t => exact hi.run hc h
  | wake t =>
    have hlocal := hi.each t
    simp only [Pthread.step] at h
    split at h
    · next hpc =>
      rw [hpc] at hlocal
      exact Option.some.inj h ▸ hi.quiet hpc Iff.rfl (fun _ => id)
        (fun hs => absurd hs (not_served nofun nofun)) hlocal
    · exact nomatch h
  | fail t => exact hc.elim

theorem inv_init (type : MutexType) : Inv (pthread_mutex_init type) := by
  refine ⟨⟨[], List.nodup_nil, rfl, Nat.two_pow_pos 64, fun t => ?_, fun t k ht => ?_, fun t ht => ?_⟩,
    Nat.two_pow_pos 32, fun t => ?_⟩
  · simp [pthread_mutex_init, Pc.Waiting]
  · cases ht
  · simp [pthread_mutex_init, Has, Pc.Served] at ht
  · simp [pthread_mutex_init, Local]

/-! ## What follows from the queue -/

theorem Local.owned (h : Local o c t n p) (hn : 0 < n) (hp : ¬p.Releasing) : o = some t ∧ c = n := by
  have hne : n ≠ 0 := by omega
  cases p <;> simp [Local, Pc.Releasing, hne] at h hp ⊢
  all_goals first
    | exact h
    | exact ⟨h.2.1, h.2.2⟩
    | exact ⟨h.2.1, h.2.2.1⟩

section Alone

variable {op : Op} {k : ℕ}

theorem alone_zero (h : step s op = some s') : alone s op t 0 = some s' := by
  rw [alone, List.replicate_zero, List.foldlM_cons, h]
  rfl

theorem alone_succ {s'' : Mutex} (h : alone s op t k = some s') (hrun : s'.run t = some s'') :
    alone s op t (k + 1) = some s'' := by
  rw [alone, List.replicate_succ', ← List.cons_append, List.foldlM_append]
  rw [alone] at h
  rw [h, Option.bind_eq_bind, Option.bind_some, List.foldlM_cons]
  exact (congrArg (Option.bind · _) hrun).trans rfl

@[simp] theorem set_pc_self : (s.set t p).pc t = p := Function.update_self ..

@[simp] theorem set_set {p' : Pc} : (s.set t p).set t p' = s.set t p' := by
  simp only [Mutex.set, Function.update_idem]

/-- An unlock of a thread alone undoes one of its holds. -/
theorem alone_unlock (hpc : s.pc t = .idle) (howner : s.owner = some t) (hlt : s.count < 2 ^ 32)
    (hcount : s.count = s.held t) (hheld : 0 < s.held t) :
    ∃ k s', alone s (.pthread_mutex_unlock t) t k = some s' ∧ s'.held t + 1 = s.held t := by
  have hmod : (s.count + (2 ^ 32 - 1)) % 2 ^ 32 = s.count - 1 := by omega
  have h₀ : step s (.pthread_mutex_unlock t) = some (s.set t .unlockOwner) := if_pos hpc
  have h₁ : (s.set t .unlockOwner).run t = some (s.set t .unlockCount) := by
    rw [Mutex.run, set_pc_self]
    exact (if_neg (not_not.2 howner)).trans (by rw [set_set])
  have hstart := alone_succ (alone_zero h₀) h₁
  by_cases hone : s.count - 1 = 0
  · have h₂ : (s.set t .unlockCount).run t = some ({ s with count := 0 }.set t .unlockClear) := by
      rw [Mutex.run, set_pc_self]
      refine (if_pos (hmod.trans hone)).trans ?_
      rw [show (s.set t .unlockCount).count = s.count from rfl, hmod, hone]
      simp only [Mutex.set, Function.update_idem]
    have h₃ : ({ s with count := 0 }.set t .unlockClear).run t =
        some ({ s with count := 0, owner := none }.set t .unlockServe) := by
      rw [Mutex.run, set_pc_self]
      simp only [Mutex.set, Function.update_idem]
    have h₄ : ∃ s', ({ s with count := 0, owner := none }.set t .unlockServe).run t = some s' ∧
        s'.held t = s.held t - 1 := by
      rw [Mutex.run, set_pc_self]
      exact ⟨_, rfl, Function.update_self ..⟩
    obtain ⟨s', h₄, hs'⟩ := h₄
    exact ⟨4, s', alone_succ (alone_succ (alone_succ hstart h₂) h₃) h₄, by omega⟩
  · have h₂ : ∃ s', (s.set t .unlockCount).run t = some s' ∧ s'.held t = s.held t - 1 := by
      rw [Mutex.run, set_pc_self]
      exact ⟨_, if_neg (by rw [show (s.set t .unlockCount).count = s.count from rfl, hmod]; exact hone),
        Function.update_self ..⟩
    obtain ⟨s', h₂, hs'⟩ := h₂
    exact ⟨2, s', alone_succ hstart h₂, by omega⟩

/-- A lock of a thread alone takes the mutex if the counters are equal. -/
theorem alone_lock (hpc : s.pc t = .idle) (howner : s.owner ≠ some t) (hequal : s.tickets = s.cakes) :
    ∃ k s', alone s (.pthread_mutex_lock t) t k = some s' ∧ s'.held t = s.held t + 1 := by
  let s₁ : Mutex := { s with tickets := (s.tickets + 1) % 2 ^ 64 }
  have h₀ : step s (.pthread_mutex_lock t) = some (s.set t .lockOwner) := if_pos hpc
  have h₁ : (s.set t .lockOwner).run t = some (s.set t .lockTicket) := by
    rw [Mutex.run, set_pc_self]
    exact (if_neg howner).trans (by rw [set_set])
  have h₂ : (s.set t .lockTicket).run t = some (s₁.set t (.lockRead s.tickets)) := by
    rw [Mutex.run, set_pc_self]
    simp only [Mutex.set, Function.update_idem, s₁]
  have h₃ : (s₁.set t (.lockRead s.tickets)).run t = some (s₁.set t .lockOwn) := by
    rw [Mutex.run, set_pc_self]
    exact (if_pos hequal.symm).trans (by rw [set_set])
  have h₄ : (s₁.set t .lockOwn).run t = some ({ s₁ with owner := some t }.set t .lockOne) := by
    rw [Mutex.run, set_pc_self]
    simp only [Mutex.set, Function.update_idem]
  have h₅ : ∃ s', ({ s₁ with owner := some t }.set t .lockOne).run t = some s' ∧
      s'.held t = s.held t + 1 := by
    rw [Mutex.run, set_pc_self]
    exact ⟨_, rfl, Function.update_self ..⟩
  obtain ⟨s', h₅, hs'⟩ := h₅
  exact ⟨5, s', alone_succ (alone_succ (alone_succ (alone_succ (alone_succ (alone_zero h₀) h₁) h₂) h₃) h₄) h₅, hs'⟩

end Alone

theorem Inv.safe (hi : Inv s) : Safe s := by
  obtain ⟨⟨q, hq⟩, hlt, heach⟩ := hi
  have howned : ∀ t, 0 < s.held t → ¬(s.pc t).Releasing → s.owner = some t ∧ s.count = s.held t :=
    fun t ht => (heach t).owned ht
  have hequal : (∀ t, s.held t = 0) → (∀ t, ¬(s.pc t).Waiting) → s.tickets = s.cakes := by
    intro hheld hwait
    have hempty : q = [] := List.eq_nil_iff_forall_not_mem.2 fun t ht => by
      rcases (hq.mem t).1 ht with h | h
      · exact hwait t h
      · exact absurd (hheld t) (by omega)
    have htickets := hq.tickets
    rw [hempty, List.length_nil, Nat.add_zero, Nat.mod_eq_of_lt hq.cakes] at htickets
    exact htickets
  refine ⟨fun t u ht hu => hq.has_unique (.inr ht) (.inr hu), howned, fun t ht hpc => ?_, hequal,
    fun hheld hwait t hpc => ?_⟩
  · have hnot : ¬(s.pc t).Releasing := by
      rw [hpc]
      rintro (h | h)
      · exact nomatch h
      · exact nomatch h
    obtain ⟨howner, hcount⟩ := howned t ht hnot
    exact alone_unlock hpc howner hlt hcount ht
  · have howner := heach t
    rw [hpc] at howner
    simp only [Local, hheld t, if_true] at howner
    obtain ⟨k, s', hrun, hone⟩ := alone_lock hpc howner (hequal hheld hwait)
    exact ⟨k, s', hrun, by rw [hone, hheld t]⟩

/-- In every run in which no wait fails, no `pthread_mutex_trylock` takes the mutex while it is free and no
hold is the 2^32nd, one thread at most has the mutex, it can release it, and the next lock succeeds. -/
theorem mutexSafe_of_run {type : MutexType} (h : (mutex type).ReachesBy Served s) : Safe s := by
  refine (h.invariant (I := Inv) ?_ fun s op s' hi hc hstep => hi.step hc hstep).safe
  rintro s rfl
  exact inv_init type

def tidOne : Tid := ⟨1, by decide⟩
def tidTwo : Tid := ⟨2, by decide⟩

/-- The second thread waits until the first one has unlocked the mutex. -/
def handOver : List Op :=
  Op.pthread_mutex_lock tidOne :: List.replicate 5 (Op.run tidOne) ++
    Op.pthread_mutex_lock tidTwo :: List.replicate 4 (Op.run tidTwo) ++
    Op.pthread_mutex_unlock tidOne :: List.replicate 7 (Op.run tidOne) ++ List.replicate 3 (Op.run tidTwo)

theorem safe_of_handOver : ∃ s : Mutex, (s.held tidOne = 0 ∧ s.held tidTwo = 1) ∧ Safe s := by
  have hrun : (System.execBy Served step (pthread_mutex_init .normal) handOver).any
      (fun s => decide (s.held tidOne = 0 ∧ s.held tidTwo = 1)) = true := by decide
  obtain ⟨s, hs, hheld⟩ := (Option.any_eq_true ..).1 hrun
  have hreach : (mutex .normal).ReachesBy Served s :=
    System.ReachesBy.execBy (fun _ _ _ h => h) (.init rfl) hs
  exact ⟨s, of_decide_eq_true hheld, mutexSafe_of_run hreach⟩

/-- After `pthread_mutex_trylock` has returned 0 the thread is not the owner, and its unlock does not undo
its hold. -/
theorem trylock_not_released : ∃ s : Mutex, (mutex .normal).Reachable s ∧ s.held tidOne = 1 ∧
    s.pc tidOne = .idle ∧ s.owner = none ∧ ¬Safe s := by
  have hrun : ((Op.pthread_mutex_trylock tidOne :: List.replicate 4 (.run tidOne)).foldlM step
      (pthread_mutex_init .normal)).any (fun s => decide (s.held tidOne = 1 ∧ s.pc tidOne = .idle ∧
        s.owner = none)) = true := by decide
  obtain ⟨s, hs, hstate⟩ := (Option.any_eq_true ..).1 hrun
  obtain ⟨hheld, hpc, howner⟩ := of_decide_eq_true hstate
  have hreach : (mutex .normal).Reachable s :=
    System.ReachesBy.foldlM (fun _ _ _ h => ⟨trivial, h⟩) (.init rfl) hs
  refine ⟨s, hreach, hheld, hpc, howner, fun hsafe => ?_⟩
  have hown := (hsafe.owned tidOne (by omega) (by rw [hpc]; rintro (h | h) <;> exact nomatch h)).1
  exact nomatch howner.symm.trans hown

/-- After a wait has failed nobody holds the mutex and nobody waits, and the counters stay apart. -/
theorem ticket_not_served : ∃ s : Mutex, (mutex .normal).Reachable s ∧ s.held tidOne = 0 ∧
    s.held tidTwo = 0 ∧ s.pc tidOne = .idle ∧ s.pc tidTwo = .idle ∧ s.tickets = 2 ∧ s.cakes = 1 := by
  have hrun : ((Op.pthread_mutex_lock tidOne :: List.replicate 5 (Op.run tidOne) ++
      Op.pthread_mutex_lock tidTwo :: List.replicate 4 (Op.run tidTwo) ++
      Op.fail tidTwo :: Op.pthread_mutex_unlock tidOne :: List.replicate 7 (Op.run tidOne) : List Op).foldlM step
      (pthread_mutex_init .normal)).any (fun s => decide (s.held tidOne = 0 ∧ s.held tidTwo = 0 ∧
        s.pc tidOne = .idle ∧ s.pc tidTwo = .idle ∧ s.tickets = 2 ∧ s.cakes = 1)) = true := by decide
  obtain ⟨s, hs, hstate⟩ := (Option.any_eq_true ..).1 hrun
  have hreach : (mutex .normal).Reachable s :=
    System.ReachesBy.foldlM (fun _ _ _ h => ⟨trivial, h⟩) (.init rfl) hs
  exact ⟨s, hreach, of_decide_eq_true hstate⟩

end Glidix.Libc.Pthread
