import Glidix.Thread.Join

/-!
# Every return value is consumed once

If `detachThread` is not called for a thread that has exited and is still on the thread list, then each
return value is consumed once or waits to be, and all locks are free between the calls.  Otherwise
`detachThread` finds the notification and returns with `schedLock` held, or does not find it as a join
has consumed it, and succeeds all the same.
-/

namespace Glidix.Thread.Join

section Lists

variable {α : Type*} {p q : α → Bool} {l : List α} {a : α}

theorem filter_eraseP_of_disjoint (h : ∀ a, p a = true → q a = false) :
    (l.eraseP p).filter q = l.filter q := by
  induction l with
  | nil => rfl
  | cons a l ih =>
    by_cases hp : p a = true
    · rw [List.eraseP_cons_of_pos hp, List.filter_cons_of_neg (by rw [h a hp]; exact nofun)]
    · rw [List.eraseP_cons_of_neg hp, List.filter_cons, List.filter_cons, ih]

theorem filter_eraseP_of_imp (h : ∀ a, p a = true → q a = true) :
    (l.eraseP p).filter q = (l.filter q).eraseP p := by
  have hpq : (fun a => p a && q a) = p := by
    funext a
    by_cases hp : p a = true
    · rw [hp, h a hp, Bool.and_true]
    · rw [Bool.eq_false_iff.2 hp, Bool.false_and]
  rw [List.eraseP_filter, hpq]

end Lists

/-- The end of a thread is notified. -/
def isFrom (thid : ℕ) (notif : SchedNotif) : Bool :=
  notif.type = .SHN_THREAD_DEAD ∧ notif.source = thid

/-- What the state has about the end of a thread: notifications, successful joins with the values they
returned, and the number of successful detaches. -/
structure Account where
  notifs : List SchedNotif
  joins : List (ℕ × ℕ)
  detaches : ℕ

def JoinState.account (s : JoinState) (thid : ℕ) : Account where
  notifs := s.notifs.filter (isFrom thid)
  joins := s.joins.filter fun x => x.1 = thid
  detaches := s.detaches.count thid

def noAccount : Account := ⟨[], [], 0⟩

/-- The account of a thread is right. -/
def Balanced (thid : ℕ) (o : Option JoinThread) (a : Account) : Prop :=
  match o with
  | none => a = noAccount
  | some t =>
    if t.detached then a.notifs = [] ∧ a.joins = [] ∧ a.detaches ≤ 1
    else match t.exit with
      | none => a = noAccount
      | some r => a = ⟨[⟨.SHN_THREAD_DEAD, t.pid, thid, r⟩], [], 0⟩ ∨ a = ⟨[], [(thid, r)], 0⟩

/-- Each thread that was not detached and has exited has its return value consumed by one join, or it
waits in one notification; there is never a second success; a detached thread has no notification; and
the locks are free and interrupts enabled. -/
structure JoinState.Right (s : JoinState) : Prop where
  consumed : ∀ thid t r, s.threads thid = some t → t.detached = false → t.exit = some r →
    s.account thid = ⟨[⟨.SHN_THREAD_DEAD, t.pid, thid, r⟩], [], 0⟩ ∨
      s.account thid = ⟨[], [(thid, r)], 0⟩
  once : ∀ thid, (s.account thid).joins.length + (s.account thid).detaches ≤ 1
  detached : ∀ thid t, s.threads thid = some t → t.detached = true → (s.account thid).notifs = []
  schedLock : s.schedLock = false
  notifLock : s.notifLock = false
  interrupts : ∀ thid t, s.threads thid = some t → t.terminated = false → s.interrupts thid = true

/-- What is kept by every step. -/
structure JoinState.Kept (s : JoinState) : Prop where
  balanced : ∀ thid, Balanced thid (s.threads thid) (s.account thid)
  fresh : ∀ thid, s.nextPid ≤ thid → s.threads thid = none
  schedLock : s.schedLock = false
  notifLock : s.notifLock = false
  interrupts : ∀ thid t, s.threads thid = some t → t.terminated = false → s.interrupts thid = true

/-- A thread that is detached has not exited, if it is on the thread list. -/
def JoinState.DetachesRunning (s : JoinState) : JoinOp → Prop
  | .detach caller thid => ∀ me ∈ s.threads caller, ∀ t ∈ s.find me.pid thid,
      t.detached = false → t.exit = none
  | _ => True

instance (s : JoinState) : DecidablePred s.DetachesRunning
  | .detach caller thid => inferInstanceAs (Decidable (∀ me ∈ s.threads caller,
      ∀ t ∈ s.find me.pid thid, t.detached = false → t.exit = none))
  | .create .. | .exit .. | .terminate .. | .cleanup .. | .join .. => inferInstanceAs (Decidable True)

/-! ## The account of a thread -/

section Account

variable {s s' : JoinState} {thid caller x : ℕ} {t t' me : JoinThread} {a : Account}

/-- Only the process, whether it is detached and the return value of a thread matter. -/
theorem Balanced.congr (h : Balanced thid (some t) a) (hpid : t'.pid = t.pid)
    (hdetached : t'.detached = t.detached) (hexit : t'.exit = t.exit) : Balanced thid (some t') a := by
  unfold Balanced at h ⊢
  simp only at h ⊢
  rw [hpid, hdetached, hexit]
  exact h

theorem Balanced.map {o : Option JoinThread} {f : JoinThread → JoinThread} (h : Balanced thid o a)
    (hf : ∀ t, (f t).pid = t.pid ∧ (f t).detached = t.detached ∧ (f t).exit = t.exit) :
    Balanced thid (o.map f) a := by
  cases o with
  | none => exact h
  | some t => exact h.congr (hf t).1 (hf t).2.1 (hf t).2.2

/-- A pending notification is the one of the thread, which is not detached and has exited. -/
theorem Balanced.of_mem {o : Option JoinThread} {n : SchedNotif} (h : Balanced thid o a)
    (hn : n ∈ a.notifs) : ∃ t r, o = some t ∧ t.detached = false ∧ t.exit = some r ∧
      n = ⟨.SHN_THREAD_DEAD, t.pid, thid, r⟩ ∧ a = ⟨[n], [], 0⟩ := by
  cases o with
  | none =>
    obtain rfl : a = noAccount := h
    cases hn
  | some t =>
    unfold Balanced at h
    simp only at h
    split at h
    · rw [h.1] at hn
      cases hn
    · rename_i hdetached
      split at h
      · subst h
        cases hn
      · rename_i r hexit
        rcases h with rfl | rfl
        · obtain rfl := List.mem_singleton.1 hn
          exact ⟨t, r, rfl, Bool.eq_false_iff.2 hdetached, hexit, rfl, rfl⟩
        · cases hn

theorem Balanced.once {o : Option JoinThread} (h : Balanced thid o a) :
    a.joins.length + a.detaches ≤ 1 := by
  cases o with
  | none =>
    obtain rfl : a = noAccount := h
    exact Nat.zero_le 1
  | some t =>
    unfold Balanced at h
    simp only at h
    split at h
    · rw [h.2.1, List.length_nil, Nat.zero_add]
      exact h.2.2
    · split at h
      · subst h
        exact Nat.zero_le 1
      · rcases h with rfl | rfl
        · exact Nat.zero_le 1
        · exact Nat.le_refl _

theorem JoinState.Kept.right (h : s.Kept) : s.Right where
  consumed thid t r ht hdetached hexit := by
    have hb := h.balanced thid
    rw [ht] at hb
    unfold Balanced at hb
    simpa only [hdetached, hexit, Bool.false_eq_true, if_false] using hb
  once thid := (h.balanced thid).once
  detached thid t ht hdetached := by
    have hb := h.balanced thid
    rw [ht] at hb
    unfold Balanced at hb
    simp only [hdetached, if_true] at hb
    exact hb.1
  schedLock := h.schedLock
  notifLock := h.notifLock
  interrupts := h.interrupts

end Account

/-! ## Threads -/

section Threads

variable {s s' : JoinState} {thid caller x : ℕ} {t me : JoinThread} {f : JoinThread → JoinThread}

theorem JoinState.running_spec (h : s.running caller = some me) :
    s.threads caller = some me ∧ me.exit = none := by
  obtain ⟨ht, hrun⟩ := Option.filter_eq_some_iff.1 h
  rw [Bool.and_eq_true, Option.isNone_iff_eq_none] at hrun
  exact ⟨ht, hrun.2⟩

theorem JoinState.find_spec {pid : ℕ} (h : s.find pid thid = some t) :
    s.threads thid = some t ∧ t.pid = pid := by
  obtain ⟨ht, hfind⟩ := Option.filter_eq_some_iff.1 h
  rw [Bool.and_eq_true, beq_iff_eq] at hfind
  exact ⟨ht, hfind.2⟩

theorem acquireNotif_spec (h : s.acquireNotif = some s') :
    s.notifLock = false ∧ s' = { s with notifLock := true } := by
  obtain ⟨hfree, h⟩ := Option.ite_none_left_eq_some.1 h
  exact ⟨Bool.eq_false_iff.2 hfree, (Option.some.inj h).symm⟩

theorem lockSched_spec (h : s.lockSched = some s') :
    s.schedLock = false ∧ s' = { s with schedLock := true } := by
  obtain ⟨hfree, h⟩ := Option.ite_none_left_eq_some.1 h
  exact ⟨Bool.eq_false_iff.2 hfree, (Option.some.inj h).symm⟩

theorem threads_modify_self : (s.modify x f).threads x = (s.threads x).map f :=
  Function.update_self ..

theorem threads_modify_ne (h : thid ≠ x) : (s.modify x f).threads thid = s.threads thid :=
  Function.update_of_ne h ..

/-- A step that changes one thread, and the account of no other. -/
theorem JoinState.Kept.change (h : s.Kept)
    (hne : ∀ thid, thid ≠ x → s'.threads thid = s.threads thid ∧ s'.account thid = s.account thid ∧
      (s.interrupts thid = true → s'.interrupts thid = true))
    (hx : Balanced x (s'.threads x) (s'.account x)) (hlt : x < s'.nextPid)
    (hle : s.nextPid ≤ s'.nextPid) (hsched : s'.schedLock = false) (hnotif : s'.notifLock = false)
    (hint : ∀ t, s'.threads x = some t → t.terminated = false → s'.interrupts x = true) :
    s'.Kept where
  balanced thid := by
    by_cases he : thid = x
    · rwa [he]
    · rw [(hne thid he).1, (hne thid he).2.1]
      exact h.balanced thid
  fresh thid hthid := by
    have he : thid ≠ x := by omega
    rw [(hne thid he).1]
    exact h.fresh thid (by omega)
  schedLock := hsched
  notifLock := hnotif
  interrupts thid t ht hterm := by
    by_cases he : thid = x
    · subst he
      exact hint t ht hterm
    · rw [(hne thid he).1] at ht
      exact (hne thid he).2.2 (h.interrupts thid t ht hterm)

theorem JoinState.Kept.lt (h : s.Kept) (ht : s.threads thid = some t) : thid < s.nextPid := by
  by_contra hge
  rw [h.fresh thid (Nat.le_of_not_lt hge)] at ht
  cases ht

/-- Nothing happens but that interrupts are enabled. -/
theorem JoinState.Kept.sti (h : s.Kept) (caller : ℕ) : (s.sti caller).Kept :=
  { h with
    balanced := h.balanced
    interrupts := by
      intro thid t ht hterm
      by_cases he : thid = caller
      · subst he
        exact Function.update_self ..
      · exact (Function.update_of_ne he ..).trans (h.interrupts thid t ht hterm) }

/-- A step that sets flags of a thread which do not matter for its account. -/
theorem JoinState.Kept.modify (h : s.Kept) (ht : s.threads x = some t)
    (hf : ∀ t, (f t).pid = t.pid ∧ (f t).detached = t.detached ∧ (f t).exit = t.exit)
    (hterm : (f t).terminated = false → t.terminated = false) : (s.modify x f).Kept := by
  refine h.change (fun thid he => ⟨threads_modify_ne he, rfl, id⟩) ?_ (h.lt ht) (Nat.le_refl _)
    h.schedLock h.notifLock ?_
  · rw [threads_modify_self]
    exact (h.balanced x).map hf
  · intro t' ht' hfalse
    rw [threads_modify_self, ht] at ht'
    obtain rfl : f t = t' := Option.some.inj ht'
    exact h.interrupts x t ht (hterm hfalse)

end Threads

/-! ## The steps -/

section Steps

variable {s s' : JoinState} {caller thid retval : ℕ} {t me : JoinThread}

theorem JoinState.Kept.create {detached : Bool} (h : s.Kept) (hs : s.create caller detached = some s') :
    s'.Kept := by
  obtain ⟨me, -, hs⟩ := Option.bind_eq_some_iff.1 hs
  obtain rfl := Option.some.inj hs
  have hnew := h.balanced s.nextPid
  rw [h.fresh s.nextPid (Nat.le_refl _)] at hnew
  have haccount : s.account s.nextPid = noAccount := hnew
  have hself : Function.update s.threads s.nextPid (some ⟨me.pid, detached, none, false, true⟩)
      s.nextPid = some ⟨me.pid, detached, none, false, true⟩ := Function.update_self ..
  refine h.change (x := s.nextPid) (fun thid he => ⟨Function.update_of_ne he .., rfl, ?_⟩) ?_
    (Nat.lt_succ_self _) (Nat.le_succ _) h.schedLock h.notifLock ?_
  · intro hint
    exact (Function.update_of_ne he ..).trans hint
  · show Balanced _ (Function.update s.threads s.nextPid _ s.nextPid) (s.account s.nextPid)
    rw [hself, haccount]
    cases detached with
    | true => exact ⟨rfl, rfl, Nat.zero_le 1⟩
    | false => exact rfl
  · intro t _ _
    exact Function.update_self ..

/-- `threadExitEx` for a thread that is detached, or not. -/
theorem Balanced.exit {a : Account} (h : Balanced thid (some t) a) (hexit : t.exit = none) (r : ℕ) :
    Balanced thid (some { t with exit := some r })
      { a with notifs :=
          if t.detached then a.notifs else ⟨.SHN_THREAD_DEAD, t.pid, thid, r⟩ :: a.notifs } := by
  unfold Balanced at h ⊢
  simp only at h ⊢
  split
  · rename_i hdetached
    rw [if_pos hdetached] at h
    exact h
  · rename_i hdetached
    rw [if_neg hdetached, hexit] at h
    obtain rfl : a = noAccount := h
    left
    rfl

/-- Put a notification of the end of `caller` in front, or none. -/
theorem account_cons (b : Bool) (pid caller r thid : ℕ) (l : List SchedNotif) :
    (if b then l else ⟨.SHN_THREAD_DEAD, pid, caller, r⟩ :: l).filter (isFrom thid) =
      if b = true ∨ thid ≠ caller then l.filter (isFrom thid)
      else ⟨.SHN_THREAD_DEAD, pid, caller, r⟩ :: l.filter (isFrom thid) := by
  cases b with
  | true => rfl
  | false =>
    simp only [Bool.false_eq_true, if_false, false_or]
    by_cases he : thid = caller
    · have hfrom : isFrom thid ⟨.SHN_THREAD_DEAD, pid, caller, r⟩ = true :=
        decide_eq_true ⟨rfl, he.symm⟩
      rw [if_neg (not_not.2 he), List.filter_cons_of_pos hfrom]
    · rw [if_pos he, List.filter_cons_of_neg]
      intro hfrom
      exact he (of_decide_eq_true hfrom).2.symm

theorem JoinState.Kept.exit (h : s.Kept) (hs : s.threadExitEx caller retval = some s') : s'.Kept := by
  obtain ⟨me, hme, hs⟩ := Option.bind_eq_some_iff.1 hs
  obtain ⟨s₁, hlock, hs⟩ := Option.bind_eq_some_iff.1 hs
  obtain ⟨-, rfl⟩ := acquireNotif_spec hlock
  obtain ⟨ht, hexit⟩ := JoinState.running_spec hme
  obtain rfl := Option.some.inj hs
  have hb := h.balanced caller
  rw [ht] at hb
  have hself : Function.update s.threads caller ((s.threads caller).map fun t =>
      { t with exit := some retval }) caller = some { me with exit := some retval } := by
    rw [Function.update_self, ht]
    rfl
  refine h.change (x := caller) (fun thid he => ⟨Function.update_of_ne he .., ?_, id⟩) ?_ (h.lt ht)
    (Nat.le_refl _) h.schedLock rfl ?_
  · have hcons := account_cons me.detached me.pid caller retval thid s.notifs
    rw [if_pos (Or.inr he)] at hcons
    exact congrArg (fun l => Account.mk l _ _) hcons
  · show Balanced caller (Function.update s.threads caller _ caller) (Account.mk
      ((if me.detached then s.notifs else _ :: s.notifs).filter (isFrom caller)) _ _)
    rw [hself, account_cons]
    simp only [ne_eq, not_true_eq_false, or_false]
    exact hb.exit hexit retval
  · intro t' ht' hterm
    obtain rfl := Option.some.inj (hself.symm.trans ht')
    exact h.interrupts caller me ht hterm

theorem JoinState.Kept.terminate (h : s.Kept) (hs : s.terminate caller = some s') : s'.Kept := by
  obtain ⟨me, ht, hs⟩ := Option.bind_eq_some_iff.1 hs
  obtain ⟨-, hs⟩ := Option.ite_none_right_eq_some.1 hs
  obtain ⟨s₁, hlock, hs⟩ := Option.bind_eq_some_iff.1 hs
  obtain ⟨-, rfl⟩ := lockSched_spec hlock
  obtain rfl := Option.some.inj hs
  have hself : Function.update s.threads caller ((s.threads caller).map fun t =>
      { t with terminated := true }) caller = some { me with terminated := true } := by
    rw [Function.update_self, ht]
    rfl
  refine h.change (x := caller) (fun thid he => ⟨Function.update_of_ne he .., rfl, ?_⟩) ?_ (h.lt ht)
    (Nat.le_refl _) rfl h.notifLock ?_
  · intro hint
    exact (Function.update_of_ne he ..).trans hint
  · show Balanced caller (Function.update s.threads caller ((s.threads caller).map fun t =>
      { t with terminated := true }) caller) (s.account caller)
    rw [hself]
    have hb := h.balanced caller
    rw [ht] at hb
    exact hb.congr rfl rfl rfl
  · intro t' ht' hterm
    obtain rfl := Option.some.inj (hself.symm.trans ht')
    cases hterm

theorem JoinState.Kept.cleanup (h : s.Kept) (hs : s.sysManFunc thid = some s') : s'.Kept := by
  obtain ⟨t, ht, hs⟩ := Option.bind_eq_some_iff.1 hs
  obtain ⟨-, hs⟩ := Option.ite_none_right_eq_some.1 hs
  obtain ⟨s₁, hlock, hs⟩ := Option.bind_eq_some_iff.1 hs
  obtain ⟨-, rfl⟩ := lockSched_spec hlock
  obtain rfl := Option.some.inj hs
  have hmod := h.modify (f := fun t => { t with listed := false }) ht (fun t => ⟨rfl, rfl, rfl⟩) id
  exact { hmod with schedLock := rfl }

theorem isFrom_of_isNotifOf {pid : ℕ} {n : SchedNotif} (h : isNotifOf pid thid n = true) :
    isFrom thid n = true := by
  simp only [isNotifOf, isFrom, decide_eq_true_eq] at h ⊢
  exact h.2

theorem not_isFrom_of_isNotifOf {pid other : ℕ} {n : SchedNotif} (hne : other ≠ thid)
    (h : isNotifOf pid thid n = true) : isFrom other n = false := by
  simp only [isNotifOf, isFrom, decide_eq_true_eq, decide_eq_false_iff_not] at h ⊢
  exact fun hn => hne (hn.2.symm.trans h.2.2)

/-- The notification that a call finds for a thread. -/
theorem JoinState.Kept.find_notif {pid : ℕ} {n : SchedNotif} (h : s.Kept)
    (hn : s.notifs.find? (isNotifOf pid thid) = some n) : ∃ t r, s.threads thid = some t ∧
      t.detached = false ∧ t.exit = some r ∧ n = ⟨.SHN_THREAD_DEAD, t.pid, thid, r⟩ ∧
        s.account thid = ⟨[n], [], 0⟩ ∧ isNotifOf pid thid n = true := by
  have hp : isNotifOf pid thid n = true := List.find?_some hn
  have hmem : n ∈ (s.account thid).notifs :=
    List.mem_filter.2 ⟨List.mem_of_find?_eq_some hn, isFrom_of_isNotifOf hp⟩
  obtain ⟨t, r, ht, hdetached, hexit, hval, haccount⟩ := (h.balanced thid).of_mem hmem
  exact ⟨t, r, ht, hdetached, hexit, hval, haccount, hp⟩

/-- A turn of `joinThread` that takes no notification changes nothing but interrupts. -/
theorem joinThread_cases {signalled : Bool} {r : JoinResult}
    (hs : s.joinThread caller thid signalled = some (r, s')) : ∃ me, s.running caller = some me ∧
      (s' = s ∨
        (∃ n, s.notifs.find? (isNotifOf me.pid thid) = some n ∧
          s' = { s with
            notifs := s.notifs.eraseP (isNotifOf me.pid thid)
            joins := (thid, n.info) :: s.joins
            notifLock := false }) ∨
        s' = { s.sti caller with schedLock := false, notifLock := false }) := by
  obtain ⟨me, hme, hs⟩ := Option.bind_eq_some_iff.1 hs
  refine ⟨me, hme, ?_⟩
  split at hs
  · left
    exact (Prod.mk.inj (Option.some.inj hs)).2.symm
  · right
    obtain ⟨s₁, hlock, hs⟩ := Option.bind_eq_some_iff.1 hs
    obtain ⟨-, rfl⟩ := acquireNotif_spec hlock
    split at hs
    · rename_i n hn
      left
      exact ⟨n, hn, (Prod.mk.inj (Option.some.inj hs)).2.symm⟩
    · right
      obtain ⟨s₂, hsched, hs⟩ := Option.bind_eq_some_iff.1 hs
      obtain ⟨-, rfl⟩ := lockSched_spec hsched
      obtain ⟨s₃, hsched, hs⟩ := Option.bind_eq_some_iff.1 hs
      obtain ⟨-, rfl⟩ := lockSched_spec hsched
      obtain rfl := (Prod.mk.inj (Option.some.inj hs)).2
      unfold JoinState.sti JoinState.cli JoinState.unlockSched JoinState.releaseNotif
      simp only [Function.update_idem]

theorem JoinState.Kept.join {signalled : Bool} {r : JoinResult} (h : s.Kept)
    (hs : s.joinThread caller thid signalled = some (r, s')) : s'.Kept := by
  obtain ⟨me, hme, rfl | ⟨n, hn, rfl⟩ | rfl⟩ := joinThread_cases hs
  · exact h
  · obtain ⟨t, r, ht, hdetached, hexit, rfl, haccount, hp⟩ := h.find_notif hn
    refine h.change (x := thid) (fun other he => ⟨rfl, ?_, id⟩) ?_ (h.lt ht) (Nat.le_refl _)
      h.schedLock rfl (h.interrupts thid)
    · have hjoin : decide (((thid, r) : ℕ × ℕ).1 = other) = false := decide_eq_false (Ne.symm he)
      show Account.mk ((s.notifs.eraseP (isNotifOf me.pid thid)).filter (isFrom other))
        (((thid, r) :: s.joins).filter fun x => x.1 = other) _ = _
      rw [filter_eraseP_of_disjoint fun n hp => not_isFrom_of_isNotifOf he hp,
        List.filter_cons_of_neg (by rw [hjoin]; exact nofun)]
      rfl
    · show Balanced thid (s.threads thid) (Account.mk
        ((s.notifs.eraseP (isNotifOf me.pid thid)).filter (isFrom thid))
          (((thid, r) :: s.joins).filter fun x => x.1 = thid) (s.detaches.count thid))
      have hnotifs : s.notifs.filter (isFrom thid) = [⟨.SHN_THREAD_DEAD, t.pid, thid, r⟩] :=
        congrArg Account.notifs haccount
      have hjoins : s.joins.filter (fun x => x.1 = thid) = [] := congrArg Account.joins haccount
      have hdet : s.detaches.count thid = 0 := congrArg Account.detaches haccount
      rw [filter_eraseP_of_imp fun n => isFrom_of_isNotifOf, hnotifs, List.eraseP_cons_of_pos hp,
        List.filter_cons_of_pos (p := fun x : ℕ × ℕ => decide (x.1 = thid)) (decide_eq_true rfl),
        hjoins, hdet, ht]
      unfold Balanced
      simp only [hdetached, hexit, Bool.false_eq_true, if_false]
      right
      trivial
  · exact { h.sti caller with schedLock := rfl, notifLock := rfl }

/-- `detachThread`, if it finds only threads that have not exited. -/
theorem detachThread_cases {r : DetachResult} (h : s.Kept)
    (hrun : s.DetachesRunning (.detach caller thid))
    (hs : s.detachThread caller thid = some (r, s')) :
    s' = { s.sti caller with schedLock := false, notifLock := false } ∨
      ∃ t, s.threads thid = some t ∧ t.detached = false ∧ t.exit = none ∧
        s' = { (s.modify thid fun t => { t with detached := true }).sti caller with
          schedLock := false, notifLock := false, detaches := thid :: s.detaches } := by
  obtain ⟨me, hme, hs⟩ := Option.bind_eq_some_iff.1 hs
  obtain ⟨s₁, hlock, hs⟩ := Option.bind_eq_some_iff.1 hs
  obtain ⟨-, rfl⟩ := acquireNotif_spec hlock
  obtain ⟨s₂, hsched, hs⟩ := Option.bind_eq_some_iff.1 hs
  obtain ⟨-, rfl⟩ := lockSched_spec hsched
  split at hs
  · left
    obtain rfl := (Prod.mk.inj (Option.some.inj hs)).2
    unfold JoinState.sti JoinState.cli JoinState.unlockSched JoinState.releaseNotif
    simp only [Function.update_idem]
  · rename_i t hfind
    have hexit := hrun me (JoinState.running_spec hme).1 t hfind
    have ht : s.threads thid = some t := (JoinState.find_spec hfind).1
    split at hs
    · left
      obtain rfl := (Prod.mk.inj (Option.some.inj hs)).2
      unfold JoinState.sti JoinState.cli JoinState.unlockSched JoinState.releaseNotif
      simp only [Function.update_idem]
    · rename_i hdetached
      have hdetached := Bool.eq_false_iff.2 hdetached
      right
      refine ⟨t, ht, hdetached, hexit hdetached, ?_⟩
      simp only at hs
      split at hs
      · rename_i n hn
        -- a thread that has not exited has no notification
        obtain ⟨t', r', ht', -, hexit', -⟩ := h.find_notif hn
        obtain rfl := Option.some.inj (ht.symm.trans ht')
        rw [hexit hdetached] at hexit'
        cases hexit'
      · obtain rfl := (Prod.mk.inj (Option.some.inj hs)).2
        unfold JoinState.sti JoinState.cli JoinState.unlockSched JoinState.releaseNotif
          JoinState.modify
        simp only [Function.update_idem]

theorem JoinState.Kept.detach {r : DetachResult} (h : s.Kept)
    (hrun : s.DetachesRunning (.detach caller thid))
    (hs : s.detachThread caller thid = some (r, s')) : s'.Kept := by
  obtain rfl | ⟨t, ht, hdetached, hexit, rfl⟩ := detachThread_cases h hrun hs
  · exact { h.sti caller with schedLock := rfl, notifLock := rfl }
  · have hb := h.balanced thid
    rw [ht] at hb
    unfold Balanced at hb
    simp only [hdetached, hexit, Bool.false_eq_true, if_false] at hb
    have hnotifs : s.notifs.filter (isFrom thid) = [] := congrArg Account.notifs hb
    have hjoins : s.joins.filter (fun x => x.1 = thid) = [] := congrArg Account.joins hb
    have hdet : s.detaches.count thid = 0 := congrArg Account.detaches hb
    have hself : (s.modify thid fun t => { t with detached := true }).threads thid =
        some { t with detached := true } := by
      rw [threads_modify_self, ht]
      rfl
    have hsti := h.sti caller
    refine hsti.change (x := thid) (fun other he => ⟨threads_modify_ne he, ?_, id⟩) ?_ (h.lt ht)
      (Nat.le_refl _) rfl rfl ?_
    · show Account.mk _ _ ((thid :: s.detaches).count other) = _
      rw [List.count_cons_of_ne (Ne.symm he)]
      rfl
    · show Balanced thid ((s.modify thid _).threads thid) (Account.mk (s.notifs.filter (isFrom thid))
        (s.joins.filter fun x => x.1 = thid) ((thid :: s.detaches).count thid))
      rw [hself, hnotifs, hjoins, List.count_cons_self, hdet]
      exact ⟨rfl, rfl, Nat.le_refl 1⟩
    · intro t' ht' hterm
      obtain rfl := Option.some.inj (hself.symm.trans ht')
      exact hsti.interrupts thid t ht hterm

theorem JoinState.Kept.step {op : JoinOp} (h : s.Kept) (hrun : s.DetachesRunning op)
    (hs : s.step op = some s') : s'.Kept := by
  cases op with
  | create caller detached => exact h.create hs
  | exit caller retval => exact h.exit hs
  | terminate caller => exact h.terminate hs
  | cleanup thid => exact h.cleanup hs
  | join caller thid signalled =>
    obtain ⟨r, hjoin, rfl⟩ := Option.map_eq_some_iff.1 hs
    exact h.join hjoin
  | detach caller thid =>
    obtain ⟨r, hdetach, rfl⟩ := Option.map_eq_some_iff.1 hs
    exact h.detach hrun hdetach

theorem joinInit_kept {pids : List ℕ} {nextPid : ℕ} (hlt : ∀ pid ∈ pids, pid < nextPid) :
    (joinInit pids nextPid).Kept where
  balanced thid := by
    show Balanced thid (firstThreads pids thid) noAccount
    unfold firstThreads
    split
    · exact rfl
    · exact rfl
  fresh thid hthid := if_neg fun hmem => absurd (hlt thid hmem) (Nat.not_lt.2 hthid)
  schedLock := rfl
  notifLock := rfl
  interrupts _ _ _ _ := rfl

end Steps

/-- If only threads that have not exited are found by `detachThread`, then every return value is consumed
once and the locks are free. -/
theorem joined_once {s : JoinState} (h : joinSystem.ReachesBy JoinState.DetachesRunning s) :
    s.Right := by
  apply JoinState.Kept.right
  apply h.invariant
  · rintro s ⟨pids, nextPid, hlt, rfl⟩
    exact joinInit_kept hlt
  · intro s op s' hk hrun hs
    exact hk.step hrun hs

/-! ## Some runs -/

section Runs

/-- One process, whose first thread is 1. -/
theorem joinInit_one : joinSystem.init (joinInit [1] 2) := ⟨[1], 2, by decide, rfl⟩

/-- A thread is created, exits with 7, is joined and cleaned up; a second one is detached and exits. -/
theorem joined_once_seven : ∃ s : JoinState, s.Right ∧ s.joins = [(2, 7)] ∧ s.detaches = [3] := by
  have hrun : (System.execBy JoinState.DetachesRunning JoinState.step (joinInit [1] 2)
      [.create 1 false, .join 1 2 false, .exit 2 7, .join 1 2 false, .terminate 2, .cleanup 2,
        .create 1 false, .detach 1 3, .exit 3 8]).any
        (fun s => s.joins = [(2, 7)] ∧ s.detaches = [3]) = true := by
    decide
  obtain ⟨s, hs, hend⟩ := (Option.any_eq_true ..).1 hrun
  exact ⟨s, joined_once (System.ReachesBy.execBy (fun _ _ _ h => h) (.init joinInit_one) hs),
    of_decide_eq_true hend⟩

/-- A thread that has exited is detached before it is cleaned up: `schedLock` stays taken. -/
theorem detach_exited : ∃ s : JoinState, joinSystem.Reachable s ∧ s.schedLock = true ∧
    s.interrupts 1 = false := by
  have hrun : (System.execBy (fun _ _ => True) JoinState.step (joinInit [1] 2)
      [.create 1 false, .exit 2 7, .detach 1 2]).any
        (fun s => s.schedLock = true ∧ s.interrupts 1 = false) = true := by
    decide
  obtain ⟨s, hs, hend⟩ := (Option.any_eq_true ..).1 hrun
  exact ⟨s, System.ReachesBy.execBy (fun _ _ _ h => h) (.init joinInit_one) hs,
    of_decide_eq_true hend⟩

/-- A thread that has been joined is detached as well, before it is cleaned up. -/
theorem joined_and_detached : ∃ s : JoinState, joinSystem.Reachable s ∧ s.joins = [(2, 7)] ∧
    s.detaches = [2] := by
  have hrun : (System.execBy (fun _ _ => True) JoinState.step (joinInit [1] 2)
      [.create 1 false, .exit 2 7, .join 1 2 false, .detach 1 2]).any
        (fun s => s.joins = [(2, 7)] ∧ s.detaches = [2]) = true := by
    decide
  obtain ⟨s, hs, hend⟩ := (Option.any_eq_true ..).1 hrun
  exact ⟨s, System.ReachesBy.execBy (fun _ _ _ h => h) (.init joinInit_one) hs,
    of_decide_eq_true hend⟩

end Runs

end Glidix.Thread.Join
