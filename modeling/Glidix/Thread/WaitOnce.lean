import Glidix.Thread.JoinOnce
import Glidix.Thread.ProcessWait

/-!
# Every dead child is reported once

If no thread calls `exec` while a notification of a dead child of its process is pending, each process that
dies under a living parent is reported to it once, with its status, or waits to be.  Its parent never gets a
`SIGCHLD`, since `canSendSignal` does not know that signal.
-/

namespace Glidix.Thread.Wait

open Kill

variable {s s' : WaitState} {p q c : ℕ+} {currentTime : ℕ}

/-! ## No SIGCHLD -/

theorem canSendSignal_child (creds : ℕ+ → Creds) (src dst : KillThread) (noperm : Bool) :
    canSendSignal creds src dst SIGCHLD noperm = false := by
  have hnot : sendable SIGCHLD = false := by decide
  unfold canSendSignal
  rw [if_neg fun h => absurd h.1 (by decide), if_pos (by rw [hnot]; exact Bool.false_ne_true)]

theorem zipWith_kill (threads : List WaitThread) :
    List.zipWith (fun (t : WaitThread) kill => { t with kill }) threads (threads.map (·.kill)) =
      threads := by
  induction threads with
  | nil => rfl
  | cons t threads ih => rw [List.map_cons, List.zipWith_cons_cons, ih]

/-- The signal for a dead child reaches nobody. -/
theorem sendChild_eq (s : WaitState) (currentTime : ℕ) (p q : ℕ+) :
    s.sendChild currentTime p q = some s := by
  obtain ⟨errno, hloop⟩ := @signalLoop_denied s.creds sysMan q (childInfo p (s.creds p).ruid (s.status p))
    (sysMan :: s.threads.map (·.kill)) ⟨[], -1, .ESRCH⟩ currentTime true
    fun t => canSendSignal_child _ _ t _
  have hanswer : ∃ a, (⟨sysMan, s.threads.map (·.kill), s.creds, s.notifs⟩ : KillState).signalPidEx
      currentTime q (some (childInfo p (s.creds p).ruid (s.status p))) true = some a ∧
      a.threads = sysMan :: s.threads.map (·.kill) := by
    rw [KillState.signalPidEx, KillState.signalPidUnlocked, KillState.threads, hloop]
    simp only [Option.bind_eq_bind, Option.bind_some]
    split <;> exact ⟨_, rfl, rfl⟩
  obtain ⟨a, ha, hthreads⟩ := hanswer
  rw [WaitState.sendChild, ha]
  simp only [Option.bind_eq_bind, Option.bind_some, hthreads, List.tail_cons, zipWith_kill,
    KillState.threads, received_self, if_true]

/-! ## Accounts -/

/-- The notification is about the end of the process. -/
def isDeathOf (c : ℕ+) (notif : SchedNotif) : Bool :=
  notif.type = .SHN_PROCESS_DEAD ∧ notif.source = c

/-- What the state has about the end of a process: the notifications, and those that were taken by
`processWait`, with the process that took them. -/
structure Account where
  notifs : List SchedNotif
  reports : List (ℕ+ × SchedNotif)

namespace WaitState

def account (s : WaitState) (c : ℕ+) : Account where
  notifs := s.notifs.filter (isDeathOf c)
  reports := s.reports.filter fun r => isDeathOf c r.2

end WaitState

def noAccount : Account := ⟨[], []⟩

def Death.notif (d : Death) : SchedNotif := ⟨.SHN_PROCESS_DEAD, d.parent, d.child, d.status⟩

/-- The death waits to be reported, or was reported once. -/
def Death.ReportedIn (d : Death) (a : Account) : Prop :=
  a = ⟨[d.notif], []⟩ ∨ a = ⟨[], [(d.parent, d.notif)]⟩

theorem Death.ReportedIn.of_sublist {d : Death} {a a' : Account} (h : d.ReportedIn a)
    (hreports : a'.reports = a.reports) (hsub : a'.notifs.Sublist a.notifs)
    (hmem : d.notif ∈ a.notifs → d.notif ∈ a'.notifs) : d.ReportedIn a' := by
  rcases h with rfl | rfl
  · have hpos := List.length_pos_of_mem (hmem (List.mem_singleton_self _))
    exact .inl (congrArg₂ Account.mk (hsub.eq_of_length_le hpos) hreports)
  · exact .inr (congrArg₂ Account.mk (List.sublist_nil.1 hsub) hreports)

theorem isDeathOf_notif (d : Death) : isDeathOf d.child d.notif = true := by
  simp [isDeathOf, Death.notif]

namespace WaitState

/-- Each process that died under a parent which is still alive is reported by one `processWait` of the
parent, with its status, or waits to be; then a `processWait` of the parent for it succeeds.  No process is
reported twice. -/
structure Reported (s : WaitState) : Prop where
  reported : ∀ d ∈ s.deaths, s.alive d.parent = true → d.ReportedIn (s.account d.child)
  once : ∀ c, (s.account c).notifs.length + (s.account c).reports.length ≤ 1
  waits : ∀ d ∈ s.deaths, s.alive d.parent = true → s.account d.child = ⟨[d.notif], []⟩ →
    ∀ caller me, s.running caller = some (me, d.parent) →
      ∃ s', s.processWait caller d.child = some (.reaped d.child d.status, s')

/-- For each process that died under a living parent, the parent got a `SIGCHLD`. -/
def Signalled (s : WaitState) : Prop := ∀ d ∈ s.deaths, d.child ∈ s.sigchlds

/-- What every step keeps. -/
structure Kept (s : WaitState) : Prop where
  fresh : ∀ p, s.listed p = true → p < s.nextPid
  unborn : ∀ c, s.listed c = true ∨ s.nextPid ≤ c → s.account c = noAccount
  once : ∀ c, (s.account c).notifs.length + (s.account c).reports.length ≤ 1
  deaths : ∀ d ∈ s.deaths, d.child < s.nextPid ∧ d.parent < s.nextPid ∧ s.listed d.child = false ∧
    (s.alive d.parent = true → d.ReportedIn (s.account d.child))
  sigchlds : s.sigchlds = []

/-- No thread calls `exec` while a notification of a dead child of its process is pending. -/
def Fits (s : WaitState) : WaitOp → Prop
  | .exec _ caller => ∀ x ∈ s.running caller, ∀ notif ∈ s.notifs,
      notif.type = .SHN_PROCESS_DEAD → notif.dest ≠ x.2
  | _ => True

instance (s : WaitState) : DecidablePred s.Fits
  | .exec _ caller => inferInstanceAs (Decidable (∀ x ∈ s.running caller, ∀ notif ∈ s.notifs,
      notif.type = .SHN_PROCESS_DEAD → notif.dest ≠ x.2))
  | .fork .. | .clone .. | .exit .. | .threadExit .. | .cleanup .. | .wait .. | .takeThread ..
  | .signals .. => inferInstanceAs (Decidable True)

/-- A step that reports nobody and in which nobody dies. -/
theorem Kept.quiet (h : s.Kept) (hnext : s.nextPid ≤ s'.nextPid)
    (hlisted : ∀ p, s'.listed p = true → p < s'.nextPid ∧ (s.listed p = true ∨ s.nextPid ≤ p))
    (halive : ∀ p, p < s.nextPid → s'.alive p = true → s.alive p = true)
    (hdeaths : s'.deaths = s.deaths) (hsigchlds : s'.sigchlds = s.sigchlds)
    (hreports : s'.reports = s.reports)
    (hnotifs : ∀ c, ((s'.account c).notifs).Sublist (s.account c).notifs)
    (hkept : ∀ d ∈ s.deaths, s'.alive d.parent = true → d.notif ∈ s.notifs → d.notif ∈ s'.notifs) :
    s'.Kept := by
  have hreports' : ∀ c, (s'.account c).reports = (s.account c).reports := fun c => by
    unfold account
    rw [hreports]
  refine ⟨fun p hp => (hlisted p hp).1, fun c hc => ?_, fun c => ?_, fun d hd => ?_, by
    rw [hsigchlds, h.sigchlds]⟩
  · have hnone : s.account c = noAccount := by
      refine h.unborn c (hc.elim (fun hl => (hlisted c hl).2) fun hc => .inr (le_trans hnext hc))
    have hsub := hnotifs c
    rw [hnone] at hsub
    have hrep := hreports' c
    rw [hnone] at hrep
    exact congrArg₂ Account.mk (List.sublist_nil.1 hsub) hrep
  · rw [hreports']
    exact le_trans (Nat.add_le_add_right (hnotifs c).length_le _) (h.once c)
  · rw [hdeaths] at hd
    obtain ⟨hchild, hparent, hlist, hrep⟩ := h.deaths d hd
    refine ⟨lt_of_lt_of_le hchild hnext, lt_of_lt_of_le hparent hnext, ?_, fun ha => ?_⟩
    · refine Bool.eq_false_iff.2 fun hl => ?_
      rcases (hlisted _ hl).2 with hl | hge
      · exact Bool.eq_false_iff.1 hlist hl
      · exact absurd hchild (not_lt_of_ge hge)
    · refine (hrep (halive _ hparent ha)).of_sublist (hreports' _) (hnotifs _) fun hmem => ?_
      exact List.mem_filter.2 ⟨hkept d hd ha (List.mem_of_mem_filter hmem), isDeathOf_notif d⟩

/-! ## Threads -/

section Threads

variable {caller thid : ℕ+} {me t : WaitThread} {f : WaitThread → WaitThread}

theorem running_spec (h : s.running caller = some (me, p)) :
    me ∈ s.threads ∧ me.of p = true ∧ me.terminated = false := by
  obtain ⟨t, ht, h⟩ := Option.bind_eq_some_iff.1 h
  obtain ⟨q, hq, h⟩ := Option.bind_eq_some_iff.1 h
  obtain ⟨rfl, rfl⟩ := Prod.mk.inj (Option.some.inj h)
  have hfind := List.find?_some ht
  rw [Bool.and_eq_true, Bool.not_eq_true'] at hfind
  exact ⟨List.mem_of_find?_eq_some ht, decide_eq_true hq, hfind.2⟩

theorem listed_iff : s.listed p = true ↔ ∃ t ∈ s.threads, t.of p = true := List.any_eq_true

theorem alive_iff : s.alive p = true ↔
    s.exiting p = false ∧ ∃ t ∈ s.threads, t.of p = true ∧ t.terminated = false := by
  rw [alive, Bool.and_eq_true, Bool.not_eq_true', List.any_eq_true]
  simp only [Bool.and_eq_true, Bool.not_eq_true']

theorem listed_of_alive (h : s.alive p = true) : s.listed p = true := by
  obtain ⟨-, t, ht, hp, -⟩ := alive_iff.1 h
  exact listed_iff.2 ⟨t, ht, hp⟩

theorem listed_of_map (h : s'.threads = s.threads.map f) (hf : ∀ t p, (f t).of p = t.of p) (p : ℕ+) :
    s'.listed p = s.listed p := by
  rw [listed, listed, h, List.any_map]
  exact congrArg _ (funext fun t => hf t p)

theorem alive_of_map (h : s'.threads = s.threads.map f) (hf : ∀ t p, (f t).of p = t.of p)
    (hterm : ∀ t, (f t).terminated = false → t.terminated = false)
    (hexit : s'.exiting p = false → s.exiting p = false) (ha : s'.alive p = true) :
    s.alive p = true := by
  obtain ⟨he, t, ht, hp, hrun⟩ := alive_iff.1 ha
  rw [h] at ht
  obtain ⟨u, hu, rfl⟩ := List.mem_map.1 ht
  exact alive_iff.2 ⟨hexit he, u, hu, hf u p ▸ hp, hterm u hrun⟩

/-- A step that changes the signals of threads, lets threads terminate and takes notifications away. -/
theorem Kept.quiet_map (h : s.Kept) (hthreads : s'.threads = s.threads.map f)
    (hf : ∀ t p, (f t).of p = t.of p) (hterm : ∀ t, (f t).terminated = false → t.terminated = false)
    (hnext : s'.nextPid = s.nextPid)
    (hexit : ∀ p, s'.exiting p = false → s.exiting p = false)
    (hdeaths : s'.deaths = s.deaths) (hsigchlds : s'.sigchlds = s.sigchlds)
    (hreports : s'.reports = s.reports)
    (hnotifs : ∀ c, ((s'.account c).notifs).Sublist (s.account c).notifs)
    (hkept : ∀ d ∈ s.deaths, s'.alive d.parent = true → d.notif ∈ s.notifs → d.notif ∈ s'.notifs) :
    s'.Kept := by
  refine h.quiet hnext.ge (fun p hp => ?_) (fun p _ ha => ?_) hdeaths hsigchlds hreports hnotifs hkept
  · rw [listed_of_map hthreads hf] at hp
    exact ⟨hnext ▸ h.fresh p hp, .inl hp⟩
  · exact alive_of_map hthreads hf hterm (hexit p) ha

theorem withSig_of (t : WaitThread) (sig : SigThread) (p : ℕ+) : (t.withSig sig).of p = t.of p := rfl

theorem purge_sublist (c : ℕ+) :
    ((s.purge p).filter (isDeathOf c)).Sublist (s.notifs.filter (isDeathOf c)) :=
  List.Sublist.filter _ List.filter_sublist

theorem mem_purge {d : Death} (hd : d.notif ∈ s.notifs) (hne : d.parent ≠ p) : d.notif ∈ s.purge p := by
  refine List.mem_filter.2 ⟨hd, decide_eq_true fun h => hne (PNat.coe_inj.1 h)⟩

/-- The thread after `SIGTHKILL`, if it is another thread of the process. -/
def killed (currentTime : ℕ) (me : WaitThread) (p : ℕ+) (t : WaitThread) : WaitThread :=
  if t.of p ∧ t.thid ≠ me.thid then
    t.withSig (((t.kill.sig.sendSignal currentTime { si_signo := SIGTHKILL }).map Prod.snd).getD
      t.kill.sig)
  else t

theorem killed_of (t : WaitThread) : (killed currentTime me p t).of q = t.of q := by
  unfold killed
  split <;> rfl

theorem killed_terminated (t : WaitThread) :
    (killed currentTime me p t).terminated = t.terminated := by
  unfold killed
  split
  · cases h : t.kill.sig.sendSignal currentTime { si_signo := SIGTHKILL } with
    | none => rfl
    | some r => exact SigThread.sendSignalEx_terminated h
  · rfl

theorem Kept.exec (h : s.Kept) (hfit : s.Fits (.exec currentTime caller))
    (hs : s.exec currentTime caller = some s') : s'.Kept := by
  obtain ⟨⟨me, p⟩, hrun, hs⟩ := Option.bind_eq_some_iff.1 hs
  obtain rfl := Option.some.inj hs
  refine h.quiet_map (f := killed currentTime me p) rfl (fun t _ => killed_of t)
    (fun t ht => (killed_terminated t).symm.trans ht) rfl (fun _ h => h) rfl rfl rfl
    (fun c => purge_sublist c) fun d _ _ hd => mem_purge hd fun hp => ?_
  exact hfit _ hrun _ hd rfl (congrArg PNat.val hp)

theorem Kept.processExit (h : s.Kept) {status : ℕ}
    (hs : s.processExit currentTime caller status = some s') : s'.Kept := by
  obtain ⟨⟨me, p⟩, hrun, hs⟩ := Option.bind_eq_some_iff.1 hs
  simp only at hs
  split at hs
  · exact nomatch hs
  obtain rfl := Option.some.inj hs
  refine h.quiet_map (f := killed currentTime me p) rfl (fun t _ => killed_of t)
    (fun t ht => (killed_terminated t).symm.trans ht) rfl (fun q hq => ?_) rfl rfl rfl
    (fun c => purge_sublist c) fun d _ ha hd => mem_purge hd fun hp => ?_
  · simp only [Function.update_apply] at hq
    split at hq
    · exact nomatch hq
    · exact hq
  · have hexit := (alive_iff.1 ha).1
    rw [hp] at hexit
    exact absurd hexit (by simp)

theorem Kept.threadExitEx (h : s.Kept) {retval : ℕ} (hs : s.threadExitEx caller retval = some s') :
    s'.Kept := by
  obtain ⟨⟨me, p⟩, hrun, hs⟩ := Option.bind_eq_some_iff.1 hs
  obtain rfl := Option.some.inj hs
  refine h.quiet_map (f := fun t =>
    if t.thid = caller then t.withSig { t.kill.sig with terminated := true } else t) rfl
    (fun t p => ?_) (fun t ht => ?_) rfl (fun _ h => h) rfl rfl rfl (fun c => ?_) fun d _ _ hd => ?_
  · dsimp only
    split <;> rfl
  · dsimp only at ht
    split at ht
    · exact nomatch ht
    · exact ht
  · simp only [account]
    split
    · exact List.Sublist.refl _
    · rw [List.filter_cons_of_neg (by simp [isDeathOf])]
  · simp only
    split
    · exact hd
    · exact List.mem_cons_of_mem _ hd

theorem Kept.takeThread (h : s.Kept) {thid : ℕ} (hs : s.takeThread caller thid = some s') : s'.Kept := by
  obtain ⟨⟨me, p⟩, hrun, hs⟩ := Option.bind_eq_some_iff.1 hs
  obtain rfl := Option.some.inj hs
  refine h.quiet_map (f := id) (List.map_id _).symm (fun _ _ => rfl) (fun _ h => h) rfl (fun _ h => h)
    rfl rfl rfl (fun c => List.Sublist.filter _ List.eraseP_sublist) fun d _ _ hd => ?_
  exact (List.mem_eraseP_of_neg (by simp [Join.isNotifOf, Death.notif])).2 hd

theorem Kept.signals (h : s.Kept) (thid : ℕ+) (sig : SigThread) :
    ({ s with threads := s.threads.map fun t =>
      if t.thid = thid then t.withSig { sig with terminated := t.terminated } else t } :
      WaitState).Kept := by
  refine h.quiet_map (f := fun t =>
    if t.thid = thid then t.withSig { sig with terminated := t.terminated } else t) rfl
    (fun t p => ?_) (fun t ht => ?_) rfl (fun _ h => h) rfl rfl rfl
    (fun c => List.Sublist.refl _) fun d _ _ hd => hd
  · split <;> rfl
  · split at ht <;> exact ht

theorem Kept.fork (h : s.Kept) {detached : Bool} {sig : SigThread}
    (hs : s.fork caller detached sig = some s') : s'.Kept := by
  obtain ⟨⟨me, p⟩, hrun, hs⟩ := Option.bind_eq_some_iff.1 hs
  obtain rfl := Option.some.inj hs
  have hnew : s.nextPid < s.nextPid + 2 := PNat.lt_add_right _ _
  refine h.quiet (le_of_lt hnew) (fun q hq => ?_) (fun q hlt ha => ?_) rfl rfl rfl
    (fun c => List.Sublist.refl _) fun d _ _ hd => hd
  · obtain ⟨t, ht, hq⟩ := listed_iff.1 hq
    rcases List.mem_cons.1 ht with rfl | ht
    · obtain rfl : s.nextPid = q := Option.some.inj (of_decide_eq_true hq)
      exact ⟨hnew, .inr (le_refl _)⟩
    · have hl := listed_iff.2 ⟨t, ht, hq⟩
      exact ⟨lt_trans (h.fresh q hl) hnew, .inl hl⟩
  · obtain ⟨he, t, ht, hq, hterm⟩ := alive_iff.1 ha
    rcases List.mem_cons.1 ht with rfl | ht
    · obtain rfl : s.nextPid = q := Option.some.inj (of_decide_eq_true hq)
      exact absurd hlt (lt_irrefl _)
    · exact alive_iff.2 ⟨he, t, ht, hq, hterm⟩

theorem Kept.clone (h : s.Kept) {detached : Bool} {sig : SigThread}
    (hs : s.clone caller detached sig = some s') : s'.Kept := by
  obtain ⟨⟨me, p⟩, hrun, hs⟩ := Option.bind_eq_some_iff.1 hs
  obtain rfl := Option.some.inj hs
  obtain ⟨hme, hp, hrunning⟩ := running_spec hrun
  have hnew : s.nextPid < s.nextPid + 1 := PNat.lt_add_right _ _
  have hlist : s.listed p = true := listed_iff.2 ⟨me, hme, hp⟩
  refine h.quiet (le_of_lt hnew) (fun q hq => ?_) (fun q hlt ha => ?_) rfl rfl rfl
    (fun c => List.Sublist.refl _) fun d _ _ hd => hd
  · have hl : s.listed q = true := by
      obtain ⟨t, ht, hq⟩ := listed_iff.1 hq
      rcases List.mem_cons.1 ht with rfl | ht
      · obtain rfl : p = q := Option.some.inj (of_decide_eq_true hq)
        exact hlist
      · exact listed_iff.2 ⟨t, ht, hq⟩
    exact ⟨lt_trans (h.fresh q hl) hnew, .inl hl⟩
  · obtain ⟨he, t, ht, hq, hterm⟩ := alive_iff.1 ha
    rcases List.mem_cons.1 ht with rfl | ht
    · obtain rfl : p = q := Option.some.inj (of_decide_eq_true hq)
      exact alive_iff.2 ⟨he, me, hme, hp, hrunning⟩
    · exact alive_iff.2 ⟨he, t, ht, hq, hterm⟩

/-! ## Deaths -/

/-- A thread is taken off the list. -/
theorem Kept.unlink (h : s.Kept) (q : WaitThread → Bool) :
    ({ s with threads := s.threads.eraseP q } : WaitState).Kept := by
  refine h.quiet (le_refl _) (fun p hp => ?_) (fun p _ ha => ?_) rfl rfl rfl
    (fun c => List.Sublist.refl _) fun d _ _ hd => hd
  · obtain ⟨t, ht, hp⟩ := listed_iff.1 hp
    have hl := listed_iff.2 ⟨t, List.mem_of_mem_eraseP ht, hp⟩
    exact ⟨h.fresh p hl, .inl hl⟩
  · obtain ⟨he, t, ht, hp, hterm⟩ := alive_iff.1 ha
    exact alive_iff.2 ⟨he, t, List.mem_of_mem_eraseP ht, hp, hterm⟩

theorem Kept.wakeProcess (h : s.Kept) (currentTime : ℕ) (p : ℕ+) : (s.wakeProcess currentTime p).Kept := by
  refine h.quiet_map (f := fun t => if t.of p then
      t.withSig ((t.kill.sig.signalThread currentTime).getD t.kill.sig) else t) rfl
    (fun t q => ?_) (fun t ht => ?_) rfl (fun _ h => h) rfl rfl rfl
    (fun c => List.Sublist.refl _) fun d _ _ hd => hd
  · split <;> rfl
  · split at ht
    · cases hsig : t.kill.sig.signalThread currentTime with
      | none =>
        rw [hsig] at ht
        exact ht
      | some u =>
        rw [hsig] at ht
        exact (SigThread.signalThread_terminated hsig).symm.trans ht
    · exact ht

/-- The notification that `buryProcess` posts. -/
def deathNotif (s : WaitState) (p : ℕ+) : SchedNotif :=
  ⟨.SHN_PROCESS_DEAD, s.parentPid p, p, s.status p⟩

theorem account_bury_self (hnone : s.account p = noAccount) :
    (s.buryProcess p).account p = ⟨[s.deathNotif p], []⟩ := by
  have hnotifs : s.notifs.filter (isDeathOf p) = [] := congrArg Account.notifs hnone
  have hnil : (s.purge p).filter (isDeathOf p) = [] :=
    List.sublist_nil.1 (hnotifs ▸ purge_sublist p)
  refine congrArg₂ Account.mk ?_ (congrArg Account.reports hnone)
  change (s.deathNotif p :: s.purge p).filter (isDeathOf p) = _
  rw [List.filter_cons_of_pos (by simp [isDeathOf, deathNotif]), hnil]

theorem account_bury_ne (hc : c ≠ p) :
    (s.buryProcess p).account c = ⟨(s.purge p).filter (isDeathOf c), (s.account c).reports⟩ := by
  have hne : ¬isDeathOf c (s.deathNotif p) = true := by
    simp [isDeathOf, deathNotif, PNat.coe_inj, hc.symm]
  refine congrArg₂ Account.mk ?_ rfl
  change (s.deathNotif p :: s.purge p).filter (isDeathOf c) = _
  rw [List.filter_cons_of_neg hne]

/-- The last reference to the credentials of a process is dropped. -/
theorem Kept.buryProcess (h : s.Kept) (hp : s.listed p = false) (hlt : p < s.nextPid)
    (hnone : s.account p = noAccount) (hnew : ∀ d ∈ s.deaths, d.child ≠ p) :
    (s.buryProcess p).Kept := by
  have hsub : ∀ c, c ≠ p → (((s.buryProcess p).account c).notifs).Sublist (s.account c).notifs :=
    fun c hc => by
      rw [account_bury_ne hc]
      exact purge_sublist c
  refine ⟨h.fresh, fun c hc => ?_, fun c => ?_, fun d hd => ?_, h.sigchlds⟩
  · have hcp : c ≠ p := by
      rintro rfl
      rcases hc with hc | hc
      · exact Bool.false_ne_true (hp.symm.trans hc)
      · exact absurd hlt (not_lt_of_ge hc)
    have hs := hsub c hcp
    rw [h.unborn c hc] at hs
    rw [account_bury_ne hcp, h.unborn c hc] at *
    exact congrArg₂ Account.mk (List.sublist_nil.1 hs) rfl
  · by_cases hc : c = p
    · rw [hc, account_bury_self hnone]
      exact Nat.le_refl _
    · have hle := (hsub c hc).length_le
      rw [account_bury_ne hc] at *
      exact le_trans (Nat.add_le_add_right hle _) (h.once c)
  · have hcases : (s.alive (s.creds p).ppid = true ∧ d = ⟨p, (s.creds p).ppid, s.status p⟩) ∨
        d ∈ s.deaths := by
      change d ∈ (if _ then _ else _) at hd
      split at hd
      · next ha => exact (List.mem_cons.1 hd).imp_left fun hd => ⟨ha, hd⟩
      · exact .inr hd
    rcases hcases with ⟨ha, rfl⟩ | hd
    · have hparent := listed_of_alive ha
      refine ⟨hlt, h.fresh _ hparent, hp, fun _ => .inl ?_⟩
      rw [account_bury_self hnone, deathNotif, parentPid, if_pos hparent]
      rfl
    · obtain ⟨hchild, hparent, hlist, hrep⟩ := h.deaths d hd
      refine ⟨hchild, hparent, hlist, fun ha => ?_⟩
      have hpar : d.parent ≠ p := fun e => by
        have hl := listed_of_alive (s := s) ha
        rw [e, hp] at hl
        exact Bool.false_ne_true hl
      rw [account_bury_ne (hnew d hd)]
      refine (hrep ha).of_sublist rfl (purge_sublist _) fun hmem => ?_
      exact List.mem_filter.2 ⟨mem_purge (List.mem_of_mem_filter hmem) hpar, isDeathOf_notif d⟩

theorem Kept.sysManFunc (h : s.Kept) (hs : s.sysManFunc currentTime thid = some s') : s'.Kept := by
  obtain ⟨t, ht, hs⟩ := Option.bind_eq_some_iff.1 hs
  have hun := h.unlink fun t => t.thid = thid && t.terminated
  simp only at hs
  split at hs
  · obtain rfl := Option.some.inj hs
    exact hun
  · next p hp =>
    rw [credsDownref] at hs
    split at hs
    · obtain rfl := Option.some.inj hs
      exact hun
    · next hlast =>
      rw [sendChild_eq] at hs
      obtain rfl := Option.some.inj hs
      have hlist : s.listed p = true :=
        listed_iff.2 ⟨t, List.mem_of_find?_eq_some ht, decide_eq_true hp⟩
      have hnew : ∀ d ∈ s.deaths, d.child ≠ p := fun d hd hc => by
        rw [← hc, (h.deaths d hd).2.2.1] at hlist
        exact Bool.false_ne_true hlist
      exact (hun.buryProcess (Bool.eq_false_iff.2 hlast) (h.fresh p hlist)
        (h.unborn p (.inl hlist)) hnew).wakeProcess _ _

/-! ## Reports -/

/-- The state after `processWait` has taken a notification. -/
def reap (s : WaitState) (p : ℕ+) (pid : ℤ) (notif : SchedNotif) : WaitState :=
  { s with notifs := s.notifs.eraseP (isDeathFor p pid), reports := (p, notif) :: s.reports }

variable {pid : ℤ} {n : SchedNotif}

theorem isDeathFor_iff : isDeathFor p pid n = true ↔
    n.dest = p ∧ ((n.source : ℤ) = pid ∨ pid = -1) ∧ n.type = .SHN_PROCESS_DEAD := decide_eq_true_iff

theorem account_reap (hfind : s.notifs.find? (isDeathFor p pid) = some n)
    (honce : (s.account c).notifs.length + (s.account c).reports.length ≤ 1)
    (hc : isDeathOf c n = true) :
    s.account c = ⟨[n], []⟩ ∧ (s.reap p pid n).account c = ⟨[], [(p, n)]⟩ := by
  obtain ⟨hn, l₁, l₂, hl, hbefore⟩ := List.find?_eq_some_iff_append.1 hfind
  have herase : s.notifs.eraseP (isDeathFor p pid) = l₁ ++ l₂ := by
    rw [hl, List.eraseP_append_right _ (by simpa using hbefore), List.eraseP_cons_of_pos hn]
  have hnotifs : (s.account c).notifs = l₁.filter (isDeathOf c) ++ n :: l₂.filter (isDeathOf c) := by
    rw [account, hl, List.filter_append, List.filter_cons_of_pos hc]
  rw [hnotifs, List.length_append, List.length_cons] at honce
  have h₁ : l₁.filter (isDeathOf c) = [] := List.length_eq_zero_iff.1 (by omega)
  have h₂ : l₂.filter (isDeathOf c) = [] := List.length_eq_zero_iff.1 (by omega)
  have hreports : (s.account c).reports = [] := List.length_eq_zero_iff.1 (by omega)
  rw [h₁, h₂] at hnotifs
  refine ⟨congrArg₂ Account.mk hnotifs hreports, congrArg₂ Account.mk ?_ ?_⟩
  · change (s.notifs.eraseP (isDeathFor p pid)).filter (isDeathOf c) = []
    rw [herase, List.filter_append, h₁, h₂, List.append_nil]
  · change ((p, n) :: s.reports).filter (fun r => isDeathOf c r.2) = [(p, n)]
    exact (List.filter_cons_of_pos (p := fun r : ℕ+ × SchedNotif => isDeathOf c r.2) hc).trans
      (congrArg _ hreports)

theorem account_reap_ne (hfind : s.notifs.find? (isDeathFor p pid) = some n)
    (hc : ¬isDeathOf c n = true) : (s.reap p pid n).account c = s.account c := by
  obtain ⟨hn, l₁, l₂, hl, hbefore⟩ := List.find?_eq_some_iff_append.1 hfind
  refine congrArg₂ Account.mk ?_ ?_
  · change (s.notifs.eraseP (isDeathFor p pid)).filter (isDeathOf c) = s.notifs.filter (isDeathOf c)
    rw [hl, List.eraseP_append_right _ (by simpa using hbefore), List.eraseP_cons_of_pos hn,
      List.filter_append, List.filter_append, List.filter_cons_of_neg hc]
  · exact List.filter_cons_of_neg hc

theorem Kept.reap (h : s.Kept) (hfind : s.notifs.find? (isDeathFor p pid) = some n) :
    (s.reap p pid n).Kept := by
  have hdest : n.dest = p := (isDeathFor_iff.1 (List.find?_some hfind)).1
  refine ⟨h.fresh, fun c hc => ?_, fun c => ?_, fun d hd => ?_, h.sigchlds⟩
  · have hnone := h.unborn c hc
    rw [account_reap_ne hfind fun hn => ?_, hnone]
    have hn := (account_reap hfind (h.once c) hn).1
    rw [hnone] at hn
    exact nomatch hn
  · by_cases hc : isDeathOf c n = true
    · rw [(account_reap hfind (h.once c) hc).2]
      exact Nat.le_refl _
    · rw [account_reap_ne hfind hc]
      exact h.once c
  · obtain ⟨hchild, hparent, hlist, hrep⟩ := h.deaths d hd
    refine ⟨hchild, hparent, hlist, fun ha => ?_⟩
    by_cases hc : isDeathOf d.child n = true
    · obtain ⟨hbefore, hafter⟩ := account_reap hfind (h.once d.child) hc
      have hn : d.notif = n := by
        rcases hrep ha with hrep | hrep
        · exact (List.cons.inj (congrArg Account.notifs (hrep.symm.trans hbefore))).1
        · exact nomatch hrep.symm.trans hbefore
      have hp : d.parent = p := PNat.coe_inj.1 ((congrArg SchedNotif.dest hn).trans hdest)
      exact .inr (by rw [hafter, hn, hp])
    · rw [account_reap_ne hfind hc]
      exact hrep ha

theorem Kept.processWait (h : s.Kept) {r : WaitResult}
    (hs : s.processWait caller pid = some (r, s')) : s'.Kept := by
  obtain ⟨⟨me, p⟩, hrun, hs⟩ := Option.bind_eq_some_iff.1 hs
  simp only at hs
  split at hs
  · obtain ⟨-, rfl⟩ := Prod.mk.inj (Option.some.inj hs)
    exact h
  · split at hs
    · next n hfind =>
      obtain ⟨-, rfl⟩ := Prod.mk.inj (Option.some.inj hs)
      exact h.reap hfind
    · obtain ⟨-, rfl⟩ := Prod.mk.inj (Option.some.inj hs)
      exact h

end Threads

/-! ## Runs -/

theorem Kept.step (h : s.Kept) {op : WaitOp} (hfit : s.Fits op) (hs : s.step op = some s') : s'.Kept := by
  cases op with
  | fork caller detached sig => exact h.fork hs
  | clone caller detached sig => exact h.clone hs
  | exec currentTime caller => exact h.exec hfit hs
  | exit currentTime caller status => exact h.processExit hs
  | threadExit caller retval => exact h.threadExitEx hs
  | cleanup currentTime thid => exact h.sysManFunc hs
  | wait caller pid =>
    obtain ⟨⟨r, s''⟩, hwait, rfl⟩ := Option.map_eq_some_iff.1 hs
    exact h.processWait hwait
  | takeThread caller thid => exact h.takeThread hs
  | signals thid sig =>
    obtain rfl := Option.some.inj hs
    exact h.signals thid sig

theorem Starts.kept (h : s.Starts) : s.Kept := by
  obtain ⟨t, ht, ht1⟩ := h.threads
  refine ⟨fun p hp => ?_, fun c _ => ?_, fun c => ?_, fun d hd => ?_, h.sigchlds⟩
  · obtain ⟨u, hu, hp⟩ := listed_iff.1 hp
    rw [ht] at hu
    obtain rfl := List.mem_singleton.1 hu
    obtain rfl : 1 = p := Option.some.inj (ht1.symm.trans (of_decide_eq_true hp))
    exact h.nextPid
  · exact congrArg₂ Account.mk (by rw [h.notifs]; rfl) (by rw [h.reports]; rfl)
  · rw [account, h.notifs, h.reports]
    exact Nat.zero_le _
  · rw [h.deaths] at hd
    cases hd

theorem Kept.reported (h : s.Kept) : s.Reported where
  reported d hd := (h.deaths d hd).2.2.2
  once := h.once
  waits d hd ha hpending caller me hrun := by
    obtain ⟨-, -, hlist, -⟩ := h.deaths d hd
    have hne : (d.parent : ℤ) ≠ d.child := fun e => by
      have hp : d.parent = d.child := PNat.coe_inj.1 (by exact_mod_cast e)
      rw [← hp, listed_of_alive ha] at hlist
      exact Bool.false_ne_true hlist.symm
    have hmem : d.notif ∈ s.notifs := by
      have hmem : d.notif ∈ (s.account d.child).notifs := by
        rw [hpending]
        exact List.mem_singleton_self _
      exact List.mem_of_mem_filter hmem
    have hfor : isDeathFor d.parent d.child d.notif = true := by
      simp [isDeathFor, Death.notif]
    obtain ⟨n, hfind⟩ := Option.isSome_iff_exists.1 (List.find?_isSome.2 ⟨_, hmem, hfor⟩)
    obtain ⟨-, hsource, htype⟩ := isDeathFor_iff.1 (List.find?_some hfind)
    have hsource : n.source = d.child := by omega
    have hn : n ∈ (s.account d.child).notifs :=
      List.mem_filter.2 ⟨List.mem_of_find?_eq_some hfind, decide_eq_true ⟨htype, hsource⟩⟩
    rw [hpending] at hn
    obtain rfl := List.mem_singleton.1 hn
    refine ⟨s.reap d.parent d.child d.notif, ?_⟩
    rw [WaitState.processWait, hrun]
    simp only [Option.bind_eq_bind, Option.bind_some, if_neg hne, hfind]
    rfl

end WaitState

open WaitState

/-- The process 1 alone. -/
def waitStart : WaitState where
  threads := [⟨1, false, ⟨some 1, false, sysMan.sig⟩⟩]
  creds := fun _ => ⟨1, 1, 0, 0⟩
  status := fun _ => 0
  nextPid := 2
  notifs := []
  exiting := fun _ => false
  deaths := []
  reports := []
  sigchlds := []

theorem waitStart_starts : waitSystem.init waitStart :=
  ⟨⟨_, rfl, rfl⟩, by decide, rfl, rfl, rfl, rfl⟩

/-- Process 4, a child of process 2, exits with code 7. -/
def childDies : List WaitOp :=
  [.fork 1 false sysMan.sig, .fork 3 false sysMan.sig, .exit 0 5 0x700, .threadExit 5 0, .cleanup 0 5]

end Glidix.Thread.Wait
