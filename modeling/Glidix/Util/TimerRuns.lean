import Glidix.Util.TimerList

/-!
# Runs of the timed events

In every run that cancels only events which are pending or have null links, and in which a tick finds a
thread that goes before the running one only in the last event that has expired, the list holds exactly
the pending events and `onTick` signals the thread of every event that it removes.
-/

namespace Glidix.Timer

variable {t t' : Timers} {l pre post : List ℕ} {ev now current thread nanotime : ℕ} {doResched : Bool}

namespace Timers

/-- The list holds exactly the pending events. -/
structure Holds (t : Timers) (l : List ℕ) : Prop where
  lists : t.event.Lists t.timedEvents l
  posted : ∀ ev n, t.posted ev = some n ↔ ev ∈ l ∧ (t.event ev).nanotime = n

/-- The list is sorted and holds exactly the pending events, and each event that `onTick` has removed has
its thread signalled. -/
structure Right (t : Timers) : Prop where
  list : ∃ l, t.Holds l
  signalled : t.signalled = t.removed

/-- The event is pending or has null links. -/
def Cancellable (t : Timers) (ev : ℕ) : Prop :=
  ev ≠ 0 ∧ (t.posted ev = none → (t.event ev).prev = 0 ∧ (t.event ev).next = 0)

/-- If the time of the thread's alarm has come, the alarm timer may be cancelled. -/
def AlarmFits (t : Timers) (now thread : ℕ) : Prop :=
  t.alarmTime thread ≠ 0 → t.alarmTime thread ≤ now → t.Cancellable (t.alarmTimer thread)

/-- What the calls on the list leave as it is. -/
structure Same (t t' : Timers) : Prop where
  nanotime : ∀ a, (t'.event a).nanotime = (t.event a).nanotime
  thread : ∀ a, (t'.event a).thread = (t.event a).thread
  niceVal : t'.niceVal = t.niceVal
  alarmTimer : t'.alarmTimer = t.alarmTimer

theorem Same.trans {t'' : Timers} (h : t.Same t') (h' : t'.Same t'') : t.Same t'' where
  nanotime a := (h'.nanotime a).trans (h.nanotime a)
  thread a := (h'.thread a).trans (h.thread a)
  niceVal := h'.niceVal.trans h.niceVal
  alarmTimer := h'.alarmTimer.trans h.alarmTimer

namespace Holds

theorem mem_iff (hl : t.Holds l) : ev ∈ l ↔ t.posted ev ≠ none := by
  rw [Option.ne_none_iff_exists']
  constructor
  · exact fun h => ⟨_, (hl.posted ev _).2 ⟨h, rfl⟩⟩
  · rintro ⟨n, h⟩
    exact ((hl.posted ev n).1 h).1

theorem notMem_iff (hl : t.Holds l) : ev ∉ l ↔ t.posted ev = none := by
  rw [hl.mem_iff, not_not]

/-- The events of a list without `ev` are pending after `ev` is not. -/
theorem posted_remove (hl : t.Holds (pre ++ ev :: post))
    (htime : ∀ a, (t'.event a).nanotime = (t.event a).nanotime)
    (hposted : t'.posted = Function.update t.posted ev none) (a n : ℕ) :
    t'.posted a = some n ↔ a ∈ pre ++ post ∧ (t'.event a).nanotime = n := by
  have hev := (List.nodup_cons.1 (List.nodup_middle.1 hl.lists.linked.nodup)).1
  rw [hposted, htime, Function.update_apply]
  split
  · next h =>
    subst h
    exact iff_of_false nofun fun h => hev h.1
  · next h =>
    rw [hl.posted, List.mem_append, List.mem_append, List.mem_cons]
    simp only [h, false_or]

end Holds

/-! ## Cancellation -/

theorem timedCancel_next (h : (t.event ev).prev ≠ ev) (b : ℕ) :
    ((t.timedCancel ev).event b).next =
      if (t.event ev).prev ≠ 0 ∧ b = (t.event ev).prev then (t.event ev).next else (t.event b).next := by
  by_cases h1 : (t.event ev).prev = 0 <;> by_cases h2 : (t.event ev).next = 0 <;>
    simp [timedCancel, h1, h2, Ne.symm h]

theorem timedCancel_prev (h : (t.event ev).prev ≠ ev) (b : ℕ) :
    ((t.timedCancel ev).event b).prev =
      if (t.event ev).next ≠ 0 ∧ b = (t.event ev).next then (t.event ev).prev else (t.event b).prev := by
  by_cases h1 : (t.event ev).prev = 0 <;> by_cases h2 : (t.event ev).next = 0 <;>
    simp [timedCancel, h1, h2, Ne.symm h]

theorem timedCancel_same (t : Timers) (ev : ℕ) : t.Same (t.timedCancel ev) := by
  refine ⟨fun a => ?_, fun a => ?_, rfl, rfl⟩
  · simp only [timedCancel]
    split_ifs <;> simp
  · simp only [timedCancel]
    split_ifs <;> simp

/-- Nothing happens to an event with null links. -/
theorem timedCancel_null (hprev : (t.event ev).prev = 0) (hnext : (t.event ev).next = 0) :
    (t.timedCancel ev).event = t.event := by
  simp [timedCancel, hprev, hnext]

theorem Holds.timedCancel (hl : t.Holds l) (hev : t.Cancellable ev) :
    ∃ l', (t.timedCancel ev).Holds l' ∧ l'.Sublist l ∧
      ∀ a, a ≠ ev → t.Cancellable a → (t.timedCancel ev).Cancellable a := by
  have hsame := t.timedCancel_same ev
  have hposted : ∀ a, a ≠ ev → (t.timedCancel ev).posted a = t.posted a := fun a h =>
    Function.update_of_ne h _ _
  by_cases hmem : ev ∈ l
  · obtain ⟨pre, post, rfl⟩ := List.append_of_mem hmem
    have hne := hl.lists.prev_ne_self
    refine ⟨pre ++ post, ⟨?_, ?_⟩, List.Sublist.append_left (List.sublist_cons_self ev post) pre, ?_⟩
    · exact hl.lists.remove (fun b _ => timedCancel_next hne b) (fun b _ => timedCancel_prev hne b)
        hsame.nanotime
    · exact hl.posted_remove hsame.nanotime rfl
    · intro a ha hc
      refine ⟨hc.1, fun h => ?_⟩
      rw [hposted a ha] at h
      have hnot := hl.notMem_iff.2 h
      have hnext : ¬((t.event ev).next ≠ 0 ∧ a = (t.event ev).next) := fun h => by
        have h := (Events.Lists.getD_eq_iff hl.lists.next_eq hc.1).2 h
        exact hnot (List.mem_append_right _ (List.mem_cons_of_mem _ (List.mem_of_mem_head? h)))
      have hprev : ¬((t.event ev).prev ≠ 0 ∧ a = (t.event ev).prev) := fun h => by
        have h := (Events.Lists.getD_eq_iff hl.lists.prev_eq hc.1).2 h
        exact hnot (List.mem_append_left _ (List.mem_of_getLast? h))
      rw [timedCancel_next hne, timedCancel_prev hne, if_neg hnext, if_neg hprev]
      exact hc.2 h
  · have hnone := hl.notMem_iff.1 hmem
    obtain ⟨hprev, hnext⟩ := hev.2 hnone
    have hevent := timedCancel_null hprev hnext
    have hfirst : t.timedEvents ≠ ev := fun h => by
      obtain ⟨l', rfl, -⟩ := hl.lists.linked.next.exists_cons (h ▸ hev.1)
      exact hmem (h ▸ List.mem_cons_self)
    refine ⟨l, ⟨?_, fun a n => ?_⟩, List.Sublist.refl l, fun a ha hc => ⟨hc.1, fun h => ?_⟩⟩
    · have hhead : (t.timedCancel ev).timedEvents = t.timedEvents := if_neg hfirst
      rw [hevent, hhead]
      exact hl.lists
    · rw [hevent, ← hl.posted]
      by_cases ha : a = ev
      · rw [ha, hnone]
        exact iff_of_false (by simp [Timers.timedCancel]) nofun
      · rw [hposted a ha]
    · rw [hposted a ha] at h
      rw [hevent]
      exact hc.2 h

/-! ## Tick -/

theorem Same.refl (t : Timers) : t.Same t := ⟨fun _ => rfl, fun _ => rfl, rfl, rfl⟩

theorem Holds.signalThread (hl : t.Holds l) (ha : t.AlarmFits now thread)
    (hinj : Function.Injective t.alarmTimer) :
    ∃ l', (t.signalThread now current thread).2.Holds l' ∧ l'.Sublist l ∧
      t.Same (t.signalThread now current thread).2 ∧
      ∀ θ, t.AlarmFits now θ → (t.signalThread now current thread).2.AlarmFits now θ := by
  unfold Timers.signalThread
  by_cases hdue : t.alarmTime thread ≠ 0 ∧ t.alarmTime thread ≤ now
  · simp only [if_pos hdue]
    obtain ⟨l', hl', hsub, hc⟩ := hl.timedCancel (ha hdue.1 hdue.2)
    have hsame := t.timedCancel_same (t.alarmTimer thread)
    refine ⟨l', ⟨hl'.lists, hl'.posted⟩, hsub, ⟨hsame.nanotime, hsame.thread, rfl, rfl⟩, ?_⟩
    intro θ hθ hne hle
    simp only [Function.update_apply] at hne hle
    by_cases h : θ = thread
    · exact absurd (if_pos h) hne
    · rw [if_neg h] at hne hle
      exact hc _ (fun e => h (hinj e)) (hθ hne hle)
  · simp only [if_neg hdue]
    exact ⟨l, hl, List.Sublist.refl l, Same.refl t, fun _ h => h⟩

theorem signalThread_fst :
    (t.signalThread now current thread).1 = decide (t.niceVal thread < t.niceVal current) := by
  simp only [signalThread]
  split <;> rfl

theorem signalThread_removed : (t.signalThread now current thread).2.removed = t.removed := by
  simp only [signalThread]
  split <;> rfl

theorem signalThread_signalled : (t.signalThread now current thread).2.signalled = t.signalled := by
  simp only [signalThread]
  split <;> rfl

theorem dropFirst_next (b : ℕ) :
    (t.dropFirst.event b).next = if b = t.timedEvents then 0 else (t.event b).next := by
  simp only [dropFirst]
  split_ifs <;> simp_all

theorem dropFirst_prev (b : ℕ) :
    (t.dropFirst.event b).prev = if b = t.timedEvents then 0
      else if (t.event t.timedEvents).next ≠ 0 ∧ b = (t.event t.timedEvents).next then 0
      else (t.event b).prev := by
  simp only [dropFirst]
  split_ifs <;> simp_all

theorem dropFirst_same (t : Timers) : t.Same t.dropFirst := by
  refine ⟨fun a => ?_, fun a => ?_, rfl, rfl⟩
  · simp only [dropFirst]
    split_ifs <;> simp
  · simp only [dropFirst]
    split_ifs <;> simp

theorem Holds.dropFirst (hl : t.Holds (ev :: post)) :
    t.dropFirst.Holds post ∧ ∀ θ, t.AlarmFits now θ → t.dropFirst.AlarmFits now θ := by
  have hfirst : t.timedEvents = ev := hl.lists.linked.next.1
  have hl : t.Holds ([] ++ ev :: post) := hl
  have hprevNull : (t.event ev).prev = 0 := hl.lists.prev_eq.symm
  have hsame := t.dropFirst_same
  have hnext := t.dropFirst_next
  have hprev := t.dropFirst_prev
  rw [hfirst] at hnext hprev
  have hposted : t.dropFirst.posted = Function.update t.posted ev none := by
    simp only [Timers.dropFirst, hfirst]
  refine ⟨⟨?_, hl.posted_remove hsame.nanotime hposted⟩, fun θ hθ hne hle => ?_⟩
  · have hl' : t.dropFirst.event.Lists (if t.timedEvents = ev then (t.event ev).next else t.timedEvents)
        ([] ++ post) := by
      refine hl.lists.remove (fun b hb => ?_) (fun b hb => ?_) hsame.nanotime
      · rw [hnext, if_neg hb, hprevNull, if_neg (fun h => h.1 rfl)]
      · rw [hprev, if_neg hb, hprevNull]
    have hhead : t.dropFirst.timedEvents = (t.event ev).next := by simp only [Timers.dropFirst, hfirst]
    rw [if_pos hfirst] at hl'
    rw [hhead]
    exact hl'
  · have hc := hθ hne hle
    refine ⟨hc.1, fun h => ?_⟩
    change (t.dropFirst.event (t.alarmTimer θ)).prev = 0 ∧ (t.dropFirst.event (t.alarmTimer θ)).next = 0
    change t.dropFirst.posted (t.alarmTimer θ) = none at h
    rw [hnext, hprev]
    by_cases hself : t.alarmTimer θ = ev
    · rw [if_pos hself, if_pos hself]
      exact ⟨rfl, rfl⟩
    · rw [hposted, Function.update_of_ne hself] at h
      have hnot : ¬((t.event ev).next ≠ 0 ∧ t.alarmTimer θ = (t.event ev).next) := fun hn => by
        have hmem := List.mem_of_mem_head? ((Events.Lists.getD_eq_iff hl.lists.next_eq hc.1).2 hn)
        exact hl.notMem_iff.2 h (List.mem_cons_of_mem _ hmem)
      rw [if_neg hself, if_neg hself, if_neg hnot]
      exact hc.2 h

/-- What the loop of `onTick` keeps. -/
structure TickInv (now current : ℕ) (doResched : Bool) (t : Timers) (l : List ℕ) : Prop where
  holds : t.Holds l
  alarmTimer : Function.Injective t.alarmTimer
  signalled : t.signalled = t.removed
  alarms : ∀ ev ∈ l, (t.event ev).nanotime < now → t.AlarmFits now (t.event ev).thread
  nice : l.Pairwise fun a b => (t.event b).nanotime < now →
    t.niceVal current ≤ t.niceVal (t.event a).thread
  doResched : doResched = true → ∀ ev ∈ l, now ≤ (t.event ev).nanotime

theorem TickInv.expire (h : TickInv now current doResched t (ev :: post))
    (hexp : (t.event ev).nanotime < now) :
    ∃ l', TickInv now current (t.expire now current doResched).1 (t.expire now current doResched).2 l' ∧
      l'.length ≤ post.length := by
  have hfirst : t.timedEvents = ev := h.holds.lists.linked.next.1
  have hresched : doResched = false := by
    by_contra hne
    have := h.doResched (Bool.not_eq_false _ ▸ hne) ev List.mem_cons_self
    omega
  subst hresched
  obtain ⟨hdrop, hkept⟩ := h.holds.dropFirst
  have hthread : (t.expire now current false).2 = { (t.dropFirst.signalThread now current
      (t.event ev).thread).2 with signalled := (t.event ev).thread ::
        (t.dropFirst.signalThread now current (t.event ev).thread).2.signalled } := by
    rw [Timers.expire, hfirst]
    rfl
  have hresched : (t.expire now current false).1 =
      (t.dropFirst.signalThread now current (t.event ev).thread).1 := by
    rw [Timers.expire, hfirst]
    rfl
  obtain ⟨l', hl', hsub, hsame, hkept'⟩ :=
    hdrop.signalThread (hkept _ (h.alarms ev List.mem_cons_self hexp)) h.alarmTimer
  have hsame := t.dropFirst_same.trans hsame
  have hmem : ∀ a ∈ l', a ∈ post := fun a ha => hsub.subset ha
  obtain ⟨hnice, hnicePost⟩ := List.pairwise_cons.1 h.nice
  rw [hthread, hresched]
  refine ⟨l', ⟨⟨hl'.lists, hl'.posted⟩, ?_, ?_, ?_, ?_, ?_⟩, hsub.length_le⟩
  · exact hsame.alarmTimer ▸ h.alarmTimer
  · change _ :: _ = _
    rw [signalThread_removed, signalThread_signalled]
    change _ :: t.signalled = (t.event t.timedEvents).thread :: t.removed
    rw [hfirst, h.signalled]
  · intro a ha ht
    rw [hsame.nanotime] at ht
    rw [hsame.thread]
    exact hkept' _ (hkept _ (h.alarms a (List.mem_cons_of_mem _ (hmem a ha)) ht))
  · refine (hnicePost.sublist hsub).imp fun hab => ?_
    rw [hsame.nanotime, hsame.niceVal, hsame.thread]
    exact hab
  · intro hlow a ha
    rw [hsame.nanotime]
    by_contra ht
    have hle := hnice a (hmem a ha) (Nat.lt_of_not_le ht)
    rw [signalThread_fst] at hlow
    exact absurd (of_decide_eq_true hlow) (Int.not_lt.2 hle)

theorem TickInv.loop (h : TickInv now current doResched t l) (fuel : ℕ) {r : Bool × Timers}
    (hr : onTickLoop now current fuel doResched t = some r) :
    ∃ l', TickInv now current r.1 r.2 l' ∧ ∀ ev ∈ l', now ≤ (r.2.event ev).nanotime := by
  induction fuel generalizing doResched t l with
  | zero => exact nomatch hr
  | succ fuel ih =>
    rw [onTickLoop] at hr
    split at hr
    · next hfirst =>
      obtain rfl := Option.some.inj hr
      have hnil := (hfirst ▸ h.holds.lists.linked.next).eq_nil
      exact ⟨l, h, hnil ▸ nofun⟩
    · next hfirst =>
      obtain ⟨post, rfl, -⟩ := h.holds.lists.linked.next.exists_cons hfirst
      split at hr
      · next htime =>
        obtain rfl := Option.some.inj hr
        refine ⟨_, h, fun a ha => ?_⟩
        rcases List.mem_cons.1 ha with rfl | ha
        · exact htime
        · exact Nat.le_trans htime ((List.pairwise_cons.1 h.holds.lists.sorted).1 a ha)
      · next htime =>
        obtain ⟨l', hl', -⟩ := h.expire (Nat.lt_of_not_le htime)
        exact ih hl' hr

theorem TickInv.exists_loop (h : TickInv now current doResched t l) :
    ∃ fuel r, onTickLoop now current fuel doResched t = some r := by
  induction hn : l.length using Nat.strong_induction_on generalizing doResched t l with
  | _ n ih =>
    by_cases hfirst : t.timedEvents = 0
    · exact ⟨1, _, by rw [onTickLoop]; exact if_pos hfirst⟩
    · by_cases htime : now ≤ (t.event t.timedEvents).nanotime
      · exact ⟨1, _, by rw [onTickLoop, if_neg hfirst]; exact if_pos htime⟩
      · obtain ⟨post, rfl, -⟩ := h.holds.lists.linked.next.exists_cons hfirst
        obtain ⟨l', hl', hlen⟩ := h.expire (Nat.lt_of_not_le htime)
        obtain ⟨fuel, r, hr⟩ := ih l'.length (hn ▸ Nat.lt_succ_of_le hlen) hl' rfl
        exact ⟨fuel + 1, r, by rw [onTickLoop, if_neg hfirst, if_neg htime]; exact hr⟩

/-! ## Post -/

theorem Holds.posted_insert (hl : t.Holds l) (current nanotime : ℕ) {l' : List ℕ}
    (hmem : ∀ a, a ∈ l' ↔ a = ev ∨ a ∈ l)
    (htime : ∀ a, (t'.event a).nanotime = (t.event.record current ev nanotime a).nanotime)
    (hposted : t'.posted = Function.update t.posted ev (some nanotime)) (a n : ℕ) :
    t'.posted a = some n ↔ a ∈ l' ∧ (t'.event a).nanotime = n := by
  rw [hposted, hmem, htime, Events.record, Function.update_apply, Function.update_apply]
  split
  · next h => simp [h]
  · next h => simp only [h, false_or, hl.posted]

theorem Holds.timedPost (hl : t.Holds l) (hev : ev ≠ 0) (hnone : t.posted ev = none) {fuel : ℕ}
    (h : t.timedPost fuel current ev nanotime = some t') : ∃ l', t'.Holds l' := by
  have hmem : ev ∉ l := hl.notMem_iff.2 hnone
  have hne : ∀ a ∈ l, a ≠ ev := fun a ha e => hmem (e ▸ ha)
  have hrecord : (t.event.record current ev nanotime).Lists t.timedEvents l :=
    hl.lists.congr fun a ha => Function.update_of_ne (hne a ha) _ _
  have htime : (t.event.record current ev nanotime ev).nanotime = nanotime := by
    rw [Events.record, Function.update_self]
  rw [Timers.timedPost] at h
  by_cases hzero : nanotime = 0
  · simp only [if_pos hzero, Option.some.injEq] at h
    subst h
    refine ⟨l, hrecord.congr fun a ha => ?_, fun a n => ?_⟩
    · simp only [Events.setNext, Events.setPrev, Function.update_of_ne (hne a ha)]
    · simp only [Events.setNext_nanotime, Events.setPrev_nanotime]
      by_cases ha : a = ev
      · simp [ha, hmem]
      · rw [Function.update_of_ne ha, hl.posted, Events.record, Function.update_of_ne ha]
  · simp only [if_neg hzero] at h
    split at h
    · next hfirst =>
      obtain rfl := Option.some.inj h
      obtain rfl := (hfirst ▸ hrecord.linked.next).eq_nil
      refine ⟨[ev], ?_, hl.posted_insert current nanotime (by simp) (fun a => by simp) rfl⟩
      apply hrecord.insertFirst hev hmem
      · simp [hfirst]
      · simp [hfirst]
      · simp
      · exact fun h => absurd hfirst h
    · next hfirst =>
      obtain ⟨post, rfl, -⟩ := hrecord.linked.next.exists_cons hfirst
      split at h
      · next hle =>
        obtain rfl := Option.some.inj h
        refine ⟨ev :: t.timedEvents :: post, ?_,
          hl.posted_insert current nanotime (by simp) (fun a => by simp) rfl⟩
        apply hrecord.insertFirst hev hmem
        · simp
        · simp [hfirst]
        · simp
        · exact fun _ => htime.symm ▸ hle
      · next hlt =>
        obtain ⟨event', hscan, rfl⟩ := Option.map_eq_some_iff.1 h
        obtain ⟨l', hl', hmem', htime'⟩ := hrecord.scanPost hev hmem fuel
          (rfl : _ = [] ++ t.timedEvents :: post) (by rw [htime]; omega) (by rw [htime]; exact hscan)
        exact ⟨l', hl', hl.posted_insert current nanotime hmem' htime' rfl⟩

theorem Holds.exists_timedPost (hl : t.Holds l) (hnone : t.posted ev = none) :
    ∃ fuel t', t.timedPost fuel current ev nanotime = some t' := by
  have hmem : ev ∉ l := hl.notMem_iff.2 hnone
  have hrecord : (t.event.record current ev nanotime).Lists t.timedEvents l :=
    hl.lists.congr fun a ha => Function.update_of_ne (fun e => hmem (by rwa [← e])) _ _
  simp only [Timers.timedPost]
  by_cases hzero : nanotime = 0
  · exact ⟨0, _, if_pos hzero⟩
  · by_cases hfirst : t.timedEvents = 0
    · exact ⟨0, _, (if_neg hzero).trans (if_pos hfirst)⟩
    · obtain ⟨post, rfl, -⟩ := hrecord.linked.next.exists_cons hfirst
      obtain ⟨fuel, event', h⟩ :=
        hrecord.exists_scanPost nanotime (rfl : _ = [] ++ t.timedEvents :: post)
      refine ⟨fuel, ?_⟩
      rw [if_neg hzero, if_neg hfirst, h]
      split <;> exact ⟨_, rfl⟩

theorem timedPost_frame {fuel : ℕ} (h : t.timedPost fuel current ev nanotime = some t') :
    t'.alarmTimer = t.alarmTimer ∧ t'.removed = t.removed ∧ t'.signalled = t.signalled := by
  simp only [timedPost] at h
  split at h
  · obtain rfl := Option.some.inj h
    exact ⟨rfl, rfl, rfl⟩
  · split at h
    · obtain rfl := Option.some.inj h
      exact ⟨rfl, rfl, rfl⟩
    · split at h
      · obtain rfl := Option.some.inj h
        exact ⟨rfl, rfl, rfl⟩
      · obtain ⟨event', -, rfl⟩ := Option.map_eq_some_iff.1 h
        exact ⟨rfl, rfl, rfl⟩

end Timers

/-! ## Runs -/

/-- An event is posted when it is not pending, and cancelled when it is pending or has null links; also by
`signalThread`.  In a tick the event after one whose thread goes before the running one has not expired. -/
def TimersFit (t : Timers) : TimerOp → Prop
  | .post _ ev _ => ev ≠ 0 ∧ t.posted ev = none
  | .cancel ev => t.Cancellable ev
  | .tick now current => ∀ ev n, t.posted ev = some n → n < now →
    t.AlarmFits now (t.event ev).thread ∧
      (t.niceVal (t.event ev).thread < t.niceVal current →
        (t.event ev).next = 0 ∨ now ≤ (t.event (t.event ev).next).nanotime)
  | .signal now _ thread => t.AlarmFits now thread
  | .setAlarm _ _ => True
  | .setNice _ _ => True

namespace Timers

/-- What every step keeps. -/
structure Kept (t : Timers) : Prop where
  right : t.Right
  alarmTimer : Function.Injective t.alarmTimer

/-- An event whose thread goes before the running one has no expired event after it. -/
theorem Holds.pairwise_nice (hl : t.Holds (pre ++ l)) (hfit : TimersFit t (.tick now current)) :
    l.Pairwise fun a b => (t.event b).nanotime < now →
      t.niceVal current ≤ t.niceVal (t.event a).thread := by
  induction l generalizing pre with
  | nil => exact List.Pairwise.nil
  | cons a l ih =>
    have happend : pre ++ a :: l = (pre ++ [a]) ++ l := by
      rw [List.append_assoc, List.singleton_append]
    refine List.pairwise_cons.2 ⟨fun b hb ht => ?_, ih (happend ▸ hl)⟩
    have hsorted := (List.pairwise_append.1 hl.lists.sorted).2.1
    obtain ⟨ha, hsorted⟩ := List.pairwise_cons.1 hsorted
    by_contra hlow
    have hposted := (hl.posted a _).2 ⟨List.mem_append_right _ List.mem_cons_self, rfl⟩
    have hnext := (hfit a _ hposted (Nat.lt_of_le_of_lt (ha b hb) ht)).2 (Int.not_le.1 hlow)
    obtain ⟨c, l, rfl⟩ := List.exists_cons_of_ne_nil (List.ne_nil_of_mem hb)
    have hc : c = (t.event a).next := hl.lists.next_eq
    rw [← hc] at hnext
    rcases hnext with hnext | hnext
    · have hmem : c ∈ pre ++ a :: c :: l :=
        List.mem_append_right _ (List.mem_cons_of_mem _ List.mem_cons_self)
      exact hl.lists.ne_zero hmem hnext
    · have hcb : (t.event c).nanotime ≤ (t.event b).nanotime := by
        rcases List.mem_cons.1 hb with rfl | hb
        · exact Nat.le_refl _
        · exact (List.pairwise_cons.1 hsorted).1 b hb
      omega

theorem Holds.tickInv (hl : t.Holds l) (hinj : Function.Injective t.alarmTimer)
    (hsignalled : t.signalled = t.removed) (hfit : TimersFit t (.tick now current)) :
    TickInv now current false t l := by
  have hl' : t.Holds ([] ++ l) := hl
  refine ⟨hl, hinj, hsignalled, fun a ha ht => ?_, hl'.pairwise_nice hfit, nofun⟩
  exact (hfit a _ ((hl.posted a _).2 ⟨ha, rfl⟩) ht).1

theorem Kept.step {op : TimerOp} (h : t.Kept) (hfit : TimersFit t op) (hs : t.Step op t') : t'.Kept := by
  obtain ⟨⟨⟨l, hl⟩, hsignalled⟩, hinj⟩ := h
  cases op with
  | post current ev nanotime =>
    obtain ⟨fuel, hs⟩ := hs
    obtain ⟨htimer, hremoved, hsig⟩ := timedPost_frame hs
    refine ⟨⟨hl.timedPost hfit.1 hfit.2 hs, ?_⟩, htimer ▸ hinj⟩
    rw [hremoved, hsig, hsignalled]
  | cancel ev =>
    obtain rfl : t' = t.timedCancel ev := hs
    obtain ⟨l', hl', -, -⟩ := hl.timedCancel hfit
    exact ⟨⟨⟨l', hl'⟩, hsignalled⟩, hinj⟩
  | tick now current =>
    obtain ⟨fuel, doResched, hs⟩ := hs
    obtain ⟨l', hl', -⟩ := (hl.tickInv hinj hsignalled hfit).loop fuel hs
    exact ⟨⟨⟨l', hl'.holds⟩, hl'.signalled⟩, hl'.alarmTimer⟩
  | signal now current thread =>
    obtain rfl : t' = (t.signalThread now current thread).2 := hs
    obtain ⟨l', hl', -, hsame, -⟩ := hl.signalThread hfit hinj
    refine ⟨⟨⟨l', hl'⟩, ?_⟩, hsame.alarmTimer ▸ hinj⟩
    rw [signalThread_removed, signalThread_signalled, hsignalled]
  | setAlarm thread alarmTime =>
    obtain rfl : t' = { t with alarmTime := Function.update t.alarmTime thread alarmTime } := hs
    exact ⟨⟨⟨l, hl.lists, hl.posted⟩, hsignalled⟩, hinj⟩
  | setNice thread niceVal =>
    obtain rfl : t' = { t with niceVal := Function.update t.niceVal thread niceVal } := hs
    exact ⟨⟨⟨l, hl.lists, hl.posted⟩, hsignalled⟩, hinj⟩

theorem Kept.exists_step (h : t.Kept) (op : TimerOp) (hfit : TimersFit t op) : ∃ t', t.Step op t' := by
  obtain ⟨⟨⟨l, hl⟩, hsignalled⟩, hinj⟩ := h
  cases op with
  | post current ev nanotime =>
    obtain ⟨fuel, t', h⟩ := hl.exists_timedPost hfit.2
    exact ⟨t', fuel, h⟩
  | tick now current =>
    obtain ⟨fuel, r, h⟩ := (hl.tickInv hinj hsignalled hfit).exists_loop
    exact ⟨r.2, fuel, r.1, h⟩
  | cancel ev => exact ⟨_, rfl⟩
  | signal now current thread => exact ⟨_, rfl⟩
  | setAlarm thread alarmTime => exact ⟨_, rfl⟩
  | setNice thread niceVal => exact ⟨_, rfl⟩

end Timers

theorem timers_kept (h : timerSystem.ReachesBy TimersFit t) : t.Kept := by
  refine h.invariant (fun t ht => ?_) fun t op t' hk hfit hs => hk.step hfit hs
  refine ⟨⟨⟨[], ?_, ?_⟩, by rw [ht.signalled, ht.removed]⟩, ht.alarmTimer⟩
  · rw [ht.timedEvents]
    exact ⟨.nil _ _, List.Pairwise.nil⟩
  · intro ev n
    rw [ht.posted]
    exact iff_of_false nofun fun h => nomatch h.1

/-- In every run that meets the condition the list is right, each call returns, and no event that has
expired is left after a tick. -/
theorem timers_right (h : timerSystem.ReachesBy TimersFit t) :
    t.Right ∧ (∀ op, TimersFit t op → ∃ t', t.Step op t') ∧
      ∀ now current t', TimersFit t (.tick now current) → t.Step (.tick now current) t' →
        ∀ ev n, t'.posted ev = some n → now ≤ n := by
  have hk := timers_kept h
  refine ⟨hk.right, hk.exists_step, fun now current t' hfit hs ev n hev => ?_⟩
  obtain ⟨⟨l, hl⟩, hsignalled⟩ := hk.right
  obtain ⟨fuel, doResched, hs⟩ := hs
  obtain ⟨l', hl', htime⟩ := (hl.tickInv hk.alarmTimer hsignalled hfit).loop fuel hs
  obtain ⟨hmem, rfl⟩ := (hl'.holds.posted ev n).1 hev
  exact htime ev hmem

/-! ## A wakeup that is lost -/

def noTimers : Timers where
  event := fun _ => ⟨0, 0, 0, 0⟩
  timedEvents := 0
  niceVal := fun _ => 0
  alarmTime := fun _ => 0
  alarmTimer := fun thread => 2 * thread + 1
  posted := fun _ => none
  removed := []
  signalled := []

theorem noTimers_init : timerSystem.init noTimers :=
  ⟨rfl, fun _ => rfl, rfl, rfl, fun _ _ h => by simpa [noTimers] using h⟩

/-- A step with fuel for its loops. -/
def Timers.exec (fuel : ℕ) (t : Timers) : TimerOp → Option Timers
  | .post current ev nanotime => t.timedPost fuel current ev nanotime
  | .cancel ev => some (t.timedCancel ev)
  | .tick now current => (t.onTick fuel now current).map Prod.snd
  | .signal now current thread => some (t.signalThread now current thread).2
  | .setAlarm thread alarmTime =>
    some { t with alarmTime := Function.update t.alarmTime thread alarmTime }
  | .setNice thread niceVal => some { t with niceVal := Function.update t.niceVal thread niceVal }

theorem Timers.exec_step {fuel : ℕ} {op : TimerOp} (h : t.exec fuel op = some t') : t.Step op t' := by
  cases op with
  | tick now current =>
    obtain ⟨r, hr, rfl⟩ := Option.map_eq_some_iff.1 h
    exact ⟨fuel, r.1, hr⟩
  | post current ev nanotime => exact ⟨fuel, h⟩
  | _ => exact (Option.some.inj h).symm

/-- Threads 1 and 2 wait for the same time. -/
def twoTimers : List TimerOp := [.post 1 10 5, .post 2 20 5]

theorem timers_right_two :
    ∃ t, (twoTimers ++ [TimerOp.tick 6 3]).foldlM (Timers.exec 3) noTimers = some t ∧
    t.Right ∧ (∀ op, TimersFit t op → ∃ t', t.Step op t') ∧
      ∀ now current t', TimersFit t (.tick now current) → t.Step (.tick now current) t' →
        ∀ ev n, t'.posted ev = some n → now ≤ n := by
  have hone : timerSystem.ReachesBy TimersFit _ :=
    .step (a := .post 1 10 5) (.init noTimers_init) ⟨by decide, rfl⟩ ⟨1, rfl⟩
  have htwo : timerSystem.ReachesBy TimersFit _ :=
    .step (a := .post 2 20 5) hone ⟨by decide, rfl⟩ ⟨1, rfl⟩
  have hthree : timerSystem.ReachesBy TimersFit _ :=
    .step (a := .tick 6 3) htwo
      (fun _ _ _ _ => ⟨fun h => absurd rfl h, fun h => absurd h (Int.lt_irrefl _)⟩) ⟨3, _, rfl⟩
  exact ⟨_, rfl, timers_right hthree⟩

/-- Thread 2 goes before thread 3, which runs: it is signalled, and thread 1 is not. -/
theorem wakeup_lost : ∃ t, timerSystem.Reachable t ∧ t.removed = [1, 2] ∧ t.signalled = [2] := by
  have hrun : ((twoTimers ++ [TimerOp.setNice 2 (-5), .tick 6 3]).foldlM (Timers.exec 3) noTimers).any
      (fun t : Timers => t.removed = [1, 2] ∧ t.signalled = [2]) = true := by decide
  obtain ⟨t, ht, hlost⟩ := (Option.any_eq_true ..).1 hrun
  exact ⟨t, System.ReachesBy.foldlM (fun _ _ _ h => ⟨trivial, Timers.exec_step h⟩)
    (.init noTimers_init) ht, of_decide_eq_true hlost⟩

end Glidix.Timer
