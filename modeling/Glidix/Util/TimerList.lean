import Mathlib.Tactic.SplitIfs
import Glidix.Util.Timer

/-!
# The list of timed events is sorted and complete

`timedPost`, `timedCancel` and `onTick` keep the list linked in both directions, sorted by time and made
of the events that are pending, as long as no event is cancelled whose links are left from an earlier
cancellation.  `onTick` signals the threads of all events that it removes, if none but the last of them
has a thread that goes before the running one: after such a thread the short-circuit operator leaves
`signalThread` out.
-/

namespace Glidix.Timer

variable {event event' : Events} {t t' : Timers} {l pre post : List ℕ}
  {ev scan now current thread nanotime : ℕ}

/-! ## Links -/

namespace Events

@[simp] theorem setNext_next (next a : ℕ) :
    (event.setNext ev next a).next = if a = ev then next else (event a).next := by
  unfold setNext
  rw [Function.update_apply]
  split <;> rfl

@[simp] theorem setNext_prev (next a : ℕ) : (event.setNext ev next a).prev = (event a).prev := by
  unfold setNext
  rw [Function.update_apply]
  split
  · next h => rw [h]
  · rfl

@[simp] theorem setNext_nanotime (next a : ℕ) :
    (event.setNext ev next a).nanotime = (event a).nanotime := by
  unfold setNext
  rw [Function.update_apply]
  split
  · next h => rw [h]
  · rfl

@[simp] theorem setNext_thread (next a : ℕ) :
    (event.setNext ev next a).thread = (event a).thread := by
  unfold setNext
  rw [Function.update_apply]
  split
  · next h => rw [h]
  · rfl

@[simp] theorem setPrev_next (prev a : ℕ) : (event.setPrev ev prev a).next = (event a).next := by
  unfold setPrev
  rw [Function.update_apply]
  split
  · next h => rw [h]
  · rfl

@[simp] theorem setPrev_prev (prev a : ℕ) :
    (event.setPrev ev prev a).prev = if a = ev then prev else (event a).prev := by
  unfold setPrev
  rw [Function.update_apply]
  split <;> rfl

@[simp] theorem setPrev_nanotime (prev a : ℕ) :
    (event.setPrev ev prev a).nanotime = (event a).nanotime := by
  unfold setPrev
  rw [Function.update_apply]
  split
  · next h => rw [h]
  · rfl

@[simp] theorem setPrev_thread (prev a : ℕ) :
    (event.setPrev ev prev a).thread = (event a).thread := by
  unfold setPrev
  rw [Function.update_apply]
  split
  · next h => rw [h]
  · rfl

/-- `l` is a list of events that starts with `first`, linked in both directions and sorted by time. -/
structure Lists (event : Events) (first : ℕ) (l : List ℕ) : Prop where
  linked : DoublyLinked (fun a => (event a).next) (fun a => (event a).prev) first l
  sorted : l.Pairwise fun a b => (event a).nanotime ≤ (event b).nanotime

namespace Lists

variable {first : ℕ}

theorem ne_zero (hl : event.Lists first l) (hev : ev ∈ l) : ev ≠ 0 := hl.linked.next.ne_zero hev

theorem congr (hl : event.Lists first l) (h : ∀ a ∈ l, event' a = event a) : event'.Lists first l where
  linked :=
    ⟨hl.linked.next.congr fun a ha => by rw [h a ha],
      (hl.linked.prev).congr fun a ha => by rw [h a (List.mem_reverse.1 ha)], hl.linked.nodup⟩
  sorted := hl.sorted.imp_of_mem fun ha hb hab => by rwa [h _ ha, h _ hb]

/-- A link to an address that is not null. -/
theorem getD_eq_iff {o : Option ℕ} {x b : ℕ} (ho : o.getD 0 = x) (hb : b ≠ 0) :
    o = some b ↔ x ≠ 0 ∧ b = x := by
  subst ho
  cases o with
  | none => simp
  | some c =>
    rw [Option.some.injEq, Option.getD_some]
    exact ⟨fun h => ⟨h ▸ hb, h.symm⟩, fun h => h.2.symm⟩

theorem next_eq (hl : event.Lists first (pre ++ ev :: post)) : post.head?.getD 0 = (event ev).next := by
  rw [← List.headD_eq_head?_getD]
  exact hl.linked.next_eq.symm

theorem prev_eq (hl : event.Lists first (pre ++ ev :: post)) :
    pre.getLast?.getD 0 = (event ev).prev := hl.linked.prev_eq.symm

theorem prev_ne_self (hl : event.Lists first (pre ++ ev :: post)) : (event ev).prev ≠ ev := by
  intro h
  have hev : ev ≠ 0 := hl.ne_zero (List.mem_append_right _ List.mem_cons_self)
  have hlast := (getD_eq_iff hl.prev_eq hev).2 ⟨by rwa [h], h.symm⟩
  exact (List.nodup_append.1 hl.linked.nodup).2.2 ev (List.mem_of_getLast? hlast) ev
    List.mem_cons_self rfl

theorem first_eq_iff (hl : event.Lists first (pre ++ ev :: post)) : first = ev ↔ pre = [] := by
  have hfirst := hl.linked.next.head_eq
  cases pre with
  | nil => exact iff_of_true hfirst rfl
  | cons c pre =>
    refine iff_of_false (fun h => ?_) (List.cons_ne_nil _ _)
    have hc : c = ev := hfirst.symm.trans h
    exact (List.nodup_append.1 hl.linked.nodup).2.2 c List.mem_cons_self ev List.mem_cons_self hc

/-- An event is taken out of the list. -/
theorem remove (hl : event.Lists first (pre ++ ev :: post))
    (hnext : ∀ b, b ≠ ev → (event' b).next =
      if (event ev).prev ≠ 0 ∧ b = (event ev).prev then (event ev).next else (event b).next)
    (hprev : ∀ b, b ≠ ev → (event' b).prev =
      if (event ev).next ≠ 0 ∧ b = (event ev).next then (event ev).prev else (event b).prev)
    (htime : ∀ b, (event' b).nanotime = (event b).nanotime) :
    event'.Lists (if first = ev then (event ev).next else first) (pre ++ post) := by
  have hsub : (pre ++ post).Sublist (pre ++ ev :: post) :=
    List.Sublist.append_left (List.sublist_cons_self ev post) pre
  have hne : ∀ b ∈ pre ++ post, b ≠ ev := fun b hb h =>
    (List.nodup_cons.1 (List.nodup_middle.1 hl.linked.nodup)).1 (h ▸ hb)
  have hzero : ∀ b ∈ pre ++ post, b ≠ 0 := fun b hb => hl.ne_zero (hsub.subset hb)
  constructor
  · simp only [hl.first_eq_iff]
    apply hl.linked.remove
    · intro b hb
      simp only [hnext b (hne b hb), getD_eq_iff hl.prev_eq (hzero b hb)]
    · intro b hb
      simp only [hprev b (hne b hb), getD_eq_iff hl.next_eq (hzero b hb)]
  · simp only [htime]
    exact hl.sorted.sublist hsub

/-- An event is put into the list after `pre`, where its time fits. -/
theorem insert (hl : event.Lists first (pre ++ post)) (hev : ev ≠ 0) (hmem : ev ∉ pre ++ post)
    (hnextEv : (event' ev).next = post.headD 0) (hprevEv : (event' ev).prev = pre.getLast?.getD 0)
    (hnext : ∀ b ∈ pre ++ post, (event' b).next =
      if pre.getLast? = some b then ev else (event b).next)
    (hprev : ∀ b ∈ pre ++ post, (event' b).prev =
      if post.head? = some b then ev else (event b).prev)
    (htime : ∀ b, (event' b).nanotime = (event b).nanotime)
    (hpre : ∀ b ∈ pre, (event b).nanotime ≤ (event ev).nanotime)
    (hpost : ∀ b ∈ post, (event ev).nanotime ≤ (event b).nanotime) :
    event'.Lists (if pre = [] then ev else first) (pre ++ ev :: post) := by
  refine ⟨hl.linked.insert hev hmem hnextEv hprevEv hnext hprev, ?_⟩
  simp only [htime]
  obtain ⟨hsortPre, hsortPost, hcross⟩ := List.pairwise_append.1 hl.sorted
  refine List.pairwise_append.2 ⟨hsortPre, List.pairwise_cons.2 ⟨hpost, hsortPost⟩, ?_⟩
  intro a ha b hb
  rcases List.mem_cons.1 hb with rfl | hb
  · exact hpre a ha
  · exact hcross a ha b hb

/-- An event is put into the list after `scan`. -/
theorem insertAfter (hl : event.Lists first (pre ++ scan :: post)) (hev : ev ≠ 0)
    (hmem : ev ∉ pre ++ scan :: post)
    (hnext : ∀ b, (event' b).next =
      if b = scan then ev else if b = ev then (event scan).next else (event b).next)
    (hprev : ∀ b, (event' b).prev =
      if (event scan).next ≠ 0 ∧ b = (event scan).next then ev
      else if b = ev then scan else (event b).prev)
    (htime : ∀ b, (event' b).nanotime = (event b).nanotime)
    (hpre : (event scan).nanotime ≤ (event ev).nanotime)
    (hpost : (event scan).next ≠ 0 → (event ev).nanotime ≤ (event (event scan).next).nanotime) :
    event'.Lists first (pre ++ scan :: ev :: post) := by
  have happend : pre ++ scan :: post = pre ++ [scan] ++ post := by
    rw [List.append_assoc, List.singleton_append]
  have hscan : ev ≠ scan := fun h => hmem (h ▸ List.mem_append_right _ List.mem_cons_self)
  have hhead := hl.next_eq
  have hne : ∀ b ∈ pre ++ [scan] ++ post, b ≠ ev ∧ b ≠ 0 := fun b hb =>
    ⟨fun h => hmem (happend ▸ h ▸ hb), hl.ne_zero (happend ▸ hb)⟩
  have hnextEv : ¬((event scan).next ≠ 0 ∧ ev = (event scan).next) := fun h =>
    hmem (List.mem_append_right _ (List.mem_cons_of_mem _
      (List.mem_of_mem_head? ((getD_eq_iff hhead hev).2 h))))
  have hins : event'.Lists (if pre ++ [scan] = [] then ev else first) (pre ++ [scan] ++ ev :: post) := by
    refine (happend ▸ hl).insert hev (happend ▸ hmem) ?_ ?_ (fun b hb => ?_) (fun b hb => ?_) htime
      (fun b hb => ?_) (fun b hb => ?_)
    · rw [hnext, if_neg hscan, if_pos rfl, List.headD_eq_head?_getD, hhead]
    · rw [hprev, if_neg hnextEv, if_pos rfl, List.getLast?_concat, Option.getD_some]
    · simp only [hnext, (hne b hb).1, if_false, List.getLast?_concat, Option.some.injEq, eq_comm]
    · simp only [hprev, (hne b hb).1, if_false, getD_eq_iff hhead (hne b hb).2]
    · rcases List.mem_append.1 hb with hb | hb
      · have hsorted := (List.pairwise_append.1 hl.sorted).2.2 b hb scan List.mem_cons_self
        exact Nat.le_trans hsorted hpre
      · rwa [List.mem_singleton.1 hb]
    · cases post with
      | nil => cases hb
      | cons c post =>
        have hc : c = (event scan).next := hhead
        have hzero : (event scan).next ≠ 0 :=
          hc ▸ hl.ne_zero (List.mem_append_right _ (List.mem_cons_of_mem _ List.mem_cons_self))
        have hpost := hpost hzero
        rcases List.mem_cons.1 hb with rfl | hb
        · rwa [hc]
        · have hsorted := (List.pairwise_append.1 hl.sorted).2.1.tail
          exact Nat.le_trans (hc ▸ hpost) ((List.pairwise_cons.1 hsorted).1 b hb)
  rw [if_neg (List.append_ne_nil_of_right_ne_nil _ (List.cons_ne_nil _ _)), List.append_assoc] at hins
  exact hins

/-- An event is put before the first one. -/
theorem insertFirst (hl : event.Lists first l) (hev : ev ≠ 0) (hmem : ev ∉ l)
    (hnext : ∀ b, (event' b).next = if b = ev then first else (event b).next)
    (hprev : ∀ b, (event' b).prev =
      if b = ev then 0 else if first ≠ 0 ∧ b = first then ev else (event b).prev)
    (htime : ∀ b, (event' b).nanotime = (event b).nanotime)
    (hle : first ≠ 0 → (event ev).nanotime ≤ (event first).nanotime) :
    event'.Lists ev (ev :: l) := by
  have hhead : l.head?.getD 0 = first := by
    rw [← List.headD_eq_head?_getD]
    exact hl.linked.next.head_eq.symm
  have hl' : event.Lists first ([] ++ l) := hl
  have hne : ∀ b ∈ [] ++ l, b ≠ ev := fun b hb h => hmem (h ▸ hb)
  refine hl'.insert hev hmem ?_ ?_ (fun b hb => ?_) (fun b hb => ?_) htime nofun (fun b hb => ?_)
  · rw [hnext, if_pos rfl, List.headD_eq_head?_getD, hhead]
  · rw [hprev, if_pos rfl]
    rfl
  · rw [hnext, if_neg (hne b hb), if_neg nofun]
  · simp only [hprev, if_neg (hne b hb), getD_eq_iff hhead (hl.ne_zero hb)]
  · cases l with
    | nil => cases hb
    | cons c l =>
      have hc : c = first := hhead
      have hzero : first ≠ 0 := hc ▸ hl.ne_zero List.mem_cons_self
      refine Nat.le_trans (hle hzero) ?_
      rcases List.mem_cons.1 hb with rfl | hb
      · rw [hc]
      · exact hc ▸ (List.pairwise_cons.1 hl.sorted).1 b hb

/-! ## Loop of `timedPost` -/

/-- The loop stops at an event and puts the new one after it. -/
theorem scanPost (hl : event.Lists first l) (hev : ev ≠ 0) (hmem : ev ∉ l) (fuel : ℕ)
    (hsplit : l = pre ++ scan :: post) (htime : (event scan).nanotime ≤ (event ev).nanotime)
    (h : event.scanPost ev (event ev).nanotime fuel scan = some event') :
    ∃ l', event'.Lists first l' ∧ (∀ a, a ∈ l' ↔ a = ev ∨ a ∈ l) ∧
      ∀ a, (event' a).nanotime = (event a).nanotime := by
  induction fuel generalizing pre scan post with
  | zero => exact nomatch h
  | succ fuel ih =>
    subst hsplit
    have hscan : scan ≠ ev := fun h => hmem (h ▸ List.mem_append_right _ List.mem_cons_self)
    have hmem' : ∀ a, a ∈ pre ++ scan :: ev :: post ↔ a = ev ∨ a ∈ pre ++ scan :: post := by
      intro a
      simp only [List.mem_append, List.mem_cons]
      grind
    rw [Events.scanPost] at h
    split at h
    · next hlast =>
      obtain rfl := Option.some.inj h
      refine ⟨_, hl.insertAfter hev hmem (fun b => ?_) (fun b => ?_) (fun b => ?_) htime ?_, hmem', ?_⟩
      · simp [hlast]
      · simp [hlast]
      · simp
      · exact fun h => absurd hlast h
      · simp
    · next hlast =>
      have hnextMem : (event scan).next ∈ post := by
        have h := (getD_eq_iff hl.next_eq hlast).2 ⟨hlast, rfl⟩
        exact List.mem_of_mem_head? h
      have hnextEv : ev ≠ (event scan).next := fun h =>
        hmem (h ▸ List.mem_append_right _ (List.mem_cons_of_mem _ hnextMem))
      split at h
      · next hbetween =>
        obtain rfl := Option.some.inj h
        refine ⟨_, hl.insertAfter hev hmem (fun b => ?_) (fun b => ?_) (fun b => ?_) htime ?_, hmem', ?_⟩
        · simp
        · simp [hlast]
        · simp
        · exact fun _ => hbetween.2
        · simp
      · next hbetween =>
        obtain ⟨c, post, rfl⟩ := List.exists_cons_of_ne_nil (List.ne_nil_of_mem hnextMem)
        have hc : (event scan).next = c := hl.next_eq.symm
        rw [hc] at h hbetween
        refine ih (?_ : _ = (pre ++ [scan]) ++ c :: post) ?_ h
        · rw [List.append_assoc, List.singleton_append]
        · have := fun hle => hbetween ⟨htime, hle⟩
          omega

/-- The loop returns. -/
theorem exists_scanPost (hl : event.Lists first l) (nanotime : ℕ) (hsplit : l = pre ++ scan :: post) :
    ∃ fuel event', event.scanPost ev nanotime fuel scan = some event' := by
  induction post generalizing pre scan with
  | nil =>
    subst hsplit
    have hlast : (event scan).next = 0 := hl.next_eq.symm
    exact ⟨1, _, by rw [Events.scanPost]; exact if_pos hlast⟩
  | cons c post ih =>
    subst hsplit
    have hc : (event scan).next = c := hl.next_eq.symm
    have hsplit : pre ++ scan :: c :: post = (pre ++ [scan]) ++ c :: post := by
      rw [List.append_assoc, List.singleton_append]
    obtain ⟨fuel, event', h⟩ := ih hsplit
    have hzero : c ≠ 0 :=
      hl.ne_zero (List.mem_append_right _ (List.mem_cons_of_mem _ List.mem_cons_self))
    by_cases hbetween : (event scan).nanotime ≤ nanotime ∧ (event c).nanotime ≥ nanotime
    · refine ⟨1, ?_⟩
      rw [Events.scanPost, hc]
      exact ⟨_, (if_neg hzero).trans (if_pos hbetween)⟩
    · refine ⟨fuel + 1, event', ?_⟩
      rw [Events.scanPost, hc]
      simp only [if_neg hbetween, if_neg hzero]
      exact h

end Lists

end Events

end Glidix.Timer
