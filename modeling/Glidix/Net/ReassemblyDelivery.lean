import Glidix.Net.ReassemblyRuns

/-!
# What the reassembler delivers

Whatever fragments are passed, a packet that is delivered consists of fragments of one datagram, each
beginning where the one before it ends (`delivered_sound`).  And when the fragments of a datagram
arrive, in any order and repeatedly, among fragments of other datagrams and fragments that are
rejected, the datagram is delivered once the last one is there (`Collected`), provided that the
deadline of its list is not cut off (`DeadlineKept`).
-/

namespace Glidix.Net

open Bytes

/-! ## Complete lists -/

section Contiguous

variable {l : List IPFragment} {a : ℕ} {buffer : Bytes} {payload : List UInt8}

/-- The first fragment is at the offset `a`, and each other one where the one before it ends. -/
def Contiguous : ℕ → List IPFragment → Prop
  | _, [] => True
  | a, x :: rest => x.fragOffset = a ∧ Contiguous (a + x.fragSize) rest

/-- Only the last fragment is marked as the last one. -/
def EndsMarked (l : List IPFragment) : Prop :=
  ∃ init last, l = init ++ [last] ∧ last.lastFragment = true ∧ ∀ x ∈ init, x.lastFragment = false

theorem complete_spec (hlt : ∀ x ∈ l, x.fragOffset + x.fragSize < 2 ^ 32)
    (hc : isFragmentListComplete a l = .complete) : Contiguous a l ∧ EndsMarked l := by
  induction l generalizing a with
  | nil => cases hc
  | cons x rest ih =>
    have hx := hlt x List.mem_cons_self
    rw [isFragmentListComplete] at hc
    split at hc
    · cases hc
    · rename_i hoff
      rw [not_not] at hoff
      split at hc
      · rename_i hmark
        split at hc
        · cases hc
        · rename_i hnil
          obtain rfl : rest = [] := not_not.1 hnil
          exact ⟨⟨hoff, trivial⟩, [], x, rfl, hmark, fun _ h => absurd h List.not_mem_nil⟩
      · rename_i hmark
        rw [← hoff, Nat.mod_eq_of_lt hx] at hc
        obtain ⟨hcont, init, last, rfl, hlast, hinit⟩ :=
          ih (fun y hy => hlt y (List.mem_cons_of_mem x hy)) hc
        refine ⟨⟨hoff, hoff ▸ hcont⟩, x :: init, last, rfl, hlast, ?_⟩
        exact List.forall_mem_cons.2 ⟨by simpa using hmark, hinit⟩

/-- The bytes of fragments that follow on each other. -/
def joined (l : List IPFragment) : List UInt8 := (l.map IPFragment.data).flatten

theorem joined_cons {x : IPFragment} : joined (x :: l) = x.data ++ joined l := by
  rw [joined, List.map_cons, List.flatten_cons, joined]

theorem Contiguous.copyFragments (h : Contiguous a l)
    (hlen : ∀ x ∈ l, x.data.length = x.fragSize) :
    copyFragments buffer l = buffer.setRange a (joined l) := by
  induction l generalizing a buffer with
  | nil =>
    funext i
    exact (setRange_of_notMem (by simp [joined])).symm
  | cons x rest ih =>
    obtain ⟨rfl, hrest⟩ := h
    obtain ⟨hx, hlen⟩ := List.forall_mem_cons.1 hlen
    show Net.copyFragments (buffer.setRange x.fragOffset x.data) rest = _
    rw [ih hrest hlen, joined_cons, ← hx, setRange_append]

theorem length_joined (hlen : ∀ x ∈ l, x.data.length = x.fragSize) :
    (joined l).length = calculatePacketSize l := by
  rw [joined, List.length_flatten, List.map_map, calculatePacketSize]
  exact congrArg List.sum (List.map_congr_left hlen)

/-- A list without holes and overlaps gives the bytes of its fragments, one after the other. -/
theorem Contiguous.reassemble {list : IPFragmentList} (h : Contiguous 0 list.fragList)
    (hlen : ∀ x ∈ list.fragList, x.data.length = x.fragSize) :
    reassemble list = deliveryOf list.family list.srcaddr list.dstaddr list.proto
      (joined list.fragList) := by
  have hpacket : (List.range (calculatePacketSize list.fragList)).map
      (Net.copyFragments (fun _ => 0) list.fragList) = joined list.fragList := by
    rw [h.copyFragments hlen, ← length_joined hlen]
    refine List.ext_getElem (by simp) fun i hi hi' => ?_
    rw [List.getElem_map, List.getElem_range]
    exact setRange_of_mem (Nat.zero_le i) hi'
  rw [Net.reassemble, deliveryOf, hpacket]

theorem Contiguous.end_eq {init : List IPFragment} {last : IPFragment}
    (h : Contiguous a (init ++ [last])) :
    a + calculatePacketSize (init ++ [last]) = last.fragOffset + last.fragSize := by
  induction init generalizing a with
  | nil =>
    obtain ⟨rfl, -⟩ := h
    rfl
  | cons x rest ih =>
    obtain ⟨rfl, hrest⟩ := h
    rw [← ih hrest]
    simp only [calculatePacketSize, List.cons_append, List.map_cons, List.sum_cons, Nat.add_assoc]

/-- Slices of a payload that follow on each other are a slice. -/
theorem Contiguous.joined_eq (h : Contiguous a l)
    (hdata : ∀ x ∈ l, x.data = (payload.drop x.fragOffset).take x.fragSize) :
    joined l = (payload.drop a).take (calculatePacketSize l) := by
  induction l generalizing a with
  | nil => rfl
  | cons x rest ih =>
    obtain ⟨rfl, hrest⟩ := h
    obtain ⟨hx, hdata⟩ := List.forall_mem_cons.1 hdata
    have hsum : calculatePacketSize (x :: rest) = x.fragSize + calculatePacketSize rest := rfl
    rw [joined_cons, ih hrest hdata, hx, hsum, List.take_add, List.drop_drop]

end Contiguous

/-! ## Fragments of one datagram only -/

section Sound

variable {calls : List ReasmCall} {lists : List IPFragmentList}

/-- A fragment with a key and a protocol was passed. -/
def Passed (calls : List ReasmCall) (k : DatagramKey) (proto : ℕ) (x : IPFragment) : Prop :=
  ∃ call ∈ calls, ∃ a : PassArgs, call.step = .pass a ∧ a.key = k ∧ a.proto = proto ∧ a.frag = x

def ReasmCall.Valid (call : ReasmCall) : Prop := ∀ a, call.step = .pass a → a.Valid

/-- A packet without a hole or an overlap, of fragments of one datagram that were passed. -/
def Sound (calls : List ReasmCall) (d : Delivery) : Prop :=
  ∃ (k : DatagramKey) (proto : ℕ) (l : List IPFragment), (∀ x ∈ l, Passed calls k proto x) ∧
    Contiguous 0 l ∧ EndsMarked l ∧
    d = deliveryOf k.family k.srcaddr k.dstaddr proto (joined l)

theorem Holds.step {P : DatagramKey → ℕ → IPFragment → Prop} (h : Holds P lists) {call : ReasmCall}
    (hpass : ∀ a, call.step = .pass a → P a.key a.proto a.frag) :
    Holds P (reasmStep lists call) := by
  unfold reasmStep
  split
  · rename_i a hstep
    exact h.pass (hpass a hstep)
  · exact h.thread

theorem Holds.run {P : DatagramKey → ℕ → IPFragment → Prop} (h : Holds P lists)
    (hpass : ∀ call ∈ calls, ∀ a, call.step = .pass a → P a.key a.proto a.frag) :
    Holds P (reasmRun lists calls) := by
  induction calls generalizing lists with
  | nil => exact h
  | cons call calls ih =>
    obtain ⟨hcall, hcalls⟩ := List.forall_mem_cons.1 hpass
    exact ih (h.step hcall) hcalls

/-- A list that a turn makes a packet of is contiguous, and the packet is what its fragments say. -/
theorem completed_spec {ticks : ℕ} {list : IPFragmentList} (h : list ∈ completed ticks lists)
    (hlen : ∀ x ∈ list.fragList, x.data.length = x.fragSize)
    (hlt : ∀ x ∈ list.fragList, x.fragOffset + x.fragSize < 2 ^ 32) :
    Contiguous 0 list.fragList ∧ EndsMarked list.fragList ∧ reassemble list =
      deliveryOf list.family list.srcaddr list.dstaddr list.proto (joined list.fragList) := by
  have hcomplete := List.of_mem_filter h
  simp only [Bool.decide_and, Bool.and_eq_true, decide_eq_true_eq] at hcomplete
  obtain ⟨hcont, hends⟩ := complete_spec hlt hcomplete.2
  exact ⟨hcont, hends, hcont.reassemble hlen⟩

/-- Every packet of every turn, in every run. -/
theorem delivered_sound (hvalid : ∀ call ∈ calls, call.Valid) {ticks : ℕ} {d : Delivery}
    (hd : d ∈ (ipreasmThread ticks (reasmRun [] calls)).2) : Sound calls d := by
  have hall : Holds (fun k proto x => Passed calls k proto x ∧ x.data.length = x.fragSize ∧
      x.fragOffset + x.fragSize < 2 ^ 32) (reasmRun [] calls) := by
    refine Holds.run (fun _ h => absurd h List.not_mem_nil) fun call hcall a hstep => ?_
    have ha := hvalid call hcall a hstep
    refine ⟨⟨call, hcall, a, hstep, rfl, rfl, rfl⟩, ?_, ha.end_lt⟩
    exact List.length_take_of_le ha.size_le
  rw [ipreasmThread_deliveries] at hd
  obtain ⟨list, hlist, rfl⟩ := List.mem_map.1 hd
  have hx := hall list (List.mem_of_mem_filter hlist)
  obtain ⟨hcont, hends, hd⟩ := completed_spec hlist (fun x h => (hx x h).2.1)
    fun x h => (hx x h).2.2
  exact ⟨list.key, list.proto, list.fragList, fun x h => (hx x h).1, hcont, hends, hd⟩

end Sound

/-! ## Datagrams -/

/-- A datagram that was cut into fragments. -/
structure Datagram where
  key : DatagramKey
  proto : ℕ
  payload : List UInt8
  frags : List IPFragment
  fragments : Fragments frags payload.length
  data : ∀ x ∈ frags, x.data = (payload.drop x.fragOffset).take x.fragSize

namespace Datagram

variable (D : Datagram)

/-- The packet that is to be delivered. -/
def delivery : Delivery :=
  deliveryOf D.key.family D.key.srcaddr D.key.dstaddr D.proto D.payload

/-- `ipreasmPass` is called with a fragment of the datagram. -/
structure Brings (a : PassArgs) : Prop where
  key : a.key = D.key
  proto : a.proto = D.proto
  frag : a.frag ∈ D.frags

/-- A fragment of the datagram has arrived. -/
def Arrived (calls : List ReasmCall) (x : IPFragment) : Prop :=
  ∃ call ∈ calls, ∃ a : PassArgs, call.step = .pass a ∧ D.Brings a ∧ a.frag = x

/-- A turn of the thread; or a fragment arrives that is one of the datagram, belongs to another
datagram, or is rejected. -/
def Allowed (lists : List IPFragmentList) (call : ReasmCall) : Prop :=
  ∀ a, call.step = .pass a → D.Brings a ∨ a.key ≠ D.key ∨ reasmStep lists call = lists

/-- Such calls, one after the other. -/
def Allows : List IPFragmentList → List ReasmCall → Prop
  | _, [] => True
  | lists, call :: calls => D.Allowed lists call ∧ Allows (reasmStep lists call) calls

/-- What a turn delivers of the lists of the datagram. -/
def delivered (ticks : ℕ) (lists : List IPFragmentList) : List Delivery :=
  (ofKey D.key (completed ticks lists)).map reassemble

/-- What a turn delivers after some calls: nothing while a fragment is missing, the datagram when the
last one has arrived after the turn before, and nothing but the datagram later. -/
structure Reassembled (lists : List IPFragmentList) (calls : List ReasmCall) (ticks : ℕ) :
    Prop where
  early : (∃ x ∈ D.frags, ¬ D.Arrived calls x) → D.delivered ticks (reasmRun lists calls) = []
  whole : ∀ before after, calls = before ++ after → (∀ call ∈ after, call.step ≠ .thread) →
    (∃ x ∈ D.frags, ¬ D.Arrived before x) → (∀ x ∈ D.frags, D.Arrived calls x) →
      D.delivered ticks (reasmRun lists calls) = [D.delivery]
  only : ∀ d ∈ D.delivered ticks (reasmRun lists calls), d = D.delivery

end Datagram

/-! ## Collecting the fragments -/

section Collect

variable {D : Datagram} {T : ℕ} {lists : List IPFragmentList} {calls more : List ReasmCall}
  {call : ReasmCall} {a : PassArgs} {x : IPFragment} {ticks : ℕ}

theorem Datagram.delivered_eq :
    D.delivered ticks lists = (ipreasmThread ticks (ofKey D.key lists)).2 := by
  rw [Datagram.delivered, ofKey_completed, ipreasmThread_deliveries]

theorem Datagram.Arrived.mem (h : D.Arrived calls x) : x ∈ D.frags := by
  obtain ⟨call, -, a, -, ha, rfl⟩ := h
  exact ha.frag

theorem Datagram.arrived_append :
    D.Arrived (calls ++ more) x ↔ D.Arrived calls x ∨ D.Arrived more x := by
  simp only [Datagram.Arrived, List.mem_append, or_and_right, exists_or]

theorem Datagram.arrived_singleton :
    D.Arrived [call] x ↔ ∃ a, call.step = .pass a ∧ D.Brings a ∧ a.frag = x := by
  simp only [Datagram.Arrived, List.mem_singleton, exists_eq_left]

/-- The fragments that have arrived, and no others, are in the one list of the datagram, which is
kept until the time `T`. -/
def Collected (D : Datagram) (T : ℕ) (calls : List ReasmCall) (lists : List IPFragmentList) :
    Prop :=
  ∃ recv rem, recv ≠ [] ∧ (recv ++ rem).Perm D.frags ∧ (∀ x, x ∈ recv ↔ D.Arrived calls x) ∧
    ReasmInv D.key.family D.key.srcaddr D.key.dstaddr D.key.id D.proto T recv (ofKey D.key lists)

/-- What has arrived after a call that brings no new fragment. -/
theorem Collected.keep (h : Collected D T calls lists) {lists' : List IPFragmentList}
    (hlists : ofKey D.key lists' = ofKey D.key lists)
    (harrived : ∀ x, D.Arrived [call] x → D.Arrived calls x) :
    Collected D T (calls ++ [call]) lists' := by
  obtain ⟨recv, rem, hne, hperm, hrecv, hinv⟩ := h
  refine ⟨recv, rem, hne, hperm, fun x => ?_, hlists ▸ hinv⟩
  rw [hrecv, Datagram.arrived_append]
  exact ⟨Or.inl, fun h => h.elim id (harrived x)⟩

theorem Datagram.Brings.pass_eq (ha : D.Brings a) :
    a.pass lists ticks = ipreasmPass D.key.family D.key.srcaddr D.key.dstaddr D.key.id lists ticks
      D.proto a.frag.fragOffset a.data a.frag.fragSize (!a.frag.lastFragment) := by
  rw [PassArgs.pass, ha.key, ha.proto]
  simp only [PassArgs.frag, Bool.not_not]

theorem arrived_of_brings (ha : D.Brings a) :
    D.Arrived [⟨ticks, .pass a⟩] x ↔ x = a.frag := by
  rw [Datagram.arrived_singleton]
  constructor
  · rintro ⟨a', h, -, rfl⟩
    cases h
    rfl
  · rintro rfl
    exact ⟨a, rfl, ha, rfl⟩

/-- The first fragment makes a list. -/
theorem collected_first (ha : D.Brings a) (hnone : ∀ list ∈ lists, list.key ≠ D.key)
    (hT : T ≤ readDeadline (newDeadline ticks)) :
    Collected D T [⟨ticks, .pass a⟩] (a.pass lists ticks) := by
  have hempty : ofKey D.key lists = [] := List.filter_eq_nil_iff.2 fun list h => by
    simpa using hnone list h
  obtain ⟨before, after, hsplit⟩ := List.append_of_mem ha.frag
  have hperm : ([a.frag] ++ (before ++ after)).Perm D.frags := by
    rw [hsplit]
    show (a.frag :: (before ++ after)).Perm _
    exact List.perm_middle.symm
  refine ⟨[a.frag], before ++ after, List.cons_ne_nil _ _, hperm, fun x => ?_, ?_⟩
  · rw [List.mem_singleton, arrived_of_brings ha]
  · have hnew : ReasmInv D.key.family D.key.srcaddr D.key.dstaddr D.key.id D.proto T [] [] :=
      Or.inl ⟨rfl, rfl⟩
    rw [← ha.key, ofKey_pass, ha.key, hempty, ha.pass_eq]
    exact hnew.pass D.fragments hperm (fun _ => hT) rfl

theorem rem_ne_nil {recv rem ds : List IPFragment} (hperm : (recv ++ rem).Perm ds) (hx : x ∈ ds)
    (hmiss : x ∉ recv) : rem ≠ [] := by
  rintro rfl
  rw [List.append_nil] at hperm
  exact hmiss (hperm.symm.subset hx)

/-- One call keeps the invariant; the thread has a turn only while a fragment is missing. -/
theorem Collected.step (h : Collected D T calls lists) (hcall : D.Allowed lists call)
    (hticks : call.ticks < T)
    (hmissing : call.step = .thread → ∃ x ∈ D.frags, ¬ D.Arrived calls x) :
    Collected D T (calls ++ [call]) (reasmStep lists call) := by
  obtain ⟨ticks, step⟩ := call
  have hnew : step = .thread → ∀ x, D.Arrived [⟨ticks, step⟩] x → D.Arrived calls x := by
    rintro rfl x hx
    obtain ⟨a, e, -⟩ := Datagram.arrived_singleton.1 hx
    cases e
  cases step with
  | thread =>
    have hinc : ofKey D.key (ipreasmThread ticks lists).1 = ofKey D.key lists := by
      obtain ⟨recv, rem, -, hperm, hrecv, hinv⟩ := h
      obtain ⟨x, hx, hmiss⟩ := hmissing rfl
      have hrem := rem_ne_nil hperm hx ((hrecv x).not.2 hmiss)
      rw [ofKey_ipreasmThread, hinv.thread_incomplete D.fragments hperm hrem hticks]
    exact h.keep hinc (hnew rfl)
  | pass a =>
    by_cases ha : D.Brings a
    · obtain ⟨recv, rem, hne, hperm, hrecv, hinv⟩ := h
      have hlists : ofKey D.key (a.pass lists ticks) = a.pass (ofKey D.key lists) ticks := by
        rw [← ha.key, ofKey_pass]
      by_cases hagain : a.frag ∈ recv
      · have h : Collected D T calls lists := ⟨recv, rem, hne, hperm, hrecv, hinv⟩
        refine h.keep ?_ fun x hx => ?_
        · rw [reasmStep]
          dsimp only
          rw [hlists, ha.pass_eq]
          exact hinv.pass_again D.fragments hperm hagain
        · rw [arrived_of_brings ha] at hx
          exact (hrecv x).1 (hx ▸ hagain)
      · have hmem := (List.mem_append.1 (hperm.symm.subset ha.frag)).resolve_left hagain
        obtain ⟨before, after, rfl⟩ := List.append_of_mem hmem
        have hperm' : (recv ++ a.frag :: (before ++ after)).Perm D.frags :=
          (List.Perm.append_left recv List.perm_middle.symm).trans hperm
        refine ⟨a.frag :: recv, before ++ after, List.cons_ne_nil _ _,
          List.perm_middle.symm.trans hperm', fun x => ?_, ?_⟩
        · rw [List.mem_cons, Datagram.arrived_append, arrived_of_brings ha, hrecv, or_comm]
        · rw [reasmStep]
          dsimp only
          rw [hlists, ha.pass_eq]
          exact hinv.pass D.fragments hperm' (fun h => absurd h hne) rfl
    · have hnone : ∀ x, D.Arrived [⟨ticks, .pass a⟩] x → D.Arrived calls x := fun x hx => by
        obtain ⟨a', e, ha', -⟩ := Datagram.arrived_singleton.1 hx
        cases e
        exact absurd ha' ha
      rcases hcall a rfl with hb | hne | hsame
      · exact absurd hb ha
      · exact h.keep (ofKey_pass_of_ne hne) hnone
      · exact h.keep (congrArg _ hsame) hnone

theorem allows_append : D.Allows lists (calls ++ more) ↔
    D.Allows lists calls ∧ D.Allows (reasmRun lists calls) more := by
  induction calls generalizing lists with
  | nil => exact ⟨fun h => ⟨trivial, h⟩, fun h => h.2⟩
  | cons call calls ih => exact (and_congr_right fun _ => ih).trans and_assoc.symm

/-- A run keeps it, if a fragment is missing all the time or the thread has no turn. -/
theorem Collected.run (h : Collected D T calls lists) (hallows : D.Allows lists more)
    (hticks : ∀ call ∈ more, call.ticks < T)
    (hmore : (∃ x ∈ D.frags, ¬ D.Arrived (calls ++ more) x) ∨
      ∀ call ∈ more, call.step ≠ .thread) :
    Collected D T (calls ++ more) (reasmRun lists more) := by
  induction more generalizing calls lists with
  | nil => rwa [List.append_nil]
  | cons call more ih =>
    obtain ⟨hcall, hallows⟩ := hallows
    obtain ⟨htick, hticks⟩ := List.forall_mem_cons.1 hticks
    have hassoc : calls ++ call :: more = (calls ++ [call]) ++ more := by simp
    have hstep : Collected D T (calls ++ [call]) (reasmStep lists call) := by
      refine h.step hcall htick fun hthread => ?_
      rcases hmore with ⟨x, hx, hmiss⟩ | hno
      · exact ⟨x, hx, fun harrived => hmiss (Datagram.arrived_append.2 (Or.inl harrived))⟩
      · exact absurd hthread (hno call List.mem_cons_self)
    rw [hassoc] at hmore ⊢
    refine ih hstep hallows hticks (hmore.imp id fun hno => ?_)
    exact fun c hc => hno c (List.mem_cons_of_mem call hc)

/-- A turn while a fragment is missing. -/
theorem Collected.early (h : Collected D T calls lists) (hticks : ticks < T)
    (hmissing : ∃ x ∈ D.frags, ¬ D.Arrived calls x) : D.delivered ticks lists = [] := by
  obtain ⟨recv, rem, -, hperm, hrecv, hinv⟩ := h
  obtain ⟨x, hx, hmiss⟩ := hmissing
  have hrem := rem_ne_nil hperm hx ((hrecv x).not.2 hmiss)
  rw [Datagram.delivered_eq, hinv.thread_incomplete D.fragments hperm hrem hticks]

/-- A turn when all fragments are there. -/
theorem Collected.whole (h : Collected D T calls lists) (hticks : ticks < T)
    (hall : ∀ x ∈ D.frags, D.Arrived calls x) : D.delivered ticks lists = [D.delivery] := by
  obtain ⟨recv, rem, -, hperm, hrecv, hinv⟩ := h
  have hnodup : D.frags.Nodup := D.fragments.tiles.pairwise.imp_of_mem
    fun {x y} hx _ hxy e => by
      have := D.fragments.tiles.size_pos hx
      subst e
      unfold Before at hxy
      omega
  obtain rfl : rem = [] := by
    refine List.eq_nil_iff_forall_not_mem.2 fun x hx => ?_
    have hrecv := (hrecv x).2 (hall x (hperm.subset (List.mem_append_right recv hx)))
    exact (List.nodup_append.1 (hperm.nodup_iff.2 hnodup)).2.2 x hrecv x hx rfl
  rw [List.append_nil] at hperm
  rw [Datagram.delivered_eq, hinv.thread_complete D.fragments D.data hperm hticks]
  rfl

/-! ## Nothing but the datagram -/

/-- The lists of the datagram hold nothing but its fragments. -/
abbrev OwnOnly (D : Datagram) : List IPFragmentList → Prop :=
  Holds fun k proto x => k = D.key → proto = D.proto ∧ x ∈ D.frags

theorem OwnOnly.run (h : OwnOnly D lists) (hallows : D.Allows lists calls) :
    OwnOnly D (reasmRun lists calls) := by
  induction calls generalizing lists with
  | nil => exact h
  | cons call calls ih =>
    obtain ⟨hcall, hallows⟩ := hallows
    refine ih ?_ hallows
    by_cases hsame : reasmStep lists call = lists
    · rwa [hsame]
    · refine Holds.step h fun a hstep hkey => ?_
      rcases hcall a hstep with ha | hne | hrejected
      · exact ⟨ha.proto, ha.frag⟩
      · exact absurd hkey hne
      · exact absurd hrejected hsame

/-- A complete list of fragments of the datagram gives it back. -/
theorem OwnOnly.delivered (h : OwnOnly D lists) {d : Delivery} (hd : d ∈ D.delivered ticks lists) :
    d = D.delivery := by
  obtain ⟨list, hlist, rfl⟩ := List.mem_map.1 hd
  have hkey : list.key = D.key := by simpa using List.of_mem_filter hlist
  have hcompleted := List.mem_of_mem_filter hlist
  have hown := fun x hx => h list (List.mem_of_mem_filter hcompleted) x hx hkey
  have hlen : ∀ x ∈ list.fragList, x.data.length = x.fragSize := fun x hx => by
    have hbound := (D.fragments.tiles.bounds (hown x hx).2).2
    rw [D.data x (hown x hx).2, List.length_take, List.length_drop]
    omega
  obtain ⟨hcont, ⟨init, last, hsplit, hmark, -⟩, hd⟩ := completed_spec hcompleted hlen
    fun x hx => D.fragments.lt (hown x hx).2
  have hlast := hown last (hsplit ▸ List.mem_append_right init (List.mem_singleton_self last))
  have hsize : calculatePacketSize list.fragList = D.payload.length := by
    have hend := (D.fragments.last last hlast.2).1 hmark
    rw [hsplit] at hcont ⊢
    have := hcont.end_eq
    omega
  have hjoined : joined list.fragList = D.payload := by
    rw [hcont.joined_eq fun x hx => D.data x (hown x hx).2, hsize, List.drop_zero, List.take_length]
  rw [hd, hjoined, hlast.1, Datagram.delivery, ← hkey]
  rfl

end Collect

/-! ## The deadline -/

section Deadline

variable {lists : List IPFragmentList} {ticks : ℕ}

/-- A deadline set at this time is not cut off, or it is read as one that never comes. -/
def DeadlineKept (ticks : ℕ) : Prop :=
  ticks + 60000 < 2 ^ 31 ∨ 2 ^ 31 ≤ (ticks + 60000) % 2 ^ 32

instance : Decidable (DeadlineKept ticks) := inferInstanceAs (Decidable (_ ∨ _))

theorem readDeadline_eq (d : BitVec 32) :
    readDeadline d = if d.toNat < 2 ^ 31 then d.toNat else d.toNat + (2 ^ 64 - 2 ^ 32) := by
  have hlt := d.isLt
  rw [readDeadline, BitVec.toNat_signExtend, BitVec.toNat_setWidth, BitVec.msb_eq_decide]
  split_ifs <;> simp_all <;> omega

theorem DeadlineKept.le (h : DeadlineKept ticks) (hticks : ticks < 2 ^ 64) :
    ticks + 60000 ≤ readDeadline (newDeadline ticks) := by
  unfold DeadlineKept at h
  rw [readDeadline_eq, newDeadline, BitVec.toNat_ofNat]
  split_ifs <;> omega

/-- A deadline that is cut off has passed already. -/
theorem passed_of_not_kept (h : ¬ DeadlineKept ticks) : readDeadline (newDeadline ticks) ≤ ticks := by
  unfold DeadlineKept at h
  rw [readDeadline_eq, newDeadline, BitVec.toNat_ofNat]
  split_ifs <;> omega

end Deadline

/-! ## Reassembly -/

/-- Every packet that is delivered, in any run, is without a hole and an overlap and made of fragments
of one datagram; and a datagram whose first fragment arrives at the time `T` is delivered when its
last fragment has arrived, if all calls come within 60000 ticks. -/
structure Reassembles (T : ℕ) : Prop where
  sound : ∀ calls, (∀ call ∈ calls, call.Valid) → ∀ ticks,
    ∀ d ∈ (ipreasmThread ticks (reasmRun [] calls)).2, Sound calls d
  datagrams : ∀ (D : Datagram) (lists : List IPFragmentList),
    (∀ list ∈ lists, list.key ≠ D.key) → ∀ (a : PassArgs) (calls : List ReasmCall), D.Brings a →
      D.Allows lists (⟨T, .pass a⟩ :: calls) → (∀ call ∈ calls, call.ticks < T + 60000) →
        ∀ ticks < T + 60000, D.Reassembled lists (⟨T, .pass a⟩ :: calls) ticks

theorem reassembled_of_kept {D : Datagram} {lists : List IPFragmentList} {a : PassArgs} {T ticks : ℕ}
    {calls : List ReasmCall} (hT : T < 2 ^ 64) (hkept : DeadlineKept T)
    (hnone : ∀ list ∈ lists, list.key ≠ D.key) (ha : D.Brings a)
    (hallows : D.Allows lists (⟨T, .pass a⟩ :: calls))
    (hcalls : ∀ call ∈ calls, call.ticks < T + 60000) (hticks : ticks < T + 60000) :
    D.Reassembled lists (⟨T, .pass a⟩ :: calls) ticks := by
  have hfirst := collected_first ha hnone (hkept.le hT)
  refine ⟨fun hmissing => ?_, fun before after hsplit hno hmissing hall => ?_, fun d hd => ?_⟩
  · exact (hfirst.run hallows.2 hcalls (Or.inl hmissing)).early hticks hmissing
  · cases before with
    | nil =>
      obtain rfl : ⟨T, .pass a⟩ :: calls = after := hsplit
      refine (hfirst.run hallows.2 hcalls (Or.inr fun c hc => ?_)).whole hticks hall
      exact hno c (List.mem_cons_of_mem _ hc)
    | cons first before =>
      rw [List.cons_append] at hsplit
      obtain ⟨rfl, rfl⟩ := List.cons.inj hsplit
      obtain ⟨hbefore, hafter⟩ := allows_append.1 hallows.2
      obtain ⟨hcalls, hcalls'⟩ := List.forall_mem_append.1 hcalls
      have hrun := (hfirst.run hbefore hcalls (Or.inl hmissing)).run hafter hcalls' (Or.inr hno)
      have hstate : reasmRun lists (⟨T, .pass a⟩ :: (before ++ after)) =
          reasmRun (reasmRun (a.pass lists T) before) after := by
        simp only [reasmRun, List.foldl_cons, List.foldl_append]
        rfl
      rw [hstate]
      exact hrun.whole hticks (by simpa using hall)
  · have hown : OwnOnly D lists := fun list hlist x hx hkey => absurd hkey (hnone list hlist)
    exact (hown.run hallows).delivered hd

/-- A datagram of one byte, in one fragment. -/
def oneByte : Datagram where
  key := ⟨.inet, List.replicate 16 0, List.replicate 16 0, 1⟩
  proto := 17
  payload := [7]
  frags := [⟨true, 0, 1, [7]⟩]
  fragments := ⟨⟨rfl, by decide, rfl⟩, by decide, by decide, by decide⟩
  data := by decide

/-- Its fragment arrives. -/
def oneByteArgs : PassArgs := ⟨oneByte.key, 17, 0, [7], 1, false⟩

theorem oneByte_brings : oneByte.Brings oneByteArgs := ⟨rfl, rfl, by decide⟩

/-- The turn right after the fragment of `oneByte` drops it when its deadline is cut off. -/
theorem kept_of_reassembles {T : ℕ} (h : Reassembles T) : DeadlineKept T := by
  by_contra hkept
  have hturn := h.datagrams oneByte [] (fun _ h => absurd h List.not_mem_nil) oneByteArgs []
    oneByte_brings ⟨fun a ha => Or.inl (by cases ha; exact oneByte_brings), trivial⟩
    (fun _ h => absurd h List.not_mem_nil) T (by omega)
  have harrived : ∀ x ∈ oneByte.frags, oneByte.Arrived [⟨T, .pass oneByteArgs⟩] x := fun x hx =>
    (arrived_of_brings oneByte_brings).2 (List.mem_singleton.1 hx)
  have hdelivered := hturn.whole [] [⟨T, .pass oneByteArgs⟩] rfl (by simp)
    ⟨_, List.mem_singleton_self _, fun ⟨c, hc, _⟩ => absurd hc List.not_mem_nil⟩ harrived
  have hpassed := passed_of_not_kept hkept
  have hlists : reasmRun [] [⟨T, .pass oneByteArgs⟩] = [⟨.inet, newDeadline T,
      List.replicate 16 0, List.replicate 16 0, 1, 17, [⟨true, 0, 1, [7]⟩]⟩] := rfl
  have hnothing : completed T (reasmRun [] [⟨T, .pass oneByteArgs⟩]) = [] := by
    rw [hlists, completed, List.filter_cons_of_neg (by simp; omega), List.filter_nil]
  rw [Datagram.delivered, hnothing] at hdelivered
  cases hdelivered

end Glidix.Net
