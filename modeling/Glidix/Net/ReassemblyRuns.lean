import Glidix.Net.ReassemblyOrder

/-!
# Runs of the reassembler

Fragments of many datagrams arrive in any order, with turns of the thread between them.  The lists of
one datagram change as if there were no others (`ofKey_ipreasmPass`, `ipreasmThread_ofKey`), so the
results about one datagram carry over.  The deadline of a list is kept in an `int` and compared with
an uptime of 64 bits; a datagram is put together when the deadline survives that (`DeadlineKept`).
-/

namespace Glidix.Net

/-! ## Calls -/

/-- What `isMatchingFragmentList` compares. -/
structure DatagramKey where
  family : Family
  srcaddr : List UInt8
  dstaddr : List UInt8
  id : ℕ
  deriving DecidableEq

/-- The arguments of `ipreasmPass`. -/
structure PassArgs where
  key : DatagramKey
  proto : ℕ
  fragOff : ℕ
  data : List UInt8
  fragSize : ℕ
  moreFrags : Bool

/-- The fragment that is to be put into a list. -/
def PassArgs.frag (a : PassArgs) : IPFragment :=
  ⟨!a.moreFrags, a.fragOff, a.fragSize, a.data.take a.fragSize⟩

/-- The data are there, and the offset and the size, from fields of 16 bits, do not overflow. -/
structure PassArgs.Valid (a : PassArgs) : Prop where
  size_le : a.fragSize ≤ a.data.length
  end_lt : a.fragOff + a.fragSize < 2 ^ 32

def PassArgs.pass (a : PassArgs) (lists : List IPFragmentList) (ticks : ℕ) : List IPFragmentList :=
  ipreasmPass a.key.family a.key.srcaddr a.key.dstaddr a.key.id lists ticks a.proto a.fragOff a.data
    a.fragSize a.moreFrags

/-- A fragment is passed to the reassembler, or its thread has a turn. -/
inductive ReasmStep where
  | pass (a : PassArgs)
  | thread

structure ReasmCall where
  ticks : ℕ
  step : ReasmStep

def reasmStep (lists : List IPFragmentList) (call : ReasmCall) : List IPFragmentList :=
  match call.step with
  | .pass a => a.pass lists call.ticks
  | .thread => (ipreasmThread call.ticks lists).1

/-- The lists after some calls. -/
def reasmRun (lists : List IPFragmentList) (calls : List ReasmCall) : List IPFragmentList :=
  calls.foldl reasmStep lists

/-- The lists that a turn of the thread makes packets of. -/
def completed (ticks : ℕ) (lists : List IPFragmentList) : List IPFragmentList :=
  lists.filter fun list =>
    ticks < readDeadline list.deadlineTicks ∧ isFragmentListComplete 0 list.fragList = .complete

def IPFragmentList.key (list : IPFragmentList) : DatagramKey :=
  ⟨list.family, list.srcaddr, list.dstaddr, list.id⟩

/-- The lists of a datagram. -/
def ofKey (k : DatagramKey) (lists : List IPFragmentList) : List IPFragmentList :=
  lists.filter fun list => list.key = k

/-! ## One datagram among others -/

section OfKey

variable {lists : List IPFragmentList} {k : DatagramKey} {ticks : ℕ}

theorem isMatchingFragmentList_iff {list : IPFragmentList} :
    isMatchingFragmentList k.family k.srcaddr k.dstaddr k.id list = true ↔ list.key = k := by
  simp only [isMatchingFragmentList, Bool.and_eq_true, beq_iff_eq, IPFragmentList.key]
  constructor
  · rintro ⟨⟨⟨hsrc, hdst⟩, hid⟩, hfamily⟩
    rw [hsrc, hdst, hid, hfamily]
  · rintro rfl
    exact ⟨⟨⟨rfl, rfl⟩, rfl⟩, rfl⟩

theorem ofKey_cons_of_eq {list : IPFragmentList} (h : list.key = k) :
    ofKey k (list :: lists) = list :: ofKey k lists :=
  List.filter_cons_of_pos (by simpa using h)

theorem ofKey_cons_of_ne {list : IPFragmentList} (h : list.key ≠ k) :
    ofKey k (list :: lists) = ofKey k lists :=
  List.filter_cons_of_neg (by simpa using h)

theorem ofKey_append {lists' : List IPFragmentList} :
    ofKey k (lists ++ lists') = ofKey k lists ++ ofKey k lists' :=
  List.filter_append _ _

/-- The loop looks at the lists of its own datagram only. -/
theorem ofKey_passToLists (lists : List IPFragmentList) (proto : ℕ) (frag : IPFragment) :
    ((passToLists k.family k.srcaddr k.dstaddr k.id proto frag lists).1,
        ofKey k (passToLists k.family k.srcaddr k.dstaddr k.id proto frag lists).2) =
      passToLists k.family k.srcaddr k.dstaddr k.id proto frag (ofKey k lists) := by
  induction lists with
  | nil => rfl
  | cons list rest ih =>
    by_cases hkey : list.key = k
    · have hmatch := isMatchingFragmentList_iff.2 hkey
      rw [ofKey_cons_of_eq hkey, passToLists, passToLists, if_pos hmatch, if_pos hmatch]
      by_cases hproto : list.proto ≠ proto
      · rw [if_pos hproto, if_pos hproto, ofKey_cons_of_eq hkey]
      · rw [if_neg hproto, if_neg hproto]
        cases placeFragment frag list.fragList with
        | none =>
          dsimp only
          rw [ofKey_cons_of_eq hkey]
        | some fragList =>
          have hkey' : ({ list with fragList } : IPFragmentList).key = k := hkey
          dsimp only
          rw [ofKey_cons_of_eq hkey', ← ih]
    · have hmatch : ¬ isMatchingFragmentList k.family k.srcaddr k.dstaddr k.id list = true :=
        fun h => hkey (isMatchingFragmentList_iff.1 h)
      rw [ofKey_cons_of_ne hkey, ← ih, passToLists, if_neg hmatch]
      dsimp only
      rw [ofKey_cons_of_ne hkey]

/-- The loop leaves the lists of other datagrams as they are. -/
theorem ofKey_passToLists_of_ne {k' : DatagramKey} (hk : k' ≠ k) (lists : List IPFragmentList)
    (proto : ℕ) (frag : IPFragment) :
    ofKey k (passToLists k'.family k'.srcaddr k'.dstaddr k'.id proto frag lists).2 =
      ofKey k lists := by
  induction lists with
  | nil => rfl
  | cons list rest ih =>
    rw [passToLists]
    by_cases hkey : list.key = k'
    · rw [if_pos (isMatchingFragmentList_iff.2 hkey)]
      split
      · rfl
      · cases placeFragment frag list.fragList with
        | none => rfl
        | some fragList =>
          have hkey' : ({ list with fragList } : IPFragmentList).key ≠ k := hkey.trans_ne hk
          dsimp only
          rw [ofKey_cons_of_ne hkey', ih, ofKey_cons_of_ne (hkey.trans_ne hk)]
    · rw [if_neg fun h => hkey (isMatchingFragmentList_iff.1 h)]
      dsimp only
      by_cases hlist : list.key = k
      · rw [ofKey_cons_of_eq hlist, ofKey_cons_of_eq hlist, ih]
      · rw [ofKey_cons_of_ne hlist, ofKey_cons_of_ne hlist, ih]

theorem ofKey_pass (a : PassArgs) :
    ofKey a.key (a.pass lists ticks) = a.pass (ofKey a.key lists) ticks := by
  have h := ofKey_passToLists (k := a.key) lists a.proto a.frag
  unfold PassArgs.pass ipreasmPass
  simp only [PassArgs.frag] at h ⊢
  rw [← h]
  dsimp only
  split
  · rfl
  · rw [ofKey_append]
    congr 1
    exact ofKey_cons_of_eq rfl

theorem ofKey_pass_of_ne {a : PassArgs} (hk : a.key ≠ k) :
    ofKey k (a.pass lists ticks) = ofKey k lists := by
  have h := ofKey_passToLists_of_ne hk lists a.proto a.frag
  unfold PassArgs.pass ipreasmPass
  simp only [PassArgs.frag] at h ⊢
  split
  · exact h
  · have hnew : (⟨a.key.family, newDeadline ticks, a.key.srcaddr, a.key.dstaddr, a.key.id, a.proto,
        [a.frag]⟩ : IPFragmentList).key ≠ k := hk
    rw [ofKey_append, h]
    exact (congrArg _ (ofKey_cons_of_ne hnew)).trans (List.append_nil _)

theorem ipreasmThread_cons {list : IPFragmentList} :
    ipreasmThread ticks (list :: lists) =
      if ticks ≥ readDeadline list.deadlineTicks then ipreasmThread ticks lists
      else
        match isFragmentListComplete 0 list.fragList with
        | .complete =>
          ((ipreasmThread ticks lists).1, reassemble list :: (ipreasmThread ticks lists).2)
        | .invalid =>
          ({ list with deadlineTicks := 1 } :: (ipreasmThread ticks lists).1,
            (ipreasmThread ticks lists).2)
        | .incomplete => (list :: (ipreasmThread ticks lists).1, (ipreasmThread ticks lists).2) :=
  rfl

/-- The packets that a turn delivers. -/
theorem ipreasmThread_deliveries :
    (ipreasmThread ticks lists).2 = (completed ticks lists).map reassemble := by
  induction lists with
  | nil => rfl
  | cons list rest ih =>
    rw [ipreasmThread_cons, completed]
    split
    · rename_i hlate
      rw [List.filter_cons_of_neg (by simp; omega), ih]
      rfl
    · rename_i hlate
      cases hc : isFragmentListComplete 0 list.fragList with
      | complete =>
        rw [List.filter_cons_of_pos (by simp [hc]; omega), List.map_cons, ← completed, ← ih]
      | invalid => rw [List.filter_cons_of_neg (by simp [hc]), ← completed, ← ih]
      | incomplete => rw [List.filter_cons_of_neg (by simp [hc]), ← completed, ← ih]

theorem ofKey_completed : ofKey k (completed ticks lists) = completed ticks (ofKey k lists) :=
  List.filter_comm _ _ lists

/-- A turn treats the lists of a datagram as if they were alone. -/
theorem ofKey_ipreasmThread :
    ofKey k (ipreasmThread ticks lists).1 = (ipreasmThread ticks (ofKey k lists)).1 := by
  induction lists with
  | nil => rfl
  | cons list rest ih =>
    rw [ipreasmThread_cons]
    by_cases hkey : list.key = k
    · rw [ofKey_cons_of_eq hkey, ipreasmThread_cons]
      split
      · exact ih
      · cases isFragmentListComplete 0 list.fragList with
        | complete => exact ih
        | invalid =>
          have hkey' : ({ list with deadlineTicks := 1 } : IPFragmentList).key = k := hkey
          exact (ofKey_cons_of_eq hkey').trans (congrArg _ ih)
        | incomplete => exact (ofKey_cons_of_eq hkey).trans (congrArg _ ih)
    · rw [ofKey_cons_of_ne hkey]
      split
      · exact ih
      · cases isFragmentListComplete 0 list.fragList with
        | complete => exact ih
        | invalid =>
          have hkey' : ({ list with deadlineTicks := 1 } : IPFragmentList).key ≠ k := hkey
          exact (ofKey_cons_of_ne hkey').trans ih
        | incomplete => exact (ofKey_cons_of_ne hkey).trans ih

end OfKey

/-! ## What the lists are made of -/

section Holds

variable {frag x : IPFragment} {l l' : List IPFragment} {lists : List IPFragmentList} {ticks : ℕ}

theorem mem_of_scanFragments (h : scanFragments frag l = some l') (hx : x ∈ l') :
    x = frag ∨ x ∈ l := by
  induction l generalizing l' with
  | nil =>
    cases h
    cases hx
  | cons scan rest ih =>
    cases rest with
    | nil =>
      rw [scanFragments] at h
      split at h
      · cases h
      · split at h
        · split at h
          · cases h
          · cases h
            simpa [or_comm] using hx
        · cases h
          exact Or.inr hx
    | cons next rest =>
      rw [scanFragments] at h
      split at h
      · cases h
      · split at h
        · split at h
          · cases h
          · split at h
            · cases h
            · cases h
              simp only [List.mem_cons] at hx ⊢
              tauto
        · obtain ⟨l₁, h₁, rfl⟩ := Option.map_eq_some_iff.1 h
          rcases List.mem_cons.1 hx with rfl | hx
          · exact Or.inr List.mem_cons_self
          · exact (ih h₁ hx).imp id (List.mem_cons_of_mem scan)

theorem mem_of_placeFragment (h : placeFragment frag l = some l') (hx : x ∈ l') :
    x = frag ∨ x ∈ l := by
  cases l with
  | nil => cases h
  | cons first rest =>
    rw [placeFragment] at h
    split at h
    · split at h
      · cases h
      · cases h
        exact List.mem_cons.1 hx
    · exact mem_of_scanFragments h hx

/-- The list is one of `lists`, perhaps with a fragment more. -/
def StemsFrom (k : DatagramKey) (proto : ℕ) (frag : IPFragment) (lists : List IPFragmentList)
    (list : IPFragmentList) : Prop :=
  ∃ old ∈ lists, list.key = old.key ∧ list.proto = old.proto ∧ ∀ x ∈ list.fragList,
    x ∈ old.fragList ∨ old.key = k ∧ old.proto = proto ∧ x = frag

variable {k : DatagramKey} {proto : ℕ} {list first : IPFragmentList}

theorem StemsFrom.of_mem (h : list ∈ lists) : StemsFrom k proto frag lists list :=
  ⟨list, h, rfl, rfl, fun _ hx => Or.inl hx⟩

theorem StemsFrom.cons (h : StemsFrom k proto frag lists list) :
    StemsFrom k proto frag (first :: lists) list := by
  obtain ⟨old, hold, hspec⟩ := h
  exact ⟨old, List.mem_cons_of_mem first hold, hspec⟩

theorem stemsFrom_passToLists
    (h : list ∈ (passToLists k.family k.srcaddr k.dstaddr k.id proto frag lists).2) :
    StemsFrom k proto frag lists list := by
  induction lists with
  | nil => cases h
  | cons first rest ih =>
    rw [passToLists] at h
    split at h
    · rename_i hmatch
      split at h
      · exact StemsFrom.of_mem h
      · rename_i hproto
        cases hp : placeFragment frag first.fragList with
        | none =>
          rw [hp] at h
          exact StemsFrom.of_mem h
        | some fragList =>
          rw [hp] at h
          rcases List.mem_cons.1 h with rfl | h
          · refine ⟨first, List.mem_cons_self, rfl, rfl, fun x hx => ?_⟩
            rcases mem_of_placeFragment hp hx with rfl | hx
            · exact Or.inr ⟨isMatchingFragmentList_iff.1 hmatch, not_not.1 hproto, rfl⟩
            · exact Or.inl hx
          · exact (ih h).cons
    · rcases List.mem_cons.1 h with rfl | h
      · exact StemsFrom.of_mem List.mem_cons_self
      · exact (ih h).cons

/-- The fragments in the lists have a property, which may depend on what they belong to. -/
def Holds (P : DatagramKey → ℕ → IPFragment → Prop) (lists : List IPFragmentList) : Prop :=
  ∀ list ∈ lists, ∀ x ∈ list.fragList, P list.key list.proto x

variable {P : DatagramKey → ℕ → IPFragment → Prop}

theorem Holds.pass (h : Holds P lists) {a : PassArgs} (ha : P a.key a.proto a.frag) :
    Holds P (a.pass lists ticks) := by
  have hloop : Holds P (passToLists a.key.family a.key.srcaddr a.key.dstaddr a.key.id a.proto a.frag
      lists).2 := by
    intro list hlist x hx
    obtain ⟨old, hold, hkey, hproto, hspec⟩ := stemsFrom_passToLists hlist
    rw [hkey, hproto]
    rcases hspec x hx with hx | ⟨hk, hp, rfl⟩
    · exact h old hold x hx
    · rw [hk, hp]
      exact ha
  unfold PassArgs.pass ipreasmPass
  simp only [PassArgs.frag] at hloop ha ⊢
  split
  · exact hloop
  · intro list hlist x hx
    rcases List.mem_append.1 hlist with hlist | hlist
    · exact hloop list hlist x hx
    · obtain rfl := List.mem_singleton.1 hlist
      obtain rfl := List.mem_singleton.1 hx
      exact ha

theorem Holds.thread (h : Holds P lists) : Holds P (ipreasmThread ticks lists).1 := by
  induction lists with
  | nil => exact h
  | cons list rest ih =>
    obtain ⟨hlist, hrest⟩ := List.forall_mem_cons.1 h
    rw [ipreasmThread_cons]
    split
    · exact ih hrest
    · cases isFragmentListComplete 0 list.fragList with
      | complete => exact ih hrest
      | invalid => exact List.forall_mem_cons.2 ⟨hlist, ih hrest⟩
      | incomplete => exact List.forall_mem_cons.2 ⟨hlist, ih hrest⟩

end Holds

end Glidix.Net
