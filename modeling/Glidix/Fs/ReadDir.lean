import Mathlib.Algebra.Order.Ring.Int
import Mathlib.Data.List.Nodup
import Glidix.Fs.Inode
import Glidix.Lib.Runs

/-!
# Reading a directory while it changes

A reader calls `vfsReadDir` with the keys 0, 1, 2 and so on, until it is told that there are none left.
Between any two calls entries are made, linked, renamed and removed.  As long as the keys do not wrap
around, the reader gets every entry that is there from its first call to its last, and none twice
(`readDir_complete`).
-/

namespace Glidix.Fs

/-! ## Runs -/

/-- How far a reader has come. -/
structure Scan where
  /-- The key of the next call. -/
  next : ℕ
  /-- The entries there were at the first call. -/
  atStart : List ℕ
  /-- The entries that were returned. -/
  returned : List ℕ
  /-- The last call has answered `EOVERFLOW`. -/
  stopped : Bool

/-- A directory and its reader.  Entries are numbered as they are created, which gives their
addresses. -/
structure DirState where
  dir : Inode
  created : ℕ
  scan : Scan

/-- What is done under the lock of the directory. -/
inductive DirOp where
  /-- `vfsGetChildDentry` makes an entry without a target. -/
  | create (name : Name)
  /-- `vfsAppendDentry` -/
  | append (name : Name) (ino : ℕ)
  /-- An entry is linked to an inode, moved over, or has its target taken away. -/
  | setIno (addr ino : ℕ)
  /-- `vfsRemoveDentry` -/
  | remove (addr : ℕ)
  /-- The reader calls `vfsReadDir`; the directory is contained in one with the number `up`. -/
  | read (up : Option ℕ)

namespace DirState

variable (s : DirState)

/-- The addresses of the entries. -/
def addrs : List ℕ := s.dir.dents.map Dentry.addr

/-- A call of the reader. -/
def read (up : Option ℕ) : DirState :=
  let key := Int32.ofNat s.scan.next
  let atStart := if s.scan.next = 0 then s.addrs else s.scan.atStart
  match s.dir.vfsReadDir up key with
  | .ok _ =>
    let found := (s.dir.readEntry key).map Dentry.addr
    { s with scan := { s.scan with next := s.scan.next + 1, atStart,
                                   returned := s.scan.returned ++ found.toList } }
  | .error e =>
    if e = .ENOENT then { s with scan := { s.scan with next := s.scan.next + 1, atStart } }
    else { s with scan := { s.scan with atStart, stopped := true } }

/-- The state after an operation; `none` when it is not possible. -/
def apply : DirOp → Option DirState
  | .create name =>
    match s.dir.lookup name with
    | some _ => some s
    | none =>
      some { s with dir := s.dir.appendDentry s.created name 0 true, created := s.created + 1 }
  | .append name ino =>
    some { s with dir := s.dir.appendDentry s.created name ino false, created := s.created + 1 }
  | .setIno addr ino => some { s with dir := s.dir.modifyDentry addr fun d => { d with ino } }
  | .remove addr =>
    match s.dir.dentry addr with
    | none => none
    | some d => if d.ino = 0 then some { s with dir := s.dir.eraseDentry addr } else none
  | .read up => if s.scan.stopped then none else some (s.read up)

end DirState

/-- Runs of a directory, from when it is created, or before its entries are loaded. -/
def dirSystem : System DirState DirOp where
  init s := ∃ dir : Inode, dir.type = VFS_MODE_DIRECTORY ∧ dir.nextKey = 2 ∧ dir.dents = [] ∧
    s = ⟨dir, 0, ⟨0, [], [], false⟩⟩
  step s op t := s.apply op = some t

/-! ## The loop -/

section Loop

variable {key : Int32} {l : List Dentry} {haveHigher : Bool} {d : Dentry} {e : Errno}

theorem readDirLoop_ok (h : Inode.readDirLoop key haveHigher l = .ok d) : d ∈ l ∧ d.key = key := by
  induction l generalizing haveHigher with
  | nil => cases h
  | cons dent rest ih =>
    rw [Inode.readDirLoop] at h
    split_ifs at h with hkey
    · cases h
      exact ⟨List.mem_cons_self, hkey⟩
    · obtain ⟨hd, hdk⟩ := ih h
      exact ⟨List.mem_cons_of_mem _ hd, hdk⟩

/-- No entry has the key; the error says whether one has a higher key. -/
theorem readDirLoop_error (h : Inode.readDirLoop key haveHigher l = .error e) :
    (∀ d ∈ l, d.key ≠ key) ∧
      (e = .ENOENT ∧ (haveHigher = true ∨ ∃ d ∈ l, key < d.key) ∨
        e = .EOVERFLOW ∧ haveHigher = false ∧ ∀ d ∈ l, ¬ key < d.key) := by
  induction l generalizing haveHigher with
  | nil =>
    refine ⟨fun d hd => absurd hd List.not_mem_nil, ?_⟩
    cases haveHigher with
    | true =>
      cases h
      exact Or.inl ⟨rfl, Or.inl rfl⟩
    | false =>
      cases h
      exact Or.inr ⟨rfl, rfl, fun d hd => absurd hd List.not_mem_nil⟩
  | cons dent rest ih =>
    rw [Inode.readDirLoop] at h
    split_ifs at h with hkey
    obtain ⟨hne, hcase⟩ := ih h
    refine ⟨List.forall_mem_cons.2 ⟨hkey, hne⟩, ?_⟩
    rcases hcase with ⟨he, hhigher | ⟨d, hd, hlt⟩⟩ | ⟨he, hnone, hlow⟩
    · refine Or.inl ⟨he, ?_⟩
      rw [Bool.or_eq_true, decide_eq_true_eq] at hhigher
      exact hhigher.imp_right fun hlt => ⟨dent, List.mem_cons_self, hlt⟩
    · exact Or.inl ⟨he, Or.inr ⟨d, List.mem_cons_of_mem _ hd, hlt⟩⟩
    · rw [Bool.or_eq_false_iff, decide_eq_false_iff_not] at hnone
      exact Or.inr ⟨he, hnone.1, List.forall_mem_cons.2 ⟨hnone.2, hlow⟩⟩

end Loop

/-! ## The invariant -/

/-- The number of entries that may be created: their keys, and the first that is not in use, are then
not negative. -/
def maxCreated : ℕ := 2 ^ 31 - 3

/-- The keys are given out in order, and what has been returned is what has a key below that of the
next call. -/
structure ScanInv (s : DirState) : Prop where
  isDir : s.dir.type = VFS_MODE_DIRECTORY
  nextKey : s.dir.nextKey = Int32.ofNat (s.created + 2)
  key : ∀ d ∈ s.dir.dents, d.key = Int32.ofNat (d.addr + 2)
  nodup : s.addrs.Nodup
  below : ∀ a ∈ s.addrs ++ s.scan.atStart, a < s.created
  next : s.scan.next ≤ s.created + 2
  returned : ∀ a ∈ s.scan.returned, a + 2 < s.scan.next
  returnedNodup : s.scan.returned.Nodup
  complete : ∀ a ∈ s.addrs, a + 2 < s.scan.next → a ∈ s.scan.returned
  stopped : s.scan.stopped = true → ∀ a ∈ s.scan.atStart, a ∈ s.addrs → a + 2 < s.scan.next

section Invariant

variable {s t : DirState} {op : DirOp}

/-- The same directory but for some entries that were removed or changed. -/
theorem ScanInv.mono {dir : Inode} (h : ScanInv s) (htype : dir.type = s.dir.type)
    (hkey : dir.nextKey = s.dir.nextKey)
    (hdents : ∀ d ∈ dir.dents, ∃ d' ∈ s.dir.dents, d'.addr = d.addr ∧ d'.key = d.key)
    (hsub : (dir.dents.map Dentry.addr).Sublist s.addrs) : ScanInv { s with dir } where
  isDir := htype.trans h.isDir
  nextKey := hkey.trans h.nextKey
  key := fun d hd => by
    obtain ⟨d', hd', haddr, hk⟩ := hdents d hd
    rw [← hk, h.key d' hd', haddr]
  nodup := h.nodup.sublist hsub
  below := fun a ha => h.below a (List.mem_append.2 ((List.mem_append.1 ha).imp_left hsub.mem))
  next := h.next
  returned := h.returned
  returnedNodup := h.returnedNodup
  complete := fun a ha => h.complete a (hsub.mem ha)
  stopped := fun hs a ha ha' => h.stopped hs a ha (hsub.mem ha')

theorem ScanInv.appendDentry (h : ScanInv s) (name : Name) (ino : ℕ) (temp : Bool) :
    ScanInv { s with dir := s.dir.appendDentry s.created name ino temp, created := s.created + 1 } := by
  have haddrs : DirState.addrs ⟨s.dir.appendDentry s.created name ino temp, s.created + 1, s.scan⟩ =
      s.addrs ++ [s.created] := by
    simp [DirState.addrs, Inode.appendDentry]
  have hnew : ∀ a ∈ s.addrs ++ s.scan.atStart, a ≠ s.created := fun a ha =>
    Nat.ne_of_lt (h.below a ha)
  constructor
  · exact h.isDir
  · show s.dir.nextKey + 1 = Int32.ofNat (s.created + 1 + 2)
    rw [h.nextKey]
    exact (Int32.ofNat_add (s.created + 2) 1).symm
  · intro d hd
    rcases List.mem_append.1 hd with hd | hd
    · exact h.key d hd
    · rw [List.mem_singleton.1 hd]
      exact h.nextKey
  · rw [haddrs]
    refine List.nodup_append.2 ⟨h.nodup, List.nodup_singleton _, fun a ha b hb => ?_⟩
    rw [List.mem_singleton.1 hb]
    exact hnew a (List.mem_append_left _ ha)
  · rw [haddrs]
    intro a ha
    show a < s.created + 1
    rw [List.append_assoc, List.mem_append, List.mem_append, List.mem_singleton] at ha
    rcases ha with ha | rfl | ha
    · exact Nat.lt_succ_of_lt (h.below a (List.mem_append_left _ ha))
    · exact Nat.lt_succ_self _
    · exact Nat.lt_succ_of_lt (h.below a (List.mem_append_right _ ha))
  · exact Nat.le_succ_of_le h.next
  · exact h.returned
  · exact h.returnedNodup
  · rw [haddrs]
    intro a ha hlt
    rcases List.mem_append.1 ha with ha | ha
    · exact h.complete a ha hlt
    · -- the reader has not come to the new key
      rw [List.mem_singleton.1 ha] at hlt
      exact absurd h.next (Nat.not_le.2 hlt)
  · rw [haddrs]
    intro hs a ha ha'
    rcases List.mem_append.1 ha' with ha' | ha'
    · exact h.stopped hs a ha ha'
    · exact absurd (List.mem_singleton.1 ha') (hnew a (List.mem_append_right _ ha))

/-- The keys of the entries and that of the next call compare as their numbers do. -/
theorem ScanInv.key_lt_iff (h : ScanInv s) (hmax : s.created ≤ maxCreated) {d : Dentry}
    (hd : d ∈ s.dir.dents) : Int32.ofNat s.scan.next < d.key ↔ s.scan.next < d.addr + 2 := by
  have haddr := h.below d.addr (List.mem_append_left _ (List.mem_map_of_mem hd))
  have hnext := h.next
  rw [maxCreated] at hmax
  rw [h.key d hd]
  exact Int32.ofNat_lt_iff_lt (by omega) (by omega)

theorem ScanInv.key_eq_iff (h : ScanInv s) (hmax : s.created ≤ maxCreated) {d : Dentry}
    (hd : d ∈ s.dir.dents) : d.key = Int32.ofNat s.scan.next ↔ d.addr + 2 = s.scan.next := by
  have haddr := h.below d.addr (List.mem_append_left _ (List.mem_map_of_mem hd))
  have hnext := h.next
  rw [maxCreated] at hmax
  rw [h.key d hd, ← Int32.toInt_inj, Int32.toInt_ofNat_of_lt (by omega),
    Int32.toInt_ofNat_of_lt (by omega)]
  omega

/-- The next key is below 2 exactly when it stands for the directory or the one that contains it. -/
theorem ofNat_special_iff {n : ℕ} (hn : n < 2 ^ 31) :
    Int32.ofNat n = 0 ∨ Int32.ofNat n = 1 ↔ n < 2 := by
  have h₀ : Int32.ofNat n = 0 ↔ n = 0 := by
    rw [← Int32.toInt_inj, Int32.toInt_ofNat_of_lt hn, show Int32.toInt 0 = 0 from rfl]
    omega
  have h₁ : Int32.ofNat n = 1 ↔ n = 1 := by
    rw [← Int32.toInt_inj, Int32.toInt_ofNat_of_lt hn, show Int32.toInt 1 = 1 from rfl]
    omega
  rw [h₀, h₁]
  omega

/-- The entries a reader starts with. -/
def DirState.start (s : DirState) : List ℕ :=
  if s.scan.next = 0 then s.addrs else s.scan.atStart

/-- A call of the reader finds the entry with the next key if there is one, and ends the scan only if
all entries have lower keys. -/
theorem ScanInv.read_cases (h : ScanInv s) (hmax : s.created ≤ maxCreated) (up : Option ℕ) :
    (∃ found : Option ℕ, s.read up = { s with scan := ⟨s.scan.next + 1, s.start,
          s.scan.returned ++ found.toList, s.scan.stopped⟩ } ∧ s.scan.next + 1 ≤ s.created + 2 ∧
        (∀ a ∈ s.addrs, a + 2 = s.scan.next → found = some a) ∧
          ∀ a, found = some a → a + 2 = s.scan.next) ∨
      s.read up = { s with scan := ⟨s.scan.next, s.start, s.scan.returned, true⟩ } ∧
        ∀ a ∈ s.addrs, a + 2 < s.scan.next := by
  have hnext := h.next
  have hspecial := ofNat_special_iff (n := s.scan.next) (by rw [maxCreated] at hmax; omega)
  have hdir : ¬ s.dir.type ≠ VFS_MODE_DIRECTORY := not_not.2 h.isDir
  by_cases hsmall : s.scan.next < 2
  · -- the directory itself, or the one that contains it
    left
    have hentry : s.dir.readEntry (Int32.ofNat s.scan.next) = none := by
      rw [Inode.readEntry, if_pos (hspecial.2 hsmall)]
    obtain ⟨result, hresult⟩ : ∃ r, s.dir.vfsReadDir up (Int32.ofNat s.scan.next) = .ok r := by
      rw [Inode.vfsReadDir, if_neg hdir]
      rcases hspecial.2 hsmall with h₀ | h₁
      · exact ⟨_, if_pos h₀⟩
      · rw [h₁]
        exact ⟨_, rfl⟩
    refine ⟨none, ?_, by omega, fun a _ ha => by omega, fun a ha => (nomatch ha)⟩
    simp only [DirState.read, hresult, hentry]
    rfl
  have hkeys := mt hspecial.1 hsmall
  have hread : s.dir.vfsReadDir up (Int32.ofNat s.scan.next) =
      (Inode.readDirLoop (Int32.ofNat s.scan.next) false s.dir.dents).map fun dent =>
        (Inode.KDirent.fixedSize + dent.name.length + 1, ⟨dent.ino, dent.name⟩) := by
    rw [not_or] at hkeys
    rw [Inode.vfsReadDir, if_neg hdir, if_neg hkeys.1, if_neg hkeys.2]
  have hentry : s.dir.readEntry (Int32.ofNat s.scan.next) =
      (Inode.readDirLoop (Int32.ofNat s.scan.next) false s.dir.dents).toOption := by
    rw [Inode.readEntry, if_neg hkeys]
  rcases hloop : Inode.readDirLoop (Int32.ofNat s.scan.next) false s.dir.dents with e | d
  · obtain ⟨hne, hcase⟩ := readDirLoop_error hloop
    have hnone : ∀ a ∈ s.addrs, a + 2 ≠ s.scan.next := by
      intro a ha
      obtain ⟨d, hd, rfl⟩ := List.mem_map.1 ha
      exact fun he => hne d hd ((h.key_eq_iff hmax hd).2 he)
    rw [hloop] at hread
    rcases hcase with ⟨rfl, hhigher | ⟨d, hd, hlt⟩⟩ | ⟨rfl, -, hlow⟩
    · cases hhigher
    · left
      have hd₁ := (h.key_lt_iff hmax hd).1 hlt
      have hd₂ := h.below d.addr (List.mem_append_left _ (List.mem_map_of_mem hd))
      refine ⟨none, ?_, by omega, fun a ha he => absurd he (hnone a ha), fun a ha => (nomatch ha)⟩
      simp only [DirState.read, hread, Except.map]
      simp [DirState.start]
    · right
      refine ⟨?_, fun a ha => ?_⟩
      · simp only [DirState.read, hread, Except.map]
        rfl
      · obtain ⟨d, hd, rfl⟩ := List.mem_map.1 ha
        have hle := mt (h.key_lt_iff hmax hd).2 (hlow d hd)
        have hne' := hnone d.addr ha
        omega
  · left
    obtain ⟨hd, hkey⟩ := readDirLoop_ok hloop
    have haddr := (h.key_eq_iff hmax hd).1 hkey
    have hd₂ := h.below d.addr (List.mem_append_left _ (List.mem_map_of_mem hd))
    refine ⟨some d.addr, ?_, by omega, fun a ha he => congrArg some (by omega), fun a ha => ?_⟩
    · rw [hloop] at hread hentry
      simp only [DirState.read, hread, hentry, Except.map]
      rfl
    · rw [← Option.some.inj ha]
      exact haddr

theorem ScanInv.read (h : ScanInv s) (hmax : s.created ≤ maxCreated)
    (hstop : s.scan.stopped = false) (up : Option ℕ) : ScanInv (s.read up) := by
  have hbelow : ∀ a ∈ s.addrs ++ s.start, a < s.created := by
    intro a ha
    rw [DirState.start] at ha
    split_ifs at ha
    · exact h.below a (List.mem_append_left _ ((List.mem_append.1 ha).elim id id))
    · exact h.below a ha
  rcases h.read_cases hmax up with ⟨found, he, hnext, hfound, hkey⟩ | ⟨he, hlow⟩
  · rw [he]
    refine ⟨h.isDir, h.nextKey, h.key, h.nodup, hbelow, hnext, fun a ha => ?_, ?_, fun a ha hlt => ?_,
      fun hs => ?_⟩
    · show a + 2 < s.scan.next + 1
      rcases List.mem_append.1 ha with ha | ha
      · exact Nat.lt_succ_of_lt (h.returned a ha)
      · rw [hkey a (Option.mem_toList.1 ha)]
        exact Nat.lt_succ_self _
    · refine List.nodup_append.2 ⟨h.returnedNodup, ?_, fun a ha b hb => ?_⟩
      · cases found <;> simp
      · have ha' := h.returned a ha
        have hb' := hkey b (Option.mem_toList.1 hb)
        omega
    · rw [List.mem_append]
      rcases Nat.lt_or_eq_of_le (Nat.le_of_lt_succ hlt) with hlt | heq
      · exact Or.inl (h.complete a ha hlt)
      · exact Or.inr (Option.mem_toList.2 (hfound a ha heq))
    · rw [show s.scan.stopped = true from hs] at hstop
      cases hstop
  · rw [he]
    exact ⟨h.isDir, h.nextKey, h.key, h.nodup, hbelow, h.next, h.returned, h.returnedNodup, h.complete,
      fun _ a _ ha => hlow a ha⟩

theorem ScanInv.step (h : ScanInv s) (hmax : s.created ≤ maxCreated) (ht : s.apply op = some t) :
    ScanInv t := by
  cases op with
  | create name =>
    simp only [DirState.apply] at ht
    split at ht <;> cases ht
    · exact h
    · exact h.appendDentry name 0 true
  | append name ino =>
    cases ht
    exact h.appendDentry name ino false
  | setIno addr ino =>
    cases ht
    refine h.mono rfl rfl (fun d hd => ?_) ?_
    · obtain ⟨d', hd', rfl⟩ := List.mem_map.1 hd
      refine ⟨d', hd', ?_⟩
      split_ifs <;> exact ⟨rfl, rfl⟩
    · have haddrs : (s.dir.dents.map fun d => if d.addr = addr then { d with ino } else d).map
          Dentry.addr = s.addrs := by
        rw [List.map_map]
        refine List.map_congr_left fun d _ => ?_
        simp only [Function.comp_apply]
        split_ifs <;> rfl
      rw [Inode.modifyDentry, haddrs]
  | remove addr =>
    simp only [DirState.apply] at ht
    split at ht
    · cases ht
    · split_ifs at ht
      cases ht
      exact h.mono rfl rfl (fun d hd => ⟨d, List.mem_of_mem_filter hd, rfl, rfl⟩)
        (List.filter_sublist.map _)
  | read up =>
    simp only [DirState.apply] at ht
    split_ifs at ht with hstop
    cases ht
    exact h.read hmax (by simpa using hstop) up

theorem read_created (up : Option ℕ) : (s.read up).created = s.created := by
  rw [DirState.read]
  split
  · rfl
  · split_ifs <;> rfl

theorem created_le (ht : s.apply op = some t) : s.created ≤ t.created := by
  cases op with
  | create name =>
    simp only [DirState.apply] at ht
    split at ht <;> cases ht
    · exact Nat.le_refl _
    · exact Nat.le_succ _
  | append name ino =>
    cases ht
    exact Nat.le_succ _
  | setIno addr ino =>
    cases ht
    exact Nat.le_refl _
  | remove addr =>
    simp only [DirState.apply] at ht
    split at ht
    · cases ht
    · split_ifs at ht
      cases ht
      exact Nat.le_refl _
  | read up =>
    simp only [DirState.apply] at ht
    split_ifs at ht
    cases ht
    exact Nat.le_of_eq (read_created up).symm

theorem ScanInv.of_reachable (hs : dirSystem.Reachable s) (hmax : s.created ≤ maxCreated) :
    ScanInv s := by
  refine hs.invariant (I := fun s => s.created ≤ maxCreated → ScanInv s) ?_ ?_ hmax
  · rintro s ⟨dir, htype, hkey, hdents, rfl⟩ -
    constructor <;> simp [DirState.addrs, htype, hkey, hdents]
  · intro s op t ih _ ht hmax
    have hle := Nat.le_trans (created_le ht) hmax
    exact (ih hle).step hle ht

end Invariant

/-- While fewer than `2 ^ 31 - 2` entries have been created in a directory, a reader has been given no
entry twice, and has made at most two calls more than there were entries created before the one that
ends the scan; and when that has been made, it has been given each entry exactly once that was there
from its first call on. -/
theorem readDir_complete (s : DirState) (hs : dirSystem.Reachable s)
    (hmax : s.created < 2 ^ 31 - 2) :
    s.scan.returned.Nodup ∧ s.scan.next ≤ s.created + 2 ∧
      (s.scan.stopped = true → ∀ a ∈ s.scan.atStart, a ∈ s.addrs → s.scan.returned.count a = 1) := by
  have h := ScanInv.of_reachable hs (Nat.le_sub_one_of_lt hmax)
  refine ⟨h.returnedNodup, h.next, fun hstop a hstart ha => ?_⟩
  exact List.count_eq_one_of_mem h.returnedNodup (h.complete a ha (h.stopped hstop a hstart ha))

/-! ## Some runs -/

/-- A directory without entries, of which `n` have been created. -/
def emptied (n : ℕ) : DirState :=
  ⟨{ Inode.zero with mode := VFS_MODE_DIRECTORY ||| 0o755, nextKey := Int32.ofNat (n + 2) }, n,
    ⟨0, [], [], false⟩⟩

theorem emptied_zero_init : dirSystem.init (emptied 0) := ⟨(emptied 0).dir, by decide, rfl, rfl, rfl⟩

theorem reachable_foldlM {l : List DirOp} {s t : DirState} (hs : dirSystem.Reachable s)
    (ht : l.foldlM DirState.apply s = some t) : dirSystem.Reachable t :=
  hs.foldlM (fun _ _ _ h => ⟨trivial, h⟩) ht

/-- Two entries are made; after the reader has got the first, it is removed, and another one made. -/
def scanned : DirState :=
  ([.append ['a'] 5, .append ['b'] 6, .read none, .read none, .read none, .setIno 0 0, .remove 0,
    .append ['c'] 7, .read none, .read none, .read none].foldlM DirState.apply
      (emptied 0)).getD (emptied 0)

theorem readDir_complete_scanned : scanned.scan.stopped = true ∧ scanned.scan.returned = [0, 1, 2] ∧
    scanned.scan.returned.Nodup ∧ scanned.scan.next ≤ scanned.created + 2 ∧
      (scanned.scan.stopped = true →
        ∀ a ∈ scanned.scan.atStart, a ∈ scanned.addrs → scanned.scan.returned.count a = 1) := by
  have hs : dirSystem.Reachable scanned :=
    reachable_foldlM (.init emptied_zero_init) (l := [.append ['a'] 5, .append ['b'] 6, .read none,
      .read none, .read none, .setIno 0 0, .remove 0, .append ['c'] 7, .read none, .read none,
      .read none]) rfl
  exact ⟨by decide, by decide, readDir_complete scanned hs (by decide)⟩

/-- Entries are made and removed again, one after the other. -/
theorem reachable_emptied (n : ℕ) : dirSystem.Reachable (emptied n) := by
  induction n with
  | zero => exact .init emptied_zero_init
  | succ n ih =>
    refine reachable_foldlM ih (l := [.append ['a'] 0, .remove n]) ?_
    have hkey : Int32.ofNat (n + 2) + 1 = Int32.ofNat (n + 1 + 2) :=
      (Int32.ofNat_add (n + 2) 1).symm
    simp [DirState.apply, emptied, Inode.appendDentry, Inode.dentry, Inode.eraseDentry, Inode.zero,
      hkey, -Int32.ofNat_add]

/-- The key of the next entry has wrapped around; the entry is made, and the directory read. -/
def wrapped : DirState :=
  ([.append ['a'] 5, .read none, .read none, .read none].foldlM DirState.apply
    (emptied 0x7FFFFFFE)).getD (emptied 0x7FFFFFFE)

/-- The reader is told that there are no more entries without having been given the only one. -/
theorem readDir_not_complete : ¬ ∀ s : DirState, dirSystem.Reachable s → s.created < 2 ^ 31 →
    s.scan.returned.Nodup ∧ s.scan.next ≤ s.created + 2 ∧
      (s.scan.stopped = true →
        ∀ a ∈ s.scan.atStart, a ∈ s.addrs → s.scan.returned.count a = 1) := by
  intro hall
  have hs : dirSystem.Reachable wrapped :=
    reachable_foldlM (reachable_emptied 0x7FFFFFFE)
      (l := [.append ['a'] 5, .read none, .read none, .read none]) rfl
  have hcount := (hall wrapped hs (by decide)).2.2 (by decide) 0x7FFFFFFE (by decide) (by decide)
  exact absurd hcount (by decide)

end Glidix.Fs
