import Glidix.Fs.VfsSystem

/-!
# Calls that fail

A call that fails has resolved paths, and has perhaps made an entry and removed it again.  This leaves
the entries of all directories and the counters of all inodes as they were.  The exception is a call
that opens a file: it counts an open description before it asks the driver, and takes neither that
back nor the file it has just created if the driver refuses.
-/

namespace Glidix.Fs

open Errno

/-- What a directory lists: names with inode numbers, in order. -/
def Inode.entries (x : Inode) : List (Name × ℕ) := x.dents.map fun d => (d.name, d.ino)

/-- The entries and counters of an inode are what they were. -/
structure Inode.Same (x x' : Inode) : Prop where
  ino : x'.ino = x.ino
  entries : x'.entries = x.entries
  links : x'.links = x.links
  numOpens : x'.numOpens = x.numOpens

namespace Inode

variable {x y z : Inode}

theorem Same.trans (h : x.Same y) (h' : y.Same z) : x.Same z :=
  ⟨h'.ino.trans h.ino, h'.entries.trans h.entries, h'.links.trans h.links,
    h'.numOpens.trans h.numOpens⟩

theorem Similar.same (h : x.Similar y) : x.Same y where
  ino := by rw [h.eq]
  entries := h.map_dents fun d => rfl
  links := by rw [h.eq]
  numOpens := by rw [h.eq]

end Inode

namespace Vfs

variable {s s' s₁ s₂ : Vfs} {i dir : ℕ} {x x' : Inode} {c : Caller} {name : Name}

/-- An inode is as it is on a disk, and has not been opened. -/
def AsLoaded (s : Vfs) (x : Inode) : Prop := ∃ f fs loadInode disk,
  s.filesystems.get f = some fs ∧ fs.loadInode = some loadInode ∧ loadInode x.ino = some disk ∧
    x.entries = disk.entries ∧ x.links = disk.links ∧ x.numOpens = 0

/-- Nothing happened to the inodes in memory; others were loaded. -/
structure Quiet (s s' : Vfs) : Prop where
  kept : ∀ i x, s.inodes.get i = some x → ∃ x', s'.inodes.get i = some x' ∧ x.Same x'
  loaded : ∀ i x', s.inodes.get i = none → s'.inodes.get i = some x' → s.AsLoaded x'
  disks : ∀ f fs', s'.filesystems.get f = some fs' →
    ∃ fs, s.filesystems.get f = some fs ∧ fs'.loadInode = fs.loadInode

/-- The state is as it was, except that inodes have been loaded; all entries have numbers. -/
structure Unchanged (s s' : Vfs) : Prop extends Quiet s s' where
  numbered : ∀ p d, s'.dentry p = some d → d.ino ≠ 0

theorem Quiet.refl : Quiet s s where
  kept i x hx := ⟨x, hx, Inode.Similar.refl.same⟩
  loaded i x' hx hx' := by
    rw [hx] at hx'
    cases hx'
  disks f fs hf := ⟨fs, hf, rfl⟩

theorem Quiet.trans (h : Quiet s s₁) (h' : Quiet s₁ s') : Quiet s s' where
  kept i x hx := by
    obtain ⟨y, hy, hsame⟩ := h.kept i x hx
    obtain ⟨z, hz, hsame'⟩ := h'.kept i y hy
    exact ⟨z, hz, hsame.trans hsame'⟩
  loaded i z hx hz := by
    cases hy : s₁.inodes.get i with
    | some y =>
      obtain ⟨z', hz', hsame⟩ := h'.kept i y hy
      obtain rfl := Option.some.inj (hz.symm.trans hz')
      obtain ⟨f, fs, loadInode, disk, hfs, hl, hdisk, hentries, hlinks, hopens⟩ := h.loaded i y hx hy
      exact ⟨f, fs, loadInode, disk, hfs, hl, by rwa [hsame.ino], hsame.entries.trans hentries,
        hsame.links.trans hlinks, hsame.numOpens.trans hopens⟩
    | none =>
      obtain ⟨f, fs₁, loadInode, disk, hfs₁, hl, hrest⟩ := h'.loaded i z hy hz
      obtain ⟨fs, hfs, heq⟩ := h.disks f fs₁ hfs₁
      exact ⟨f, fs, loadInode, disk, hfs, heq ▸ hl, hrest⟩
  disks f fs' hf := by
    obtain ⟨fs₁, hfs₁, heq⟩ := h'.disks f fs' hf
    obtain ⟨fs, hfs, heq'⟩ := h.disks f fs₁ hfs₁
    exact ⟨fs, hfs, heq.trans heq'⟩

/-! ## Resolving paths -/

/-- An entry is given a target. -/
theorem Quiet.setTarget {p : ℕ × ℕ} {t : Option ℕ} (h : Quiet s s₁)
    (hm : s₁.modifyDentry p (fun d => { d with target := t }) = some s') : Quiet s s' := by
  refine h.trans ⟨fun i x hx => ?_, fun i x' hx hx' => ?_, fun f fs hf => ?_⟩
  · rw [get_modifyDentry hm, hx]
    refine ⟨_, rfl, ?_⟩
    split_ifs
    · exact Inode.Similar.modifyDentry.same
    · exact Inode.Similar.refl.same
  · rw [get_modifyDentry hm, hx] at hx'
    cases hx'
  · obtain ⟨inodes, root, rfl⟩ := modifyDentry_frame hm
    exact ⟨fs, hf, rfl⟩

/-- The counters of an inode that are for its release are changed. -/
theorem Quiet.setInode {y : Inode} (hx : s.inodes.get i = some x) (hsame : x.Same y) :
    Quiet s (s.setInode i y) where
  kept j z hz := by
    by_cases hj : j = i
    · subst hj
      obtain rfl := Option.some.inj (hx.symm.trans hz)
      exact ⟨y, get_setInode_self hx, hsame⟩
    · exact ⟨z, by rwa [get_setInode_ne hj], Inode.Similar.refl.same⟩
  loaded j z hj hz := by
    rcases get_setInode_cases hz with ⟨rfl, -⟩ | ⟨-, hz⟩
    · rw [hx] at hj
      cases hj
    · rw [hj] at hz
      cases hz
  disks f fs hf := ⟨fs, hf, rfl⟩

theorem Quiet.recount (h : Recount s s') : Quiet s s' := by
  cases h with
  | mk hx hn => exact .setInode hx ⟨rfl, rfl, rfl, rfl⟩

/-- An inode that has just been loaded is as it is on the disk. -/
theorem quiet_new {f n : ℕ} {fs : FileSystem} {p : ℕ × ℕ} {disk : DiskInode}
    {loadInode : ℕ → Option DiskInode} {filesystems : Heap FileSystem}
    (hfs : s.filesystems.get f = some fs) (hl : fs.loadInode = some loadInode)
    (hdisk : loadInode n = some disk)
    (hm : s.filesystems.modify f (fun fs => { fs with imap := s.inodes.brk :: fs.imap }) =
      some filesystems) :
    Quiet s { s with
      filesystems
      inodes := (s.inodes.new ((disk.inode n f (some p)).loadEntries s.nextEntry disk.entries)).2
      nextEntry := s.nextEntry + disk.entries.length } where
  kept i x hx := ⟨x, Heap.get_new_of_get hx, Inode.Similar.refl.same⟩
  loaded i y hi hy := by
    by_cases hbrk : i = s.inodes.brk
    · subst hbrk
      obtain rfl := Option.some.inj (Heap.get_new_self.symm.trans hy)
      obtain ⟨hentries, -⟩ := loaded_dents (p := p) (f := f) disk n s.nextEntry
      obtain ⟨nextKey, dents, heq, -⟩ :=
        (disk.inode n f (some p)).loadEntries_frame s.nextEntry disk.entries
      exact ⟨f, fs, loadInode, disk, hfs, hl, by rw [heq]; exact hdisk, hentries, by rw [heq]; rfl,
        by rw [heq]; rfl⟩
    · rw [Heap.get_new_ne hbrk, hi] at hy
      cases hy
  disks g fs' hg := by
    obtain ⟨fs₀, hfs₀, rfl⟩ := Option.map_eq_some_iff.1 hm
    by_cases hgf : g = f
    · subst hgf
      obtain rfl := Option.some.inj ((Heap.get_put_self hfs₀).symm.trans hg)
      exact ⟨fs₀, hfs₀, rfl⟩
    · exact ⟨fs', (Heap.get_put_ne hgf).symm.trans hg, rfl⟩

theorem Quiet.lookStep (h : LookStep s s') : Quiet s s' := by
  cases h with
  | count h => exact .recount h
  | found hd htarget hdir hf hfs hi h =>
    obtain ⟨x, hx, hm⟩ := callInFound_some h
    exact Quiet.setTarget (.setInode hx ⟨by rfl, by rfl, by rfl, by rfl⟩) hm
  | loaded hd htarget hdir hf hfs hi hl hx h =>
    obtain ⟨filesystems, hm, hs⟩ := callInLoaded_some h
    exact Quiet.setTarget (quiet_new hfs hl hx hm) hs

theorem Quiet.look (h : Look s s') : Quiet s s' := by
  induction h with
  | refl => exact .refl
  | tail _ h ih => exact ih.trans (.lookStep h)

theorem Quiet.recounts (h : Relation.ReflTransGen Recount s s') : Quiet s s' := by
  induction h with
  | refl => exact .refl
  | tail _ h ih => exact ih.trans (.recount h)

/-! ## Making an entry and removing it again -/

/-- Changing counters leaves everything else as it is. -/
theorem recounts_frame (h : Relation.ReflTransGen Recount s s') :
    s'.filesystems = s.filesystems ∧ (∀ i, s.inodes.get i = none → s'.inodes.get i = none) ∧
      ∀ i x, s.inodes.get i = some x → ∃ n, s'.inodes.get i = some { x with refcount := n } := by
  induction h with
  | refl => exact ⟨rfl, fun i hi => hi, fun i x hx => ⟨x.refcount, hx⟩⟩
  | tail _ h ih =>
    obtain ⟨hfs, hnone, hsome⟩ := ih
    cases h with
    | @mk j y m hy hm =>
      refine ⟨hfs, fun i hi => ?_, fun i x hx => ?_⟩
      · by_cases hj : i = j
        · subst hj
          rw [hnone i hi] at hy
          cases hy
        · rw [get_setInode_ne hj, hnone i hi]
      · obtain ⟨n, hn⟩ := hsome i x hx
        by_cases hj : i = j
        · subst hj
          obtain rfl := Option.some.inj (hn.symm.trans hy)
          exact ⟨m, get_setInode_self hy⟩
        · exact ⟨n, by rwa [get_setInode_ne hj]⟩

/-- A directory with a new entry, and the other inodes. -/
theorem addPlaceholder_frame (h : s.addPlaceholder c dir name = some s') :
    s'.filesystems = s.filesystems ∧ (∀ i, s.inodes.get i = none → s'.inodes.get i = none) ∧
      ∀ i x, s.inodes.get i = some x → ∃ y new, s'.inodes.get i = some y ∧
        y.dents = x.dents ++ new ∧ (∀ d ∈ new, i = dir ∧ d.addr = s.nextEntry) ∧
        y.ino = x.ino ∧ y.links = x.links ∧ y.numOpens = x.numOpens := by
  obtain ⟨x, hx, rfl⟩ := addPlaceholder_some h
  refine ⟨rfl, fun i hi => ?_, fun i z hz => ?_⟩
  · by_cases hd : i = dir
    · subst hd
      rw [hx] at hi
      cases hi
    · rw [get_setInode_ne (s := { s with nextEntry := s.nextEntry + 1 }) hd, hi]
  · by_cases hd : i = dir
    · subst hd
      obtain rfl := Option.some.inj (hx.symm.trans hz)
      exact ⟨_, [s.placeholder x name],
        get_setInode_self (s := { s with nextEntry := s.nextEntry + 1 }) hx, rfl,
        fun d hd => by rw [List.mem_singleton.1 hd]; exact ⟨rfl, rfl⟩, rfl, rfl, rfl⟩
    · exact ⟨z, [], (get_setInode_ne (s := { s with nextEntry := s.nextEntry + 1 }) hd).trans hz,
        (List.append_nil _).symm, fun _ hd => absurd hd List.not_mem_nil, rfl, rfl, rfl⟩

/-- What is left after a new entry is removed. -/
theorem quiet_undone {s₃ s₄ : Vfs} (hshaped : s₁.Shaped)
    (h₂ : s₁.addPlaceholder c dir name = some s₂) (h₃ : Relation.ReflTransGen Recount s₂ s₃)
    (h₄ : s₃.eraseDentry (dir, s₁.nextEntry) = some s₄) : Quiet s₁ s₄ := by
  obtain ⟨hfs₂, hnone₂, hsome₂⟩ := addPlaceholder_frame h₂
  obtain ⟨hfs₃, hnone₃, hsome₃⟩ := recounts_frame h₃
  have hroot : (dir, s₁.nextEntry) ≠ kernelRootEntry := fun he =>
    absurd (congrArg Prod.snd he) hshaped.next_pos.ne'
  have hfs₄ : s₄.filesystems = s₃.filesystems := by
    rw [eraseDentry, if_neg hroot] at h₄
    obtain ⟨z, -, rfl⟩ := modifyInode_some h₄
    rfl
  refine ⟨fun i x hx => ?_, fun i z hi hz => ?_, fun f fs hf => ⟨fs, ?_, rfl⟩⟩
  · obtain ⟨y, new, hy, hdents, hnew, hino, hlinks, hopens⟩ := hsome₂ i x hx
    obtain ⟨n, hn⟩ := hsome₃ i y hy
    rw [get_eraseDentry h₄, hn]
    refine ⟨_, rfl, ?_⟩
    split_ifs with hi
    · -- the entry is filtered out, and the others have other addresses
      have hkept : (x.dents ++ new).filter (fun d => d.addr ≠ s₁.nextEntry) = x.dents := by
        rw [List.filter_append, List.filter_eq_self.2 fun d hd => by
            simpa using (hshaped.fresh i x d hx hd).2.ne,
          List.filter_eq_nil_iff.2 fun d hd => by simpa using (hnew d hd).2, List.append_nil]
      refine ⟨hino, ?_, hlinks, hopens⟩
      show (y.dents.filter fun d => d.addr ≠ s₁.nextEntry).map _ = _
      rw [hdents, hkept, Inode.entries]
    · have hnil : new = [] := List.eq_nil_iff_forall_not_mem.2 fun d hd =>
        hi ⟨hroot, (hnew d hd).1⟩
      refine ⟨hino, ?_, hlinks, hopens⟩
      rw [Inode.entries, Inode.entries, hdents, hnil, List.append_nil]
  · rw [get_eraseDentry h₄, hnone₃ i (hnone₂ i hi)] at hz
    cases hz
  · rw [← hfs₂, ← hfs₃, ← hfs₄, hf]

theorem Quiet.fruitless (h : Fruitless s s') : Quiet s s' := by
  cases h with
  | looked h => exact .look h
  | undone h₁ hshaped h₂ h₃ hd hino h₄ h₅ =>
    exact ((Quiet.look h₁).trans (quiet_undone hshaped h₂ h₃ h₄)).trans (.recounts h₅)

/-- A call that does nothing that matters leaves the state as it was. -/
theorem Unchanged.of_fruitless (h : Fruitless s s') (hn : s.Named ∅) : Unchanged s s' where
  toQuiet := .fruitless h
  numbered p _ hd := (hn.fruitless h).ino_ne_zero hd (Set.notMem_empty p)

end Vfs

/-- In every run of calls that are accepted, each call that fails leaves the state as it was. -/
theorem failed_call_unchanged (s : Vfs) (fuel : ℕ) (c : Caller) (a : Call) (e : Errno) (s' : Vfs)
    (hs : vfsSystem.ReachesBy (fun s a => s.Accepted a.1 a.2) s) (hacc : s.Accepted c a)
    (h : s.call fuel c a = some (some e, s')) : s.Unchanged s' := by
  obtain ⟨hcons, hdone⟩ := done_of_reachable hs hacc h
  exact .of_fruitless (hdone.2 (Option.some_ne_none e)) hcons.named

/-! ## A device -/

def deviceEntry : Dentry where
  addr := 1
  name := ['d']
  ino := 10
  key := 2
  target := some 2
  temp := true
  mntpoint := false

/-- A device without a filesystem, as it is made by its driver. -/
def device : Inode :=
  { Inode.zero with
    refcount := 1, parent := some (kernelRootInode, 1), ino := 10, mode := 0x2600, links := 1, dups := 1
    opens := true }

/-- The root directory, in which the device is bound. -/
def deviceDir : Inode :=
  { Inode.zero with
    refcount := 5, fs := some kernelRootFS, parent := some kernelRootEntry, ino := 2
    mode := VFS_MODE_DIRECTORY ||| 0o755, nextKey := 3, dents := [deviceEntry] }

/-- There is a device in the root directory after `devfsAdd`. -/
def deviceState : Vfs :=
  Vfs.setInode { Vfs.vfsInit with inodes := (Vfs.vfsInit.inodes.new device).2, nextEntry := 2 }
    kernelRootInode deviceDir

theorem deviceState_consistent : deviceState.Consistent := by
  have hnew := vfsInit_ledger.new (x := device) Vfs.vfsInit.filesystems 2 (by decide) List.nodup_nil
    (fun d hd => by cases hd) rfl rfl
  have hroot : (Vfs.vfsInit.inodes.new device).2.get kernelRootInode = some _ :=
    Heap.get_new_of_get (h := Vfs.vfsInit.inodes) (x := _) rfl
  refine ⟨⟨[kernelRootInode], hnew.setInode hroot (by decide) (List.nodup_singleton _)
    (fun d hd => ?_) fun j => ?_⟩, vfsInit_consistent.named.toDisks.congr rfl rfl, fun p d hd hino => ?_⟩
  · rw [List.mem_singleton.1 hd]
    decide
  · by_cases h₁ : j = 1
    · subst h₁
      decide
    · by_cases h₂ : j = 2
      · subst h₂
        decide
      · have hrefs : ∀ l : List ℕ, (∀ i ∈ l, i = 1 ∨ i = 2) → l.count j = 0 := fun l hl =>
          List.count_eq_zero_of_not_mem fun hm => (hl j hm).elim h₁ h₂
        rw [hrefs _ (by decide), hrefs _ (by decide), hrefs _ (by decide), hrefs _ (by decide),
          if_neg (show j ≠ kernelRootInode from h₁)]
        rfl
  · by_cases hp : p = kernelRootEntry
    · rw [Vfs.dentry, if_pos hp] at hd
      obtain rfl := Option.some.inj hd
      cases hino
    · obtain ⟨x, hx, hmem, -⟩ := Vfs.dentry_mem hp hd
      rcases Vfs.get_setInode_cases hx with ⟨-, rfl⟩ | ⟨hne, hx⟩
      · rw [List.mem_singleton.1 hmem] at hino
        cases hino
      · by_cases h₂ : p.1 = 2
        · rw [h₂] at hx
          obtain rfl := Option.some.inj hx
          cases hmem
        · rw [Heap.get_new_ne h₂] at hx
          rw [(vfsInit_get hx).1] at hmem
          cases hmem

/-- The kernel, which opens what it likes. -/
def kernel : Caller where
  pid := none
  euid := 0
  egid := 0
  groups := []
  umask := 0
  fsadmin := true
  mount := true
  now := 0

/-- The device is opened, but its driver says that it is in use. -/
def openDevice : Call := .openFile none ['/', 'd'] O_RDONLY 0 (.error .EPERM) (some .EBUSY)

/-- A directory in the place of the device. -/
def replaceDevice : Call := .makeDir none ['/', 'd'] 0o755 0 (.error .EPERM)

/-- Both calls fail; the first leaves the device open once. -/
theorem deviceState_calls :
    (deviceState.call 1 kernel openDevice).map (·.1) = some (some .EBUSY) ∧
      ((deviceState.call 1 kernel openDevice).bind fun r => r.2.inodes.get 2).map Inode.numOpens =
        some 1 ∧
      (deviceState.call 1 kernel replaceDevice).map (·.1) = some (some .EEXIST) := by
  decide +kernel

/-- The device is opened, but it is in use already. -/
theorem failed_open_counts : ¬ ∀ (s : Vfs) (fuel : ℕ) (c : Caller) (a : Call) (e : Errno) (s' : Vfs),
    vfsSystem.Reachable s → s.call fuel c a = some (some e, s') → s.Unchanged s' := by
  intro hall
  obtain ⟨hrefused, hcounted, -⟩ := deviceState_calls
  obtain ⟨⟨e, s'⟩, hcall, rfl⟩ := Option.map_eq_some_iff.1 hrefused
  obtain ⟨x', hx', hsame⟩ := (hall deviceState 1 kernel openDevice .EBUSY s'
    (.init deviceState_consistent) hcall).kept 2 device rfl
  rw [hcall, Option.bind_some, hx'] at hcounted
  have hopens : x'.numOpens = 1 := Option.some.inj hcounted
  rw [hsame.numOpens] at hopens
  cases hopens

theorem failed_call_unchanged_exists : ∃ s', deviceState.call 1 kernel replaceDevice =
    some (some .EEXIST, s') ∧ deviceState.Unchanged s' := by
  obtain ⟨⟨e, s'⟩, hcall, rfl⟩ := Option.map_eq_some_iff.1 deviceState_calls.2.2
  exact ⟨s', hcall, failed_call_unchanged deviceState 1 kernel replaceDevice .EEXIST s'
    (.init deviceState_consistent) trivial hcall⟩

end Glidix.Fs
