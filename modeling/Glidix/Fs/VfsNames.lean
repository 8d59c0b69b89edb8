import Glidix.Fs.VfsShapes

/-!
# Entries that name inodes

An entry whose inode number is zero is one that a call has made and not linked yet, so that a call
takes an entry without a number for its own.  `Named s but` says that only entries in `but` are such
in `s`.
-/

namespace Glidix.Fs

/-- The entries of all directories on the disk have numbers. -/
def FileSystem.NamesEntries (fs : FileSystem) : Prop := ∀ loadInode n x,
  fs.loadInode = some loadInode → loadInode n = some x → ∀ e ∈ x.entries, e.2 ≠ 0

namespace Vfs

variable {s s' : Vfs} {but : Set (ℕ × ℕ)} {K l : List ℕ} {i f t : ℕ} {x y : Inode} {p q : ℕ × ℕ}
  {d : Dentry} {c : Caller} {name : Name}

/-! ## Entries after a step -/

theorem dentry_of_get (h : s'.rootDentry = s.rootDentry)
    (hget : ∀ i, s'.inodes.get i = s.inodes.get i ∨
      (∀ x, s'.inodes.get i = some x → x.dents = []) ∧
        ∀ x, s.inodes.get i = some x → x.dents = []) : s'.dentry p = s.dentry p := by
  have hnone : ∀ o : Option Inode, (∀ x, o = some x → x.dents = []) →
      (o.bind fun x => x.dentry p.2) = none := fun o ho => by
    cases o with
    | none => rfl
    | some x => rw [Option.bind_some, Inode.dentry, ho x rfl, List.find?_nil]
  rw [dentry, dentry, h]
  split_ifs
  · rfl
  · obtain hsame | ⟨h₁, h₂⟩ := hget p.1
    · rw [hsame]
    · rw [hnone _ h₁, hnone _ h₂]

theorem dentry_settle (h : Settle s s') : s'.dentry p = s.dentry p := by
  induction h with
  | refl => rfl
  | @tail s₁ s₂ _ h ih =>
    rw [← ih]
    cases h with
    | count h => exact dentry_recounts (Relation.ReflTransGen.single h)
    | @release a x s₂ hx hone hdents hroot hfree h =>
      obtain ⟨x', hx', ⟨-, s₃, inodes, hs₃, hr, rfl⟩ | ⟨hne, -⟩⟩ := vfsDownrefInode_cases h
      · obtain rfl := Option.some.inj (hx.symm.trans hx')
        obtain ⟨hinodes, hrootd, -⟩ := removeFromMap_some hs₃
        obtain ⟨inodes', hr', hget, -⟩ := Heap.exists_release hx
        rw [hinodes] at hr
        obtain rfl := Option.some.inj (hr'.symm.trans hr)
        refine dentry_of_get hrootd fun j => ?_
        by_cases hj : j = a
        · refine Or.inr ⟨fun z hz => ?_, fun z hz => ?_⟩
          · rw [hget, hj, Function.update_self] at hz
            cases hz
          · rw [hj, hx] at hz
            obtain rfl := Option.some.inj hz
            exact hdents
        · exact Or.inl (by rw [hget, Function.update_of_ne hj])
      · obtain rfl := Option.some.inj (hx.symm.trans hx')
        exact absurd hone hne

theorem dentry_addPlaceholder_ne (h : s.addPlaceholder c i name = some s')
    (hp : p ≠ (i, s.nextEntry)) : s'.dentry p = s.dentry p := by
  obtain ⟨x, hx, rfl⟩ := addPlaceholder_some h
  rw [dentry, dentry]
  split_ifs
  · rfl
  · by_cases hi : p.1 = i
    · have hne : s.nextEntry ≠ p.2 := fun he => hp (Prod.ext hi he.symm)
      rw [hi, get_setInode_self (s := { s with nextEntry := s.nextEntry + 1 }) hx, hx,
        Option.bind_some, Option.bind_some, Inode.dentry, Inode.dentry, List.find?_append]
      simp [placeholder, hne]
    · rw [get_setInode_ne (s := { s with nextEntry := s.nextEntry + 1 }) hi]

theorem dentry_eraseDentry_self (h : s.eraseDentry p = some s') : s'.dentry p = none := by
  rw [dentry]
  split_ifs with hp
  · rw [eraseDentry, if_pos hp] at h
    obtain rfl := Option.some.inj h
    rfl
  · rw [get_eraseDentry h]
    cases hx : s.inodes.get p.1 with
    | none => rfl
    | some x =>
      rw [Option.map_some, if_pos ⟨hp, rfl⟩, Option.bind_some, Inode.dentry, List.find?_eq_none]
      intro e he
      simpa using (List.mem_filter.1 he).2

theorem dentry_eraseDentry_ne (h : s.eraseDentry p = some s') (hq : q ≠ p) :
    s'.dentry q = s.dentry q := by
  have hroot : q = kernelRootEntry → s'.rootDentry = s.rootDentry := fun hr => by
    rw [eraseDentry, if_neg (fun hp => hq (hr.trans hp.symm))] at h
    obtain ⟨x, hx, rfl⟩ := modifyInode_some h
    rfl
  rw [dentry, dentry]
  split_ifs with hr
  · exact hroot hr
  · rw [get_eraseDentry h]
    cases hx : s.inodes.get q.1 with
    | none => rfl
    | some x =>
      rw [Option.map_some, Option.bind_some, Option.bind_some]
      split_ifs with hi
      · have hne : q.2 ≠ p.2 := fun he => hq (Prod.ext hi.2 he)
        rw [Inode.dentry, Inode.dentry, Inode.eraseDentry, List.find?_filter]
        congr 1
        funext e
        by_cases he : e.addr = q.2
        · simp [he, hne]
        · simp [he]
      · rfl

/-- A new inode without entries. -/
theorem dentry_new (hroot : s'.rootDentry = s.rootDentry)
    (hinodes : s'.inodes = (s.inodes.new x).2) (hdents : x.dents = []) :
    s'.dentry p = s.dentry p := by
  refine dentry_of_get hroot fun j => ?_
  rw [hinodes]
  by_cases hj : j = s.inodes.brk
  · subst hj
    refine Or.inr ⟨fun z hz => ?_, fun z hz => ?_⟩
    · rw [Heap.get_new_self] at hz
      obtain rfl := Option.some.inj hz
      exact hdents
    · rw [s.inodes.get_of_le _ (Nat.le_refl _)] at hz
      cases hz
  · exact Or.inl (Heap.get_new_ne hj)

/-- Each entry is on the list of its directory. -/
theorem Shaped.dentry_of_mem (h : s.Shaped) (hx : s.inodes.get i = some x) (hd : d ∈ x.dents) :
    s.dentry (i, d.addr) = some d := by
  have hne : (i, d.addr) ≠ kernelRootEntry := fun he =>
    absurd (congrArg Prod.snd he) (h.fresh i x d hx hd).1.ne'
  rw [dentry, if_neg hne, hx, Option.bind_some, Inode.dentry]
  cases hfind : x.dents.find? fun e => decide (e.addr = d.addr) with
  | none => exact absurd (List.find?_eq_none.1 hfind d hd) (by simp)
  | some e =>
    have he : e.addr = d.addr := by simpa using List.find?_some hfind
    rw [List.inj_on_of_nodup_map (h.nodup i x hx) (List.mem_of_find?_eq_some hfind) hd he]

/-! ## Numbers -/

/-- The entries of the directories on the disks have numbers, and so have new inodes. -/
structure Disks (s : Vfs) : Prop where
  disk : ∀ f fs, s.filesystems.get f = some fs → fs.NamesEntries
  next : s.nextRootIno ≠ 0

/-- Only the entries in `but` have no number. -/
structure Named (s : Vfs) (but : Set (ℕ × ℕ)) : Prop extends Disks s where
  entries : ∀ p d, s.dentry p = some d → d.ino = 0 → p ∈ but

theorem Named.ino_ne_zero (h : s.Named but) (hd : s.dentry p = some d) (hp : p ∉ but) :
    d.ino ≠ 0 := fun hino => hp (h.entries p d hd hino)

theorem Named.mono {but' : Set (ℕ × ℕ)} (h : s.Named but) (hbut : but ⊆ but') : s.Named but' :=
  { h with entries := fun p d hd hino => hbut (h.entries p d hd hino) }

/-- What is on the disks does not change when a filesystem does otherwise. -/
theorem Disks.modify {filesystems : Heap FileSystem} {g : FileSystem → FileSystem} (h : s.Disks)
    (hm : s.filesystems.modify f g = some filesystems)
    (hg : ∀ fs, (g fs).loadInode = fs.loadInode) (hfs : s'.filesystems = filesystems)
    (hnext : s'.nextRootIno ≠ 0) : s'.Disks := by
  refine ⟨fun f' fs hf => ?_, hnext⟩
  obtain ⟨fs₀, hfs₀, rfl⟩ := Option.map_eq_some_iff.1 hm
  rw [hfs] at hf
  by_cases hff : f' = f
  · subst hff
    rw [Heap.get_put_self hfs₀] at hf
    obtain rfl := Option.some.inj hf
    intro loadInode n x hl
    exact h.disk f' fs₀ hfs₀ loadInode n x ((hg fs₀).symm.trans hl)
  · rw [Heap.get_put_ne hff] at hf
    exact h.disk f' fs hf

theorem Disks.congr (h : s.Disks) (hfs : s'.filesystems = s.filesystems)
    (hnext : s'.nextRootIno = s.nextRootIno) : s'.Disks :=
  ⟨fun f fs => hfs ▸ h.disk f fs, hnext ▸ h.next⟩

theorem Disks.recounts (h : s.Disks) (hs : Relation.ReflTransGen Recount s s') : s'.Disks := by
  induction hs with
  | refl => exact h
  | tail _ hs ih =>
    cases hs with
    | mk hx hn => exact ih.congr rfl rfl

theorem Disks.settle (h : s.Disks) (hs : Settle s s') : s'.Disks := by
  induction hs with
  | refl => exact h
  | @tail s₁ s₂ _ hs ih =>
    cases hs with
    | count hs => exact ih.recounts (Relation.ReflTransGen.single hs)
    | release hx hone hdents hroot hfree hs =>
      obtain ⟨x, hx, ⟨-, s₃, inodes, hs₃, hr, rfl⟩ | ⟨hne, rfl⟩⟩ := vfsDownrefInode_cases hs
      · cases hf : x.fs with
        | none =>
          rw [hf] at hs₃
          obtain rfl := Option.some.inj hs₃
          exact ih.congr rfl rfl
        | some f =>
          rw [hf] at hs₃
          obtain ⟨fss, hm, rfl⟩ := Option.map_eq_some_iff.1 hs₃
          exact ih.modify hm (fun fs => by split_ifs <;> rfl) rfl ih.next
      · exact ih.congr rfl rfl

theorem Disks.lookStep (h : s.Disks) (hs : LookStep s s') : s'.Disks := by
  cases hs with
  | count hs => exact h.recounts (Relation.ReflTransGen.single hs)
  | found he htarget hdir hf hfs hi hs =>
    obtain ⟨x, hx, hm⟩ := callInFound_some hs
    obtain ⟨inodes, root, rfl⟩ := modifyDentry_frame hm
    exact h.congr rfl rfl
  | loaded he htarget hdir hf hfs hi hl hx hs =>
    obtain ⟨filesystems, hm, hs⟩ := callInLoaded_some hs
    obtain ⟨inodes, root, rfl⟩ := modifyDentry_frame hs
    exact h.modify hm (fun fs => by rfl) rfl h.next

theorem Named.of_dentry (h : s.Named but) (hd : ∀ p, s'.dentry p = s.dentry p) (hs : s'.Disks) :
    s'.Named but where
  toDisks := hs
  entries p d hp := h.entries p d (hd p ▸ hp)

theorem Named.settle (h : s.Named but) (hs : Settle s s') : s'.Named but :=
  h.of_dentry (fun _ => dentry_settle hs) (h.toDisks.settle hs)

/-- An entry is written, and gets a number unless it may go without one. -/
theorem Named.modifyDentry {g : Dentry → Dentry} {but' : Set (ℕ × ℕ)} (h : s.Named but)
    (hs : s.modifyDentry p g = some s') (haddr : ∀ d, (g d).addr = d.addr)
    (hino : ∀ d, s.dentry p = some d → (g d).ino = 0 → p ∈ but')
    (hbut : ∀ q ∈ but, q ≠ p → q ∈ but') : s'.Named but' := by
  refine ⟨?_, fun q e he he₀ => ?_⟩
  · obtain ⟨inodes, root, rfl⟩ := modifyDentry_frame hs
    exact h.toDisks.congr rfl rfl
  · by_cases hq : q = p
    · subst hq
      cases hd : s.dentry q with
      | none =>
        obtain ⟨hp, d, hd', -⟩ | ⟨hp, x, d, hx, hd', -⟩ := modifyDentry_some hs
        · rw [dentry, if_pos hp, hd'] at hd
          cases hd
        · rw [dentry, if_neg hp, hx, Option.bind_some, hd'] at hd
          cases hd
      | some d =>
        rw [dentry_modifyDentry haddr hd hs] at he
        obtain rfl := Option.some.inj he
        exact hino d hd he₀
    · rw [dentry_modifyDentry_ne haddr hq hs] at he
      exact hbut q (h.entries q e he he₀) hq

theorem Named.modifyInode {g : Inode → Inode} (h : s.Named but) (hs : s.modifyInode i g = some s')
    (hdents : ∀ x, (g x).dents = x.dents) : s'.Named but :=
  h.of_dentry (fun _ => dentry_modifyInode hs hdents) (by
    obtain ⟨x, hx, rfl⟩ := modifyInode_some hs
    exact h.toDisks.congr rfl rfl)

theorem Named.lookStep (h : s.Named but) (hs : LookStep s s') : s'.Named but := by
  have hdisks := h.toDisks.lookStep hs
  cases hs with
  | count hs =>
    exact h.of_dentry (fun _ => dentry_recounts (Relation.ReflTransGen.single hs)) hdisks
  | @found p e dir f i fs s' he htarget hdir hf hfs hi hs =>
    obtain ⟨x, hx, hm⟩ := callInFound_some hs
    have hsame : ∀ q, (s.setInode i
        { x with dups := x.dups + 1, refcount := x.refcount + 1 }).dentry q = s.dentry q :=
      fun q => dentry_setInode hx (by rfl)
    exact (h.of_dentry hsame (h.toDisks.congr rfl rfl)).modifyDentry hm (fun _ => rfl)
      (fun d hd hino => h.entries p d (hsame p ▸ hd) hino) fun q hq _ => hq
  | @loaded p e dir f fs loadInode disk s' he htarget hdir hf hfs hi hl hx hs =>
    obtain ⟨filesystems, hm, hs⟩ := callInLoaded_some hs
    obtain ⟨hentries, -, -, -⟩ := loaded_dents (p := p) (f := f) disk e.ino s.nextEntry
    have hnamed : Named
        { s with
          filesystems
          inodes := (s.inodes.new ((disk.inode e.ino f (some p)).loadEntries s.nextEntry
            disk.entries)).2
          nextEntry := s.nextEntry + disk.entries.length } but := by
      refine ⟨h.toDisks.modify hm (fun fs => by rfl) rfl h.next, fun q d hd hino => ?_⟩
      by_cases hroot : q = kernelRootEntry
      · rw [dentry, if_pos hroot] at hd
        refine h.entries q d ?_ hino
        rw [dentry, if_pos hroot]
        exact hd
      · obtain ⟨y, hy, hmem, -⟩ := dentry_mem hroot hd
        by_cases hbrk : q.1 = s.inodes.brk
        · rw [hbrk, Heap.get_new_self] at hy
          obtain rfl := Option.some.inj hy
          refine absurd hino (h.disk f fs hfs loadInode e.ino disk hl hx (d.name, d.ino) ?_)
          exact hentries ▸ List.mem_map_of_mem hmem
        · refine h.entries q d ?_ hino
          rw [← hd, dentry, dentry, if_neg hroot, if_neg hroot, Heap.get_new_ne hbrk]
    exact hnamed.modifyDentry hs (fun _ => rfl)
      (fun d hd hino => hnamed.entries p d hd hino) fun q hq _ => hq

theorem Named.look (h : s.Named but) (hs : Look s s') : s'.Named but := by
  induction hs with
  | refl => exact h
  | tail _ hs ih => exact ih.lookStep hs

theorem Named.recounts (h : s.Named but) (hs : Relation.ReflTransGen Recount s s') :
    s'.Named but :=
  h.of_dentry (fun _ => dentry_recounts hs) (h.toDisks.recounts hs)

/-- A new entry has no number. -/
theorem Named.addPlaceholder (h : s.Named but) (hs : s.addPlaceholder c i name = some s') :
    s'.Named (insert (i, s.nextEntry) but) := by
  refine ⟨?_, fun p d hd hino => ?_⟩
  · obtain ⟨x, hx, rfl⟩ := addPlaceholder_some hs
    exact h.toDisks.congr rfl rfl
  · by_cases hp : p = (i, s.nextEntry)
    · exact hp ▸ Set.mem_insert _ _
    · exact Set.mem_insert_of_mem _ (h.entries p d (dentry_addPlaceholder_ne hs hp ▸ hd) hino)

/-- An entry without a number is removed. -/
theorem Named.eraseDentry (h : s.Named (insert p but)) (hs : s.eraseDentry p = some s') :
    s'.Named but := by
  refine ⟨?_, fun q d hd hino => ?_⟩
  · rw [Vfs.eraseDentry] at hs
    split_ifs at hs
    · obtain rfl := Option.some.inj hs
      exact h.toDisks.congr rfl rfl
    · obtain ⟨x, hx, rfl⟩ := modifyInode_some hs
      exact h.toDisks.congr rfl rfl
  · by_cases hq : q = p
    · rw [hq, dentry_eraseDentry_self hs] at hd
      cases hd
    · exact (Set.mem_insert_iff.1 (h.entries q d (dentry_eraseDentry_ne hs hq ▸ hd) hino)).resolve_left
        hq

theorem Named.fruitless (h : s.Named ∅) (hs : Fruitless s s') : s'.Named ∅ := by
  cases hs with
  | looked hs => exact h.look hs
  | undone h₁ hshaped h₂ h₃ hd hino h₄ h₅ =>
    exact ((((h.look h₁).addPlaceholder h₂).recounts h₃).eraseDentry h₄).recounts h₅

theorem Named.createInode {mode : ℕ} {reg : Except Errno Registration} (h : s.Named but)
    (hs : s.vfsCreateInode c f mode reg = some (.ok t, s')) : s'.Named but := by
  obtain ⟨fs, filesystems, nextRootIno, ino, ft, opens, -, rfl, hm, rfl, hino⟩ :=
    vfsCreateInode_ok hs
  refine h.of_dentry (fun p => dentry_new rfl rfl (by rfl)) (h.toDisks.modify hm (fun _ => rfl) rfl ?_)
  obtain ⟨-, -, rfl⟩ | ⟨-, rfl, -⟩ := hino
  · exact Nat.succ_ne_zero _
  · exact h.next

/-- An entry is linked to an inode that has a number. -/
theorem Named.setTarget {temp : Bool} (h : s.Named (insert p but))
    (hs : s.setTarget p t temp = some s') (hx : s.inodes.get t = some x) (hino : x.ino ≠ 0) :
    s'.Named but := by
  obtain ⟨d, x', s₁, y, -, -, hx', h₁, hy, rfl⟩ := setTarget_some hs
  obtain rfl := Option.some.inj (hx.symm.trans hx')
  have hsame : ∀ q, (s.setInode t { x with refcount := x.refcount + 1 }).dentry q = s.dentry q :=
    fun q => dentry_setInode hx (by rfl)
  have hone : s₁.Named but :=
    (h.of_dentry hsame (h.toDisks.congr rfl rfl)).modifyDentry h₁ (fun _ => rfl)
      (fun d _ hd => absurd hd hino) fun q hq hne => (Set.mem_insert_iff.1 hq).resolve_left hne
  exact hone.modifyInode (modifyInode_eq hy fun y => { y with parent := y.parent.or (some p) })
    fun _ => rfl

theorem Named.linked (h : s.Named (insert p but)) (hs : s.Linked p t s')
    (hx : s.inodes.get t = some x) (hino : x.ino ≠ 0) : s'.Named but := by
  obtain ⟨h₁, h₂, h₃, h₄⟩ | ⟨h₁, h₂, h₃, h₄⟩ := hs
  · exact (((h.setTarget h₁ hx hino).recounts h₂).modifyInode h₃ fun _ => rfl).look h₄
  · exact (((h.setTarget h₁ hx hino).recounts h₂).modifyInode h₃ fun _ => rfl).look h₄

theorem Named.cleared (h : s.Named but) (hs : s.Cleared p s') : s'.Named but := by
  obtain ⟨h₁, h₂, h₃⟩ := hs
  have hone : Named _ (insert p but) := h.modifyDentry h₁ (fun _ => rfl)
    (fun _ _ _ => Set.mem_insert _ _) fun q hq _ => Set.mem_insert_of_mem _ hq
  exact (hone.eraseDentry h₂).settle h₃

/-- Counting a link less changes the inode, and the calls of `drop`. -/
theorem linkDown_some (h : s.linkDown t = some s') : ∃ x drops links dups ino ft,
    s.inodes.get t = some x ∧
      s' = { s with drops }.setInode t { x with links, dups, ino, ft } := by
  obtain ⟨x, hx, h⟩ := Option.bind_eq_some_iff.1 h
  split_ifs at h
  · obtain ⟨s₁, h₁, h⟩ := Option.bind_eq_some_iff.1 h
    have hdrop : ∃ drops, s₁ = { s with drops } := by
      cases hf : x.fs with
      | none =>
        rw [hf] at h₁
        obtain rfl := Option.some.inj h₁
        exact ⟨_, rfl⟩
      | some f =>
        rw [hf] at h₁
        obtain ⟨fs, -, h₁⟩ := Option.bind_eq_some_iff.1 h₁
        obtain rfl := Option.some.inj h₁
        split_ifs
        exacts [⟨_, rfl⟩, ⟨_, rfl⟩]
    obtain ⟨drops, rfl⟩ := hdrop
    obtain ⟨x', hx', rfl⟩ := modifyInode_some h
    obtain rfl := Option.some.inj (hx.symm.trans hx')
    exact ⟨x, drops, _, _, _, _, hx, rfl⟩
  · obtain ⟨x', hx', rfl⟩ := modifyInode_some h
    obtain rfl := Option.some.inj (hx.symm.trans hx')
    exact ⟨x, s.drops, _, _, x.ino, x.ft, hx, rfl⟩

theorem dentry_linkDown (h : s.linkDown t = some s') : s'.dentry p = s.dentry p := by
  obtain ⟨x, drops, links, dups, ino, ft, hx, rfl⟩ := linkDown_some h
  exact dentry_setInode (s := { s with drops }) hx (by rfl)

theorem Named.linkDown (h : s.Named but) (hs : s.linkDown t = some s') : s'.Named but :=
  h.of_dentry (fun _ => dentry_linkDown hs) (by
    obtain ⟨x, drops, links, dups, ino, ft, hx, rfl⟩ := linkDown_some hs
    exact h.toDisks.congr rfl rfl)

theorem Named.unlinked (h : s.Named but) (hs : s.Unlinked p t s') : s'.Named but := by
  obtain ⟨h₁, h₂, h₃, h₄⟩ := hs
  exact (((h.modifyInode h₁ fun _ => rfl).cleared h₂).linkDown h₃).settle h₄

/-- An entry is moved to one that may have no number yet. -/
theorem Named.moved (h : s.Named (insert q but)) (hs : s.Moved p q s') (hp : p ∉ insert q but) :
    s'.Named but := by
  cases hs with
  | @mk d s₁ s₂ s₃ s' hd h₁ h₂ h₃ h₄ =>
    have hone : s₁.Named but := h.modifyDentry h₁ (fun _ => rfl)
      (fun _ _ hino => absurd (show d.ino = 0 from hino) (h.ino_ne_zero hd hp))
      fun a ha hne => (Set.mem_insert_iff.1 ha).resolve_left hne
    refine (Named.cleared ?_ h₃).settle h₄
    cases htarget : d.target with
    | none =>
      rw [htarget] at h₂
      obtain rfl := Option.some.inj h₂
      exact hone
    | some t =>
      rw [htarget] at h₂
      exact hone.modifyInode h₂ fun _ => rfl

end Vfs

end Glidix.Fs
