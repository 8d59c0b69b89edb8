import Glidix.Fs.VfsRefs

/-!
# What path resolution does

The functions that resolve paths take over the references of their arguments, and hand out those of
their results; otherwise they change counters, call inodes in (`Looks`), and make a new entry if they
are told to (`Resolved`).
-/

namespace Glidix.Fs

open Errno

/-- The references of what is returned; there are none when there is an error. -/
def heldBy {α : Type} (refs : α → List ℕ) : Except Errno α → List ℕ
  | .ok a => refs a
  | .error _ => []

namespace Vfs

variable {s s' : Vfs} {K l : List ℕ} {c : Caller}

/-! ## Releasing and copying -/

section Release

variable {C : Vfs → List ℕ → Prop} {R : Vfs → Vfs → Prop}
  (hdown : ∀ {s s' : Vfs} {i : ℕ} {l : List ℕ}, s.vfsDownrefInode i = some s' →
    Changes C R s (i :: l) s' l)

include hdown

theorem changes_unrefTop {top : List MountPoint} (h : s.vfsUnrefTop top = some s') :
    Changes C R s (topRefs top ++ l) s' l := by
  induction top generalizing s with
  | nil =>
    obtain rfl := Option.some.inj h
    exact Changes.refl
  | cons mnt top ih =>
    obtain ⟨s₁, h₁, h⟩ := Option.bind_eq_some_iff.1 h
    obtain ⟨_, -, h⟩ := Option.bind_eq_some_iff.1 h
    obtain ⟨s₂, h₂, h⟩ := Option.bind_eq_some_iff.1 h
    exact (hdown h₁).trans ((hdown h₂).trans (ih h))

theorem changes_unrefInode {iref : InodeRef} (h : s.vfsUnrefInode iref = some s') :
    Changes C R s (iref.refs ++ l) s' l := by
  obtain ⟨s₁, h₁, h⟩ := Option.bind_eq_some_iff.1 h
  exact (hdown h₁).trans (changes_unrefTop hdown h)

theorem changes_unrefDentry {dref : DentryRef} (h : s.vfsUnrefDentry dref = some s') :
    Changes C R s (dref.refs ++ l) s' l := by
  obtain ⟨_, -, h⟩ := Option.bind_eq_some_iff.1 h
  obtain ⟨s₁, h₁, h⟩ := Option.bind_eq_some_iff.1 h
  exact (hdown h₁).trans (changes_unrefTop hdown h)

end Release

theorem recounts_unrefTop {top : List MountPoint} (h : s.vfsUnrefTop top = some s') :
    Recounts K s (topRefs top ++ l) s' l := changes_unrefTop recounts_downref h

theorem recounts_unrefInode {iref : InodeRef} (h : s.vfsUnrefInode iref = some s') :
    Recounts K s (iref.refs ++ l) s' l := changes_unrefInode recounts_downref h

theorem recounts_unrefDentry {dref : DentryRef} (h : s.vfsUnrefDentry dref = some s') :
    Recounts K s (dref.refs ++ l) s' l := changes_unrefDentry recounts_downref h

/-- The references of the directory that a path starts from. -/
def startRefs (startdir : Option InodeRef) : List ℕ := (startdir.map InodeRef.refs).getD []

theorem recounts_unrefStart {startdir : Option InodeRef} (h : s.vfsUnrefStart startdir = some s') :
    Recounts K s (startRefs startdir ++ l) s' l := by
  cases startdir with
  | none =>
    obtain rfl := Option.some.inj h
    exact Changes.refl
  | some iref => exact recounts_unrefInode h

theorem recounts_copyTop {top : List MountPoint} (h : s.copyTop top = some s') :
    Recounts K s l s' (topRefs top ++ l) := by
  induction top generalizing s l with
  | nil =>
    obtain rfl := Option.some.inj h
    exact Changes.refl
  | cons mnt top ih =>
    obtain ⟨_, -, h⟩ := Option.bind_eq_some_iff.1 h
    obtain ⟨s₁, h₁, h⟩ := Option.bind_eq_some_iff.1 h
    obtain ⟨s₂, h₂, h⟩ := Option.bind_eq_some_iff.1 h
    refine ((recounts_upref h₁).trans ((recounts_upref h₂).trans (ih h))).perm (fun _ => rfl) fun i => ?_
    simp only [topRefs, List.flatMap_cons, List.count_append, List.count_cons, List.count_nil]
    omega

theorem recounts_copyInodeRef {old : InodeRef} {r : InodeRef × Vfs}
    (h : s.vfsCopyInodeRef old = some r) : Recounts K s l r.2 (r.1.refs ++ l) := by
  obtain ⟨s₁, h₁, h⟩ := Option.bind_eq_some_iff.1 h
  obtain ⟨s₂, h₂, h⟩ := Option.bind_eq_some_iff.1 h
  obtain rfl := Option.some.inj h
  refine ((recounts_upref h₁).trans (recounts_copyTop h₂)).perm (fun _ => rfl) fun i => ?_
  simp only [InodeRef.refs, List.count_append, List.count_cons]
  omega

theorem recounts_getRoot {r : InodeRef × Vfs} (h : s.vfsGetRoot c = some r) :
    Recounts K s l r.2 (r.1.refs ++ l) := by
  rw [vfsGetRoot] at h
  cases hpid : c.pid with
  | none =>
    rw [hpid] at h
    obtain ⟨s₁, h₁, rfl⟩ := Option.map_eq_some_iff.1 h
    exact recounts_upref h₁
  | some pid =>
    rw [hpid] at h
    obtain ⟨proc, -, h⟩ := Option.bind_eq_some_iff.1 h
    exact recounts_copyInodeRef h

theorem recounts_getCurrentDir {r : InodeRef × Vfs} (h : s.vfsGetCurrentDir c = some r) :
    Recounts K s l r.2 (r.1.refs ++ l) := by
  rw [vfsGetCurrentDir] at h
  cases hpid : c.pid with
  | none =>
    rw [hpid] at h
    exact recounts_getRoot h
  | some pid =>
    rw [hpid] at h
    obtain ⟨proc, -, h⟩ := Option.bind_eq_some_iff.1 h
    exact recounts_copyInodeRef h

/-! ## Up and down -/

theorem recounts_parentDentry {iref : InodeRef} {r : DentryRef × Vfs}
    (h : s.parentDentry iref = some r) : Recounts K s (iref.refs ++ l) r.2 (r.1.refs ++ l) := by
  obtain ⟨inode, -, h⟩ := Option.bind_eq_some_iff.1 h
  obtain ⟨p, -, h⟩ := Option.bind_eq_some_iff.1 h
  obtain ⟨_, -, h⟩ := Option.bind_eq_some_iff.1 h
  obtain ⟨s₁, h₁, h⟩ := Option.bind_eq_some_iff.1 h
  obtain ⟨s₂, h₂, h⟩ := Option.bind_eq_some_iff.1 h
  obtain rfl := Option.some.inj h
  refine (recounts_upref h₁).trans (Changes.perm (recounts_downref h₂) (fun i => ?_) fun _ => rfl)
  simp only [InodeRef.refs, DentryRef.refs, List.cons_append, List.count_cons]
  omega

theorem recounts_getParentDentry {iref : InodeRef} {r : DentryRef × Vfs}
    (h : s.vfsGetParentDentry iref = some r) : Recounts K s (iref.refs ++ l) r.2 (r.1.refs ++ l) := by
  obtain ⟨inode, top⟩ := iref
  cases top with
  | nil => exact recounts_parentDentry h
  | cons mnt top =>
    simp only [vfsGetParentDentry] at h
    split_ifs at h with hroot
    · obtain ⟨s₁, h₁, h⟩ := Option.bind_eq_some_iff.1 h
      obtain ⟨s₂, h₂, h⟩ := Option.bind_eq_some_iff.1 h
      obtain ⟨_, -, h⟩ := Option.bind_eq_some_iff.1 h
      obtain rfl := Option.some.inj h
      exact (recounts_downref h₁).trans (recounts_downref h₂)
    · exact recounts_parentDentry h

/-- The references that `vfsGetDentryTarget` hands out. -/
def targetRefs : Except (List MountPoint) InodeRef → List ℕ
  | .ok iref => iref.refs
  | .error top => topRefs top

theorem looks_getDentryTarget {dref : DentryRef} {r : Except (List MountPoint) InodeRef × Vfs}
    (h : s.vfsGetDentryTarget dref = some r) :
    Looks K s (dref.refs ++ l) r.2 (targetRefs r.1 ++ l) := by
  obtain ⟨s₁, h₁, h⟩ := Option.bind_eq_some_iff.1 h
  obtain ⟨dent, -, h⟩ := Option.bind_eq_some_iff.1 h
  refine (looks_callIn h₁).trans ?_
  cases htarget : dent.target with
  | none =>
    simp only [htarget] at h
    obtain ⟨s₂, h₂, h⟩ := Option.bind_eq_some_iff.1 h
    obtain rfl := Option.some.inj h
    exact (recounts_downref h₂).looks
  | some target =>
    simp only [htarget] at h
    obtain ⟨s₂, h₂, h⟩ := Option.bind_eq_some_iff.1 h
    refine (recounts_upref h₂).looks.trans ?_
    split_ifs at h with hmnt
    · obtain ⟨s₃, h₃, h⟩ := Option.bind_eq_some_iff.1 h
      obtain ⟨s₄, h₄, h⟩ := Option.bind_eq_some_iff.1 h
      obtain ⟨s₅, h₅, h⟩ := Option.bind_eq_some_iff.1 h
      obtain rfl := Option.some.inj h
      refine (recounts_upref h₃).looks.trans ((recounts_upref h₄).looks.trans
        (Changes.perm (recounts_downref h₅).looks (fun _ => rfl) fun i => ?_))
      show List.count i (InodeRef.refs _ ++ l) = _
      simp only [InodeRef.refs, DentryRef.refs, topRefs, List.flatMap_cons,
        List.cons_append, List.count_cons, List.count_append, List.count_nil]
      omega
    · obtain ⟨s₃, h₃, h⟩ := Option.bind_eq_some_iff.1 h
      obtain rfl := Option.some.inj h
      refine Changes.perm (recounts_downref h₃).looks (fun i => ?_) fun _ => rfl
      simp only [targetRefs, InodeRef.refs, DentryRef.refs, List.cons_append, List.count_cons]
      omega

theorem looks_targetOrFail {dref : DentryRef} {r : Except Errno InodeRef × Vfs}
    (h : s.targetOrFail dref = some r) :
    Looks K s (dref.refs ++ l) r.2 (heldBy InodeRef.refs r.1 ++ l) := by
  obtain ⟨⟨t, s₁⟩, h₁, h⟩ := Option.bind_eq_some_iff.1 h
  refine (looks_getDentryTarget h₁).trans ?_
  cases t with
  | ok iref =>
    obtain rfl := Option.some.inj h
    exact Changes.refl
  | error top =>
    obtain ⟨s₂, h₂, h⟩ := Option.bind_eq_some_iff.1 h
    obtain rfl := Option.some.inj h
    exact (recounts_unrefTop h₂).looks

section Links

variable {getDentry : GetDentry}

/-- The function that links are followed with does what it should. -/
def LooksBy (K : List ℕ) (getDentry : GetDentry) : Prop := ∀ s iref path r l,
  getDentry s iref path = some r → Looks K s (iref.refs ++ l) r.2 (heldBy DentryRef.refs r.1 ++ l)

theorem looks_followLinks (hget : LooksBy K getDentry) {remaining : ℕ} {iref : InodeRef}
    {r : Except Errno InodeRef × Vfs} (h : s.followLinks getDentry remaining iref = some r) :
    Looks K s (iref.refs ++ l) r.2 (heldBy InodeRef.refs r.1 ++ l) := by
  induction remaining generalizing s iref with
  | zero =>
    obtain ⟨inode, -, h⟩ := Option.bind_eq_some_iff.1 h
    split_ifs at h
    · obtain rfl := Option.some.inj h
      exact Changes.refl
    · obtain ⟨s₁, h₁, h⟩ := Option.bind_eq_some_iff.1 h
      obtain rfl := Option.some.inj h
      exact (recounts_unrefInode h₁).looks
  | succ remaining ih =>
    obtain ⟨inode, -, h⟩ := Option.bind_eq_some_iff.1 h
    split_ifs at h
    · obtain rfl := Option.some.inj h
      exact Changes.refl
    · cases htarget : inode.target with
      | none =>
        simp only [htarget] at h
        obtain ⟨s₁, h₁, h⟩ := Option.bind_eq_some_iff.1 h
        obtain rfl := Option.some.inj h
        exact (recounts_unrefInode h₁).looks
      | some target =>
        simp only [htarget] at h
        obtain ⟨⟨dref, s₁⟩, h₁, h⟩ := Option.bind_eq_some_iff.1 h
        obtain ⟨⟨r₂, s₂⟩, h₂, h⟩ := Option.bind_eq_some_iff.1 h
        refine (recounts_getParentDentry h₁).looks.trans ((hget _ _ _ _ _ h₂).trans ?_)
        cases r₂ with
        | error e =>
          obtain rfl := Option.some.inj h
          exact Changes.refl
        | ok dref₂ =>
          obtain ⟨⟨r₃, s₃⟩, h₃, h⟩ := Option.bind_eq_some_iff.1 h
          refine (looks_targetOrFail h₃).trans ?_
          cases r₃ with
          | error e =>
            obtain rfl := Option.some.inj h
            exact Changes.refl
          | ok iref₃ => exact ih h

theorem looks_getInode (hget : LooksBy K getDentry) {dref : DentryRef}
    {r : Except Errno InodeRef × Vfs} (h : s.vfsGetInode getDentry dref = some r) :
    Looks K s (dref.refs ++ l) r.2 (heldBy InodeRef.refs r.1 ++ l) := by
  obtain ⟨⟨r₁, s₁⟩, h₁, h⟩ := Option.bind_eq_some_iff.1 h
  refine (looks_targetOrFail h₁).trans ?_
  cases r₁ with
  | error e =>
    obtain rfl := Option.some.inj h
    exact Changes.refl
  | ok iref => exact looks_followLinks hget h

end Links

/-! ## Paths -/

/-- How a path is resolved: with an error, to an entry that exists, or to a new one. -/
inductive Resolved (K l : List ℕ) (c : Caller) (create : Bool) (s : Vfs) (l₀ : List ℕ) :
    Except Errno DentryRef → Vfs → Prop
  | error {s' : Vfs} (e : Errno) (h : Looks K s l₀ s' l) :
    Resolved K l c create s l₀ (.error e) s'
  | found {s' : Vfs} {dref : DentryRef} (h : Looks K s l₀ s' (dref.refs ++ l)) :
    Resolved K l c create s l₀ (.ok dref) s'
  | created {s₁ s' : Vfs} {dir : ℕ} {top : List MountPoint} {inode : Inode} {name : Name}
    (hcreate : create = true) (h : Looks K s l₀ s₁ (dir :: topRefs top ++ l))
    (hdir : s₁.inodes.get dir = some inode) (htype : inode.type = VFS_MODE_DIRECTORY)
    (hname : inode.lookup name = none) (hallowed : vfsIsAllowed c inode VFS_ACE_WRITE = true)
    (hs : s₁.addPlaceholder c dir name = some s') :
    Resolved K l c create s l₀ (.ok ⟨(dir, s₁.nextEntry), top⟩) s'

theorem Resolved.trans {create : Bool} {s₁ : Vfs} {l₀ l₁ : List ℕ} {r : Except Errno DentryRef}
    (h : Looks K s l₀ s₁ l₁) (hr : Resolved K l c create s₁ l₁ r s') :
    Resolved K l c create s l₀ r s' := by
  cases hr with
  | error e h' => exact .error e (h.trans h')
  | found h' => exact .found (h.trans h')
  | created hcreate h' hdir htype hname hallowed hs =>
    exact .created hcreate (h.trans h') hdir htype hname hallowed hs

/-- Without `create` only what exists is found. -/
theorem Resolved.looks {l₀ : List ℕ} {r : Except Errno DentryRef}
    (h : Resolved K l c false s l₀ r s') : Looks K s l₀ s' (heldBy DentryRef.refs r ++ l) := by
  cases h with
  | error e h => exact h
  | found h => exact h
  | created hcreate => cases hcreate

/-- What `vfsGetChildDentry` returns, as its caller sees it. -/
def childResult : Option DentryRef → Except Errno DentryRef
  | none => .error ENOENT
  | some dref => .ok dref

theorem resolved_getChildDentry {diref : InodeRef} {name : Name} {create : Bool} {inode : Inode}
    {r : Option DentryRef × Vfs} (hdir : s.inodes.get diref.inode = some inode)
    (htype : inode.type = VFS_MODE_DIRECTORY)
    (h : s.vfsGetChildDentry c diref name create = some r) :
    Resolved K l c create s (diref.refs ++ l) (childResult r.1) r.2 := by
  rw [vfsGetChildDentry] at h
  split_ifs at h with hdot hdotdot
  · obtain ⟨⟨dref, s₁⟩, h₁, h⟩ := Option.bind_eq_some_iff.1 h
    obtain rfl := Option.some.inj h
    exact .found (recounts_getParentDentry h₁).looks
  · obtain ⟨⟨root, s₁⟩, h₁, h⟩ := Option.bind_eq_some_iff.1 h
    obtain ⟨s₂, h₂, h⟩ := Option.bind_eq_some_iff.1 h
    obtain ⟨⟨parent, s₃⟩, h₃, h⟩ := Option.bind_eq_some_iff.1 h
    have hparent : Looks K s (diref.refs ++ l) s₃ (parent.refs ++ l) :=
      (recounts_getRoot h₁).looks.trans ((recounts_unrefInode h₂).looks.trans (recounts_getParentDentry h₃).looks)
    simp only at h
    split_ifs at h
    · obtain rfl := Option.some.inj h
      exact .found hparent
    · obtain ⟨⟨dref, s₄⟩, h₄, h⟩ := Option.bind_eq_some_iff.1 h
      obtain rfl := Option.some.inj h
      exact .found (hparent.trans (recounts_getParentDentry h₄).looks)
  · obtain ⟨inode', hdir', h⟩ := Option.bind_eq_some_iff.1 h
    obtain rfl := Option.some.inj (hdir.symm.trans hdir')
    cases hname : inode.lookup name with
    | some dent =>
      rw [hname] at h
      obtain rfl := Option.some.inj h
      exact .found Changes.refl
    | none =>
      simp only [hname] at h
      split_ifs at h with hcreate
      · obtain ⟨s₁, h₁, h⟩ := Option.bind_eq_some_iff.1 h
        obtain rfl := Option.some.inj h
        exact .created hcreate.1 Changes.refl hdir htype hname hcreate.2 h₁
      · obtain ⟨s₁, h₁, h⟩ := Option.bind_eq_some_iff.1 h
        obtain rfl := Option.some.inj h
        exact .error _ (recounts_unrefInode h₁).looks

theorem resolved_walk {getDentry : GetDentry} (hget : LooksBy K getDentry) {create : Bool}
    {tokens : List Name} {dref : DentryRef} {r : Except Errno DentryRef × Vfs}
    (h : walk getDentry c create tokens s dref = some r) :
    Resolved K l c create s (dref.refs ++ l) r.1 r.2 := by
  induction tokens generalizing s dref with
  | nil =>
    obtain rfl := Option.some.inj h
    exact .found Changes.refl
  | cons token tokens ih =>
    obtain ⟨⟨r₁, s₁⟩, h₁, h⟩ := Option.bind_eq_some_iff.1 h
    refine Resolved.trans (looks_getInode hget h₁) ?_
    cases r₁ with
    | error e =>
      obtain rfl := Option.some.inj h
      exact .error e Changes.refl
    | ok dir =>
      obtain ⟨inode, hdir, h⟩ := Option.bind_eq_some_iff.1 h
      split_ifs at h with htype hallowed
      · obtain ⟨s₂, h₂, h⟩ := Option.bind_eq_some_iff.1 h
        obtain rfl := Option.some.inj h
        exact .error _ (recounts_unrefInode h₂).looks
      rotate_left
      · obtain ⟨s₂, h₂, h⟩ := Option.bind_eq_some_iff.1 h
        obtain rfl := Option.some.inj h
        exact .error _ (recounts_unrefInode h₂).looks
      · obtain ⟨⟨r₂, s₂⟩, h₂, h⟩ := Option.bind_eq_some_iff.1 h
        have hchild := resolved_getChildDentry (K := K) (l := l) hdir (not_not.1 htype) h₂
        cases r₂ with
        | none =>
          obtain rfl := Option.some.inj h
          cases hchild with
          | error e h' => exact .error _ h'
        | some dref₂ =>
          cases tokens with
          | nil =>
            obtain rfl := Option.some.inj h
            rw [List.isEmpty_nil, Bool.and_true] at hchild
            exact hchild
          | cons token' tokens =>
            rw [List.isEmpty_cons, Bool.and_false] at hchild
            exact Resolved.trans hchild.looks (ih h)

theorem looks_startDir {startdir : Option InodeRef} {ch : Char} {r : InodeRef × Vfs}
    (h : s.startDir c startdir ch = some r) :
    Looks K s (startRefs startdir ++ l) r.2 (r.1.refs ++ l) := by
  rw [startDir.eq_def] at h
  split_ifs at h
  · obtain ⟨s₁, h₁, h⟩ := Option.bind_eq_some_iff.1 h
    exact (recounts_unrefStart h₁).looks.trans (recounts_getRoot h).looks
  · cases startdir with
    | none => exact (recounts_getCurrentDir h).looks
    | some iref =>
      obtain rfl := Option.some.inj h
      exact Changes.refl

/-- What `vfsGetDentry` does, with the references in `K` and `l` held by others. -/
theorem resolved_getDentry {fuel : ℕ} {startdir : Option InodeRef} {path : List Char}
    {create : Bool} {r : Except Errno DentryRef × Vfs}
    (h : vfsGetDentry c fuel s startdir path create = some r) :
    Resolved K l c create s (startRefs startdir ++ l) r.1 r.2 := by
  induction fuel generalizing s startdir path create r l with
  | zero => cases h
  | succ fuel ih =>
    cases path with
    | nil =>
      obtain ⟨s₁, h₁, h⟩ := Option.bind_eq_some_iff.1 h
      obtain rfl := Option.some.inj h
      exact .error _ (recounts_unrefStart h₁).looks
    | cons ch path =>
      obtain ⟨⟨dir, s₁⟩, h₁, h⟩ := Option.bind_eq_some_iff.1 h
      obtain ⟨⟨dref, s₂⟩, h₂, h⟩ := Option.bind_eq_some_iff.1 h
      have hget : LooksBy K fun s diref target => vfsGetDentry c fuel s (some diref) target false :=
        fun s iref path r l h => (ih h).looks
      exact Resolved.trans ((looks_startDir h₁).trans (recounts_getParentDentry h₂).looks)
        (resolved_walk hget h)

/-- `vfsGetInode` with the function that the system follows links with. -/
theorem looksBy_getDentry {fuel : ℕ} :
    LooksBy K fun s diref target => vfsGetDentry c fuel s (some diref) target false :=
  fun _ _ _ _ _ h => (resolved_getDentry h).looks

end Vfs

end Glidix.Fs
