import Glidix.Fs.VfsCallSpecs
import Glidix.Lib.Runs

/-!
# Runs of calls

Between calls the references to inodes are those of entries, of files and of processes, and some that
were lost (`Consistent`).  This holds after `vfsInit`, and a call keeps it unless it gives an entry an
inode that has been dropped.
-/

namespace Glidix.Fs

open Errno

namespace Vfs

variable {s s' s₁ : Vfs} {K l : List ℕ} {i f t fuel : ℕ} {x : Inode} {p q : ℕ × ℕ} {c : Caller}
  {name : Name}

/-! ## Who holds references -/

/-- The references of a description, if there is one. -/
def fileRefs (fp : Option File) : List ℕ := (fp.map fun fp => fp.iref.refs).getD []

/-- The references that files and processes hold. -/
def heldRefs (s : Vfs) : List ℕ :=
  s.files.flatMap fileRefs ++ s.procs.flatMap fun proc => proc.rootdir.refs ++ proc.cwd.refs

/-- Files and processes stay as they are. -/
def SameHolders (s s' : Vfs) : Prop := s'.files = s.files ∧ s'.procs = s.procs

namespace SameHolders

theorem refl : SameHolders s s := ⟨rfl, rfl⟩

theorem trans {s'' : Vfs} (h : SameHolders s s') (h' : SameHolders s' s'') : SameHolders s s'' :=
  ⟨h'.1.trans h.1, h'.2.trans h.2⟩

theorem heldRefs (h : SameHolders s s') : s'.heldRefs = s.heldRefs := by
  rw [Vfs.heldRefs, Vfs.heldRefs, h.1, h.2]

theorem of_reflTransGen {R : Vfs → Vfs → Prop} (hR : ∀ s s', R s s' → SameHolders s s')
    (h : Relation.ReflTransGen R s s') : SameHolders s s' := by
  induction h with
  | refl => exact refl
  | tail _ h ih => exact ih.trans (hR _ _ h)

end SameHolders

theorem holders_modifyInode {g : Inode → Inode} (h : s.modifyInode i g = some s') :
    SameHolders s s' := by
  obtain ⟨x, -, rfl⟩ := modifyInode_some h
  exact ⟨rfl, rfl⟩

theorem holders_modifyDentry {g : Dentry → Dentry} (h : s.modifyDentry p g = some s') :
    SameHolders s s' := by
  obtain ⟨inodes, root, rfl⟩ := modifyDentry_frame h
  exact ⟨rfl, rfl⟩

theorem holders_eraseDentry (h : s.eraseDentry p = some s') : SameHolders s s' := by
  rw [eraseDentry] at h
  split_ifs at h
  · obtain rfl := Option.some.inj h
    exact ⟨rfl, rfl⟩
  · exact holders_modifyInode h

theorem holders_recount (h : Recount s s') : SameHolders s s' := by
  cases h
  exact ⟨rfl, rfl⟩

theorem holders_downref (h : s.vfsDownrefInode i = some s') : SameHolders s s' := by
  obtain ⟨x, -, ⟨-, s₁, inodes, hs₁, -, rfl⟩ | ⟨-, rfl⟩⟩ := vfsDownrefInode_cases h
  · cases hf : x.fs with
    | none =>
      rw [hf] at hs₁
      obtain rfl := Option.some.inj hs₁
      exact ⟨rfl, rfl⟩
    | some f =>
      rw [hf] at hs₁
      obtain ⟨fss, -, rfl⟩ := Option.map_eq_some_iff.1 hs₁
      exact ⟨rfl, rfl⟩
  · exact ⟨rfl, rfl⟩

theorem holders_recounts (h : Relation.ReflTransGen Recount s s') : SameHolders s s' :=
  .of_reflTransGen (fun _ _ => holders_recount) h

theorem holders_settle (h : Settle s s') : SameHolders s s' := by
  refine .of_reflTransGen (fun s s' h => ?_) h
  cases h with
  | count h => exact holders_recount h
  | release hx hone hdents hroot hfree h => exact holders_downref h

theorem holders_look (h : Look s s') : SameHolders s s' := by
  refine .of_reflTransGen (fun s s' h => ?_) h
  cases h with
  | count h => exact holders_recount h
  | found hd htarget hdir hf hfs hi h =>
    obtain ⟨x, -, hm⟩ := callInFound_some h
    have hset := holders_modifyDentry hm
    exact ⟨hset.1, hset.2⟩
  | loaded hd htarget hdir hf hfs hi hl hx h =>
    obtain ⟨filesystems, -, hm⟩ := callInLoaded_some h
    have hset := holders_modifyDentry hm
    exact ⟨hset.1, hset.2⟩

theorem holders_addPlaceholder (h : s.addPlaceholder c i name = some s') : SameHolders s s' := by
  obtain ⟨x, -, rfl⟩ := addPlaceholder_some h
  exact ⟨rfl, rfl⟩

theorem holders_linkedBy {g : Inode → Inode} {temp : Bool} (h : LinkedBy s p t temp g s') :
    SameHolders s s' := by
  obtain ⟨h₁, h₂, h₃, h₄⟩ := h
  obtain ⟨d, x, s₂, y, -, -, -, hm, -, rfl⟩ := setTarget_some h₁
  have hset := holders_modifyDentry hm
  have hrec := holders_recounts h₂
  have hcounted : SameHolders s _ := ⟨hrec.1.trans hset.1, hrec.2.trans hset.2⟩
  exact hcounted.trans ((holders_modifyInode h₃).trans (holders_look h₄))

theorem holders_fruitless (h : Fruitless s s') : SameHolders s s' := by
  cases h with
  | looked h => exact holders_look h
  | undone h₁ hshaped h₂ h₃ hd hino h₄ h₅ =>
    exact (((holders_look h₁).trans (holders_addPlaceholder h₂)).trans (holders_recounts h₃)).trans
      ((holders_eraseDentry h₄).trans (holders_recounts h₅))

theorem holders_createInode {mode : ℕ} {reg : Except Errno Registration}
    (h : s.vfsCreateInode c f mode reg = some (.ok t, s')) : SameHolders s s' := by
  obtain ⟨fs, filesystems, nextRootIno, ino, ft, opens, -, -, -, rfl, -⟩ := vfsCreateInode_ok h
  exact ⟨rfl, rfl⟩

theorem holders_created (h : Created s s') : SameHolders s s' := by
  obtain ⟨h₁, -, -, -, h₂, -, h₃, h₄, h₅⟩ := h
  have hnew := holders_createInode h₃
  refine ((holders_look h₁).trans (holders_addPlaceholder h₂)).trans
    (SameHolders.trans ?_ (holders_linkedBy h₅))
  obtain rfl | ⟨target, h₄⟩ := h₄
  · exact hnew
  · exact hnew.trans (holders_modifyInode h₄)

theorem holders_linkMade (h : LinkMade s t s') : SameHolders s s' := by
  obtain ⟨h₁, -, -, -, h₂, -, -, -, h₃ | h₃⟩ := h
  · exact ((holders_look h₁).trans (holders_addPlaceholder h₂)).trans (holders_linkedBy h₃)
  · exact ((holders_look h₁).trans (holders_addPlaceholder h₂)).trans (holders_linkedBy h₃)

theorem holders_cleared (h : s.Cleared p s') : SameHolders s s' := by
  obtain ⟨h₁, h₂, h₃⟩ := h
  exact (holders_modifyDentry h₁).trans ((holders_eraseDentry h₂).trans (holders_settle h₃))

theorem holders_linkDown (h : s.linkDown t = some s') : SameHolders s s' := by
  obtain ⟨x, drops, links, dups, ino, ft, -, rfl⟩ := linkDown_some h
  exact ⟨rfl, rfl⟩

theorem holders_unlinked (h : s.Unlinked p t s') : SameHolders s s' := by
  obtain ⟨h₁, h₂, h₃, h₄⟩ := h
  exact ((holders_modifyInode h₁).trans (holders_cleared h₂)).trans
    ((holders_linkDown h₃).trans (holders_settle h₄))

theorem holders_moved (h : s.Moved p q s') : SameHolders s s' := by
  cases h with
  | @mk d s₁ s₂ s₃ s' hd h₁ h₂ h₃ h₄ =>
    have hparent : SameHolders s₁ s₂ := by
      cases ht : d.target with
      | none =>
        rw [ht] at h₂
        obtain rfl := Option.some.inj h₂
        exact .refl
      | some t =>
        rw [ht] at h₂
        exact holders_modifyInode h₂
    exact ((holders_modifyDentry h₁).trans hparent).trans
      ((holders_cleared h₃).trans (holders_settle h₄))

theorem holders_moveDone (h : MoveDone s p s') : SameHolders s s' := by
  cases h with
  | new h₁ hdir htype hname hne h₂ hold hfs h₃ =>
    exact ((holders_look h₁).trans (holders_addPlaceholder h₂)).trans (holders_moved h₃)
  | replaced h₁ hq he htarget hx hfree hnew hold hfs h₂ h₃ h₄ h₅ =>
    exact ((holders_look h₁).trans (holders_modifyDentry h₂)).trans
      (((holders_linkDown h₃).trans (holders_settle h₄)).trans (holders_moved h₅))

/-! ## Consistent states -/

/-- The counters are right, up to references that were lost, and each entry has a number. -/
structure Consistent (s : Vfs) : Prop where
  counted : ∃ lost, s.Ledger (lost ++ s.heldRefs)
  named : s.Named ∅

theorem Consistent.of_holders {lost : List ℕ} (hl : s'.Ledger (lost ++ s.heldRefs))
    (hn : s'.Named ∅) (hh : SameHolders s s') : s'.Consistent :=
  ⟨⟨lost, by rwa [hh.heldRefs]⟩, hn⟩

theorem Ledger.counted (h : s.Ledger K) : Counted s K [] :=
  ⟨h, fun i x hx => h.positive i x hx⟩

/-- A reference is taken to the directory that a path starts from. -/
theorem getStart_spec {start : Option ℕ} {r : Option InodeRef × Vfs}
    (h : s.getStart start = some r) : Recounts K s l r.2 (startRefs r.1 ++ l) := by
  cases start with
  | none =>
    obtain rfl := Option.some.inj h
    exact Changes.refl
  | some fd =>
    obtain ⟨fp, -, h⟩ := Option.bind_eq_some_iff.1 h
    obtain ⟨⟨iref, s₁⟩, h₁, h⟩ := Option.bind_eq_some_iff.1 h
    obtain rfl := Option.some.inj h
    exact recounts_copyInodeRef h₁

/-! ### Numbers -/

/-- The inode that a call makes has a number. -/
theorem createInode_ino {mode : ℕ} {reg : Except Errno Registration} (hs : s.Disks)
    (h : s.vfsCreateInode c f mode reg = some (.ok t, s')) :
    ∃ x, s'.inodes.get t = some x ∧ x.ino ≠ 0 := by
  obtain ⟨fs, filesystems, nextRootIno, ino, ft, opens, -, rfl, -, rfl, hino⟩ :=
    vfsCreateInode_ok h
  refine ⟨_, Heap.get_new_self, ?_⟩
  obtain ⟨-, rfl, -⟩ | ⟨-, -, r, -, rfl⟩ := hino
  · exact hs.next
  · exact r.ino_ne_zero

theorem Named.created (h : s.Named ∅) (hs : Created s s') : s'.Named ∅ := by
  obtain ⟨h₁, -, -, -, h₂, -, h₃, h₄, h₅⟩ := hs
  have hnew := (h.look h₁).addPlaceholder h₂
  obtain ⟨x, hx, hino⟩ := createInode_ino hnew.toDisks h₃
  have hmade := hnew.createInode h₃
  obtain rfl | ⟨target, h₄⟩ := h₄
  · exact hmade.linked (Or.inl h₅) hx hino
  · obtain ⟨y, hy, rfl⟩ := modifyInode_some h₄
    obtain rfl := Option.some.inj (hx.symm.trans hy)
    exact (hmade.modifyInode h₄ fun _ => rfl).linked (Or.inl h₅) (get_setInode_self hx) hino

/-- The inode that is linked has a number. -/
theorem Named.linkMade (h : s.Named ∅) (hs : LinkMade s t s') (hx : s.inodes.get t = some x)
    (hino : x.ino ≠ 0) : s'.Named ∅ := by
  obtain ⟨h₁, -, -, -, h₂, -, hy, -, h₃⟩ := hs
  obtain ⟨z, hz, hsim⟩ := look_inode h₁ hx
  have hzino : z.ino ≠ 0 := by rwa [hsim.eq]
  refine ((h.look h₁).addPlaceholder h₂).linked h₃ hy ?_
  obtain ⟨w, hw, rfl⟩ := addPlaceholder_some h₂
  rcases get_setInode_cases hy with ⟨rfl, rfl⟩ | ⟨-, hy⟩
  · obtain rfl := Option.some.inj (hz.symm.trans hw)
    exact hzino
  · obtain rfl := Option.some.inj (hz.symm.trans hy)
    exact hzino

theorem Named.moveDone (h : s.Named ∅) (hs : MoveDone s p s') : s'.Named ∅ := by
  cases hs with
  | new h₁ hdir htype hname hne h₂ hold hfs h₃ =>
    exact ((h.look h₁).addPlaceholder h₂).moved h₃ (by simpa using hne.symm)
  | replaced h₁ hq he htarget hx hfree hnew hold hfs h₂ h₃ h₄ h₅ =>
    have hbare := (h.look h₁).modifyDentry h₂ (fun _ => rfl)
      (fun d hd hino => (h.look h₁).entries _ d hd hino) fun a ha _ => ha
    exact ((((hbare.linkDown h₃).settle h₄).mono (Set.subset_insert _ _)).moved h₅
      (by simpa using hq.symm))

/-! ## Files -/

/-- An element of a list is replaced. -/
theorem count_flatMap_set {α : Type} {g : α → List ℕ} {a b : α} {l : List α} {n i : ℕ}
    (hn : l[n]? = some a) :
    ((l.set n b).flatMap g).count i + (g a).count i = (l.flatMap g).count i + (g b).count i := by
  induction l generalizing n with
  | nil => cases hn
  | cons c l ih =>
    cases n with
    | zero =>
      obtain rfl := Option.some.inj hn
      simp only [List.set_cons_zero, List.flatMap_cons, List.count_append]
      omega
    | succ n =>
      have := ih hn
      simp only [List.set_cons_succ, List.flatMap_cons, List.count_append]
      omega

/-- A slot of the table of descriptions is written. -/
theorem heldRefs_set {fd : ℕ} {a : Option File} (ha : s.files[fd]? = some a) (b : Option File) :
    (heldRefs { s with files := s.files.set fd b }).count i + (fileRefs a).count i =
      s.heldRefs.count i + (fileRefs b).count i := by
  have := count_flatMap_set (g := fileRefs) (b := b) (i := i) ha
  simp only [heldRefs, List.count_append]
  omega

theorem settles_unrefInode {iref : InodeRef} (h : s.vfsUnrefInode iref = some s') :
    Settles s (iref.refs ++ l) s' l := changes_unrefInode settles_downref h

theorem Consistent.close {fd : ℕ} (h : s.Consistent) (hs : s.vfsClose fd = some s') :
    s'.Consistent := by
  obtain ⟨⟨lost, hl⟩, hn⟩ := h
  obtain ⟨fp, hfp, hs⟩ := Option.bind_eq_some_iff.1 hs
  obtain ⟨a, ha, rfl⟩ := Option.bind_eq_some_iff.1 hfp
  split_ifs at hs
  · obtain ⟨s₁, h₁, hs⟩ := Option.bind_eq_some_iff.1 hs
    obtain ⟨s₂, h₂, hs⟩ := Option.bind_eq_some_iff.1 hs
    obtain rfl := Option.some.inj hs
    have hsame := holders_modifyInode h₁
    have hn₁ := hn.modifyInode h₁ fun _ => rfl
    have hrest : ∀ j, (lost ++ s.heldRefs).count j =
        (fp.iref.refs ++ (lost ++ heldRefs { s with files := s.files.set fd none })).count j :=
      fun j => by
        have := heldRefs_set (i := j) ha none
        simp only [fileRefs, Option.map_some, Option.map_none, Option.getD_some, Option.getD_none,
          List.count_nil, List.count_append] at this ⊢
        omega
    obtain ⟨hl₂, hset⟩ := settles_unrefInode h₂
      ((hl.modifyInode h₁ (fun _ => rfl) fun _ => rfl).congr fun j => (hrest j).symm)
    have hsame₂ := hsame.trans (holders_settle hset)
    refine ⟨⟨lost, ?_⟩, ?_⟩
    · have hheld : heldRefs { s₂ with files := s₂.files.set fd none } =
          heldRefs { s with files := s.files.set fd none } := by
        rw [heldRefs, heldRefs, hsame₂.1, hsame₂.2]
      rw [hheld]
      exact ⟨{ hl₂ with }, hl₂.balanced⟩
    · have hn₂ := hn₁.settle hset
      exact ⟨hn₂.toDisks.congr rfl rfl, hn₂.entries⟩
  · obtain rfl := Option.some.inj hs
    refine ⟨⟨lost, ?_⟩, hn.toDisks.congr rfl rfl, hn.entries⟩
    have hl' : s.Ledger (lost ++ heldRefs
        { s with files := s.files.set fd (some { fp with refcount := fp.refcount - 1 }) }) :=
      hl.congr fun j => by
        have := heldRefs_set (i := j) ha (some { fp with refcount := fp.refcount - 1 })
        simp only [fileRefs, Option.map_some, Option.getD_some, List.count_append] at this ⊢
        omega
    exact ⟨{ hl' with }, hl'.balanced⟩

/-! ## Calls -/

/-- If a call gets as far as opening an inode, its driver does not refuse; and if one is to be linked,
it has not been dropped. -/
def Accepted (s : Vfs) (c : Caller) : Call → Prop
  | .openFile start path oflag mode reg refused => ∀ fuel startdir s₁ iref s₂ x,
    s.getStart start = some (startdir, s₁) →
    s₁.openPath c fuel startdir path oflag mode reg = some (.ok iref, s₂) →
    s₂.inodes.get iref.inode = some x → x.opens = true → refused = none
  | .createLink oldstart oldpath newstart _ flags => ∀ fuel old s₁ new s₂ iref temp s₃ x,
    s.getStart oldstart = some (old, s₁) → s₁.getStart newstart = some (new, s₂) →
    s₂.linkTarget c fuel old oldpath flags = some (.ok (iref, temp), s₃) →
    s₃.inodes.get iref.inode = some x → x.ino ≠ 0
  | _ => True

/-- What a call leaves behind. -/
def Done (s : Vfs) (r : Option Errno × Vfs) : Prop :=
  r.2.Consistent ∧ (r.1 ≠ none → Fruitless s r.2)

section Calls

variable {lost : List ℕ} {r : Option Errno × Vfs}

theorem Done.of_fruitless (hl : r.2.Ledger (l ++ s.heldRefs)) (hn : s.Named ∅)
    (hf : Fruitless s r.2) : s.Done r :=
  ⟨.of_holders hl (hn.fruitless hf) (holders_fruitless hf), fun _ => hf⟩

theorem Done.of_none (hl : r.2.Ledger (l ++ s.heldRefs)) (hn : r.2.Named ∅)
    (hh : SameHolders s r.2) (hr : r.1 = none) : s.Done r :=
  ⟨.of_holders hl hn hh, fun h => absurd hr h⟩

/-- What is done after some paths are resolved. -/
theorem Done.of_look (h : Look s s₁) (hd : s₁.Done r) : s.Done r :=
  ⟨hd.1, fun he => .of_look h (hd.2 he)⟩

variable (hk : K = lost ++ s.heldRefs) (hn : s.Named ∅)

include hk hn

theorem done_makeEntry {start : Option InodeRef} {path : List Char} {novalid : Bool} {mode : ℕ}
    {reg : Except Errno Registration} {target : Option (List Char)}
    (hc : Counted s K (startRefs start ++ []))
    (h : s.makeEntry c fuel start path novalid mode reg target = some r) : s.Done r := by
  obtain ⟨hc', ⟨-, hf⟩ | ⟨hr, hmade⟩⟩ := makeEntry_spec hc hn h
  · exact .of_fruitless (hk ▸ hc'.ledger) hn hf
  · exact .of_none (hk ▸ hc'.ledger) (hn.created hmade) (holders_created hmade) hr

theorem done_unlinkPath {start : Option InodeRef} {path : List Char} {flags : ℕ}
    (hc : Counted s K (startRefs start ++ []))
    (h : s.unlinkPath c fuel start path flags = some r) : s.Done r := by
  obtain ⟨⟨t, s₁⟩, h₁, h⟩ := Option.bind_eq_some_iff.1 h
  obtain ⟨hc₁, hlook⟩ := (resolved_getDentry (K := K) (l := []) h₁).looks hc
  cases t with
  | error e =>
    obtain rfl := Option.some.inj h
    exact .of_fruitless (hk ▸ hc₁.ledger) hn (.looked hlook)
  | ok dref =>
    obtain ⟨-, hc₂, hlook₂⟩ | ⟨s₂, d, t, x, dir, hlook₂, -, -, -, -, -, -, -, hr, -, hl, hu⟩ :=
      vfsUnlinkInode_spec hc₁ h
    · exact .of_fruitless (hk ▸ hc₂.ledger) hn (.looked (hlook.trans hlook₂))
    · exact .of_none (hk ▸ hl) (((hn.look hlook).look hlook₂).unlinked hu)
        ((holders_look (hlook.trans hlook₂)).trans (holders_unlinked hu)) hr

theorem done_move {old new : Option InodeRef} {oldpath newpath : List Char} {flags : ℕ}
    (hc : Counted s K (startRefs old ++ (startRefs new ++ [])))
    (h : s.vfsMove c fuel old oldpath new newpath flags = some r) : s.Done r := by
  obtain ⟨hc', hf⟩ | ⟨hr, ⟨lost', hl⟩, s₁, dref, d, -, hlook, -, -, hmove⟩ := vfsMove_spec hc hn h
  · exact .of_fruitless (hk ▸ hc'.ledger) hn hf
  · refine .of_none (l := lost' ++ lost) ?_ ((hn.look hlook).moveDone hmove)
      ((holders_look hlook).trans (holders_moveDone hmove)) hr
    rw [List.append_assoc, ← hk]
    exact hl

theorem done_createLink {old new : Option InodeRef} {oldpath newpath : List Char} {flags : ℕ}
    (hc : Counted s K (startRefs old ++ (startRefs new ++ [])))
    (hino : ∀ iref temp s₁ x, s.linkTarget c fuel old oldpath flags = some (.ok (iref, temp), s₁) →
      s₁.inodes.get iref.inode = some x → x.ino ≠ 0)
    (h : s.vfsCreateLink c fuel old oldpath new newpath flags = some r) : s.Done r := by
  obtain ⟨lost', hc', ⟨-, hf⟩ | ⟨hr, iref, temp, s₁, x, htarget, hx, -, hlook, hmade⟩⟩ :=
    vfsCreateLink_spec hc hn h
  · refine .of_fruitless (l := lost' ++ lost) ?_ hn hf
    rw [List.append_assoc, ← hk]
    exact hc'.ledger
  · refine .of_none (l := lost' ++ lost) ?_
      ((hn.look hlook).linkMade hmade hx (hino iref temp s₁ x htarget hx))
      ((holders_look hlook).trans (holders_linkMade hmade)) hr
    rw [List.append_assoc, ← hk]
    exact hc'.ledger

theorem done_openFile {start : Option InodeRef} {path : List Char} {oflag mode : ℕ}
    {reg : Except Errno Registration} {refused : Option Errno} {o : Except Errno ℕ × Vfs}
    (hc : Counted s K (startRefs start ++ []))
    (hopen : ∀ iref s₁ x, s.openPath c fuel start path oflag mode reg = some (.ok iref, s₁) →
      s₁.inodes.get iref.inode = some x → x.opens = true → refused = none)
    (h : s.vfsOpen c fuel start path oflag mode reg refused = some o) : s.Done (openError o) := by
  obtain ⟨⟨t, s₁⟩, h₁, h⟩ := Option.bind_eq_some_iff.1 h
  obtain ⟨hc₁, ⟨⟨e, ht⟩, hf⟩ | ⟨⟨iref, ht⟩, hmade⟩⟩ := openPath_spec hc hn h₁
  · obtain rfl : t = _ := ht
    obtain rfl := Option.some.inj h
    exact .of_fruitless (hk ▸ hc₁.ledger) hn hf
  · obtain rfl : t = _ := ht
    obtain ⟨e, x, -, hx, hopens, hrefused⟩ | ⟨⟨fd, hfd⟩, hc₂, hopened⟩ := vfsOpenInode_spec hc₁ h
    · rw [hopen iref s₁ x h₁ hx hopens] at hrefused
      cases hrefused
    · obtain ⟨o, s₂⟩ := o
      obtain rfl : o = _ := hfd
      have hn₁ : s₁.Named ∅ := hmade.elim hn.look hn.created
      have hh₁ : SameHolders s s₁ := hmade.elim holders_look holders_created
      cases hopened with
      | @mk s₂ s₃ ft mtime h₂ h₃ =>
        have hn₃ := (hn₁.modifyInode h₂ fun _ => rfl).modifyInode h₃ fun _ => rfl
        have hh := hh₁.trans ((holders_modifyInode h₂).trans (holders_modifyInode h₃))
        refine ⟨⟨⟨lost, hc₂.ledger.congr fun i => ?_⟩, hn₃.toDisks.congr rfl rfl, hn₃.entries⟩,
          fun h => absurd rfl h⟩
        simp only [hk, openError, heldRefs, hh.1, hh.2, fileRefs, List.flatMap_append,
          List.flatMap_singleton, Option.map_some, Option.getD_some, List.count_append,
          List.nil_append]
        omega

end Calls

/-- A call takes references to the directories that its paths start from. -/
theorem Consistent.start {start : Option ℕ} {r : Option InodeRef × Vfs} (h : s.Consistent)
    (hs : s.getStart start = some r) : ∃ lost, Counted r.2 (lost ++ s.heldRefs) (startRefs r.1) ∧
      Look s r.2 := by
  obtain ⟨⟨lost, hl⟩, -⟩ := h
  obtain ⟨hc, hlook⟩ := (getStart_spec (l := []) hs).looks hl.counted
  exact ⟨lost, by rwa [List.append_nil] at hc, hlook⟩

theorem Consistent.starts {oldstart newstart : Option ℕ} {old new : Option InodeRef}
    (h : s.Consistent) (h₁ : s.getStart oldstart = some (old, s₁))
    (h₂ : s₁.getStart newstart = some (new, s')) : ∃ lost,
      Counted s' (lost ++ s.heldRefs) (startRefs old ++ startRefs new) ∧ Look s s' := by
  obtain ⟨lost, hc, hlook⟩ := h.start h₁
  obtain ⟨hc', hlook'⟩ := (getStart_spec (l := startRefs old) h₂).looks hc
  exact ⟨lost, hc'.congr fun i => by
    simp only [List.count_append]
    omega, hlook.trans hlook'⟩

/-- A call keeps the state consistent, and does nothing that matters if it fails. -/
theorem Consistent.call {a : Call} {r : Option Errno × Vfs} (h : s.Consistent)
    (hacc : s.Accepted c a) (hs : s.call fuel c a = some r) : s.Done r := by
  have hone : ∀ {start : Option ℕ} {q : Option InodeRef × Vfs}, s.getStart start = some q →
      ∃ lost, Counted q.2 (lost ++ s.heldRefs) (startRefs q.1 ++ []) ∧ Look s q.2 ∧ q.2.Named ∅ ∧
        lost ++ s.heldRefs = lost ++ q.2.heldRefs := fun hq => by
    obtain ⟨lost, hc, hlook⟩ := h.start hq
    exact ⟨lost, by rwa [List.append_nil], hlook, h.named.look hlook,
      by rw [(holders_look hlook).heldRefs]⟩
  have htwo : ∀ {old new : Option ℕ} {q q' : Option InodeRef × Vfs}, s.getStart old = some q →
      q.2.getStart new = some q' → ∃ lost,
        Counted q'.2 (lost ++ s.heldRefs) (startRefs q.1 ++ (startRefs q'.1 ++ [])) ∧ Look s q'.2 ∧
          q'.2.Named ∅ ∧ lost ++ s.heldRefs = lost ++ q'.2.heldRefs := fun hq hq' => by
    obtain ⟨lost, hc, hlook⟩ := h.starts hq hq'
    exact ⟨lost, by rwa [List.append_nil], hlook, h.named.look hlook,
      by rw [(holders_look hlook).heldRefs]⟩
  cases a with
  | makeDir start path mode flags reg =>
    obtain ⟨⟨startdir, s₁⟩, h₁, hs⟩ := Option.bind_eq_some_iff.1 hs
    obtain ⟨lost, hc, hlook, hn, hk⟩ := hone h₁
    exact .of_look hlook (done_makeEntry hk hn hc hs)
  | openFile start path oflag mode reg refused =>
    obtain ⟨⟨startdir, s₁⟩, h₁, hs⟩ := Option.bind_eq_some_iff.1 hs
    obtain ⟨lost, hc, hlook, hn, hk⟩ := hone h₁
    obtain ⟨o, ho, rfl⟩ := Option.map_eq_some_iff.1 hs
    exact .of_look hlook (done_openFile hk hn hc
      (fun iref s₂ x => hacc fuel startdir s₁ iref s₂ x h₁) ho)
  | createLink oldstart oldpath newstart newpath flags =>
    obtain ⟨⟨old, s₁⟩, h₁, hs⟩ := Option.bind_eq_some_iff.1 hs
    obtain ⟨⟨new, s₂⟩, h₂, hs⟩ := Option.bind_eq_some_iff.1 hs
    obtain ⟨lost, hc, hlook, hn, hk⟩ := htwo h₁ h₂
    exact .of_look hlook (done_createLink hk hn hc
      (fun iref temp s₃ x => hacc fuel old s₁ new s₂ iref temp s₃ x h₁ h₂) hs)
  | createSymlink oldpath newstart newpath flags reg =>
    obtain ⟨⟨new, s₁⟩, h₁, hs⟩ := Option.bind_eq_some_iff.1 hs
    obtain ⟨lost, hc, hlook, hn, hk⟩ := hone h₁
    exact .of_look hlook (done_makeEntry hk hn hc hs)
  | unlink start path flags =>
    obtain ⟨⟨startdir, s₁⟩, h₁, hs⟩ := Option.bind_eq_some_iff.1 hs
    obtain ⟨lost, hc, hlook, hn, hk⟩ := hone h₁
    exact .of_look hlook (done_unlinkPath hk hn hc hs)
  | move oldstart oldpath newstart newpath flags =>
    obtain ⟨⟨old, s₁⟩, h₁, hs⟩ := Option.bind_eq_some_iff.1 hs
    obtain ⟨⟨new, s₂⟩, h₂, hs⟩ := Option.bind_eq_some_iff.1 hs
    obtain ⟨lost, hc, hlook, hn, hk⟩ := htwo h₁ h₂
    exact .of_look hlook (done_move hk hn hc hs)
  | close fd =>
    obtain ⟨s₁, h₁, rfl⟩ := Option.map_eq_some_iff.1 hs
    exact ⟨h.close h₁, fun he => absurd rfl he⟩

end Vfs

/-- The processes of a system make calls; it may have mounted filesystems before. -/
def vfsSystem : System Vfs (Caller × Call) where
  init := Vfs.Consistent
  step s a s' := ∃ fuel e, s.call fuel a.1 a.2 = some (e, s')

/-- A call, from a state that is reached by calls that are accepted. -/
theorem done_of_reachable {s : Vfs} {fuel : ℕ} {c : Caller} {a : Call} {r : Option Errno × Vfs}
    (hs : vfsSystem.ReachesBy (fun s a => s.Accepted a.1 a.2) s) (hacc : s.Accepted c a)
    (h : s.call fuel c a = some r) : s.Consistent ∧ s.Done r := by
  have hcons : s.Consistent := hs.invariant (fun s hs => hs) fun s a t ih hacc ht => by
    obtain ⟨fuel, e, ht⟩ := ht
    exact (ih.call hacc ht).1
  exact ⟨hcons, hcons.call hacc h⟩

theorem vfsInit_get {i : ℕ} {x : Inode} (hx : Vfs.vfsInit.inodes.get i = some x) :
    x.dents = [] ∧ x.refcount = 3 := by
  by_cases hi : i = kernelRootInode
  · subst hi
    obtain rfl := Option.some.inj hx
    exact ⟨rfl, rfl⟩
  · rw [show Vfs.vfsInit.inodes.get i = none from Function.update_of_ne hi _ _] at hx
    cases hx

/-- The counter of `kernelRootInode` is right after `vfsInit`. -/
theorem vfsInit_ledger : Vfs.vfsInit.Ledger [] := by
  have hempty : RefCounted Inode.refcount Inode.refs Heap.empty [] := fun i => by
    simp [counter, allStored, stored]
  refine ⟨⟨fun i x hx => ?_, fun i x hx => ?_, fun i x d hx hd => ?_, Nat.one_pos⟩,
    hempty.new fun i => ?_⟩
  · rw [(vfsInit_get hx).2]
    decide
  · rw [(vfsInit_get hx).1]
    exact List.nodup_nil
  · rw [(vfsInit_get hx).1] at hd
    cases hd
  · by_cases hi : i = 1
    · subst hi
      decide
    · have hroot : ([] ++ Vfs.vfsInit.rootRefs).count i = 0 :=
        List.count_eq_zero_of_not_mem fun hm => by
          rw [show [] ++ Vfs.vfsInit.rootRefs = [1, 1, 1] from rfl] at hm
          exact hi (by simpa using hm)
      rw [hroot]
      simp [Inode.refs, Inode.zero, Heap.empty, hi]

/-- The state after `vfsInit` is consistent. -/
theorem vfsInit_consistent : Vfs.vfsInit.Consistent := by
  refine ⟨⟨[], vfsInit_ledger⟩, ⟨fun f fs hfs loadInode n x hl => ?_, by decide⟩,
    fun p d hd hino => ?_⟩
  · by_cases hf : f = kernelRootFS
    · subst hf
      obtain rfl := Option.some.inj hfs
      cases hl
    · rw [show Vfs.vfsInit.filesystems.get f = none from Function.update_of_ne hf _ _] at hfs
      cases hfs
  · by_cases hp : p = kernelRootEntry
    · rw [Vfs.dentry, if_pos hp] at hd
      obtain rfl := Option.some.inj hd
      cases hino
    · obtain ⟨x, hx, hmem, -⟩ := Vfs.dentry_mem hp hd
      rw [(vfsInit_get hx).1] at hmem
      cases hmem

end Glidix.Fs
