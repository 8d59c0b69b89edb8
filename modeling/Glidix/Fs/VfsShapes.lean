import Glidix.Fs.VfsCalls
import Glidix.Fs.VfsLook

/-!
# What the calls do

A call resolves paths, makes some changes, and releases what it still holds.  Each of the changes
keeps the counters right.  `Fruitless` says what a call does that leaves everything as it was, and
`Linked`, `Unlinked` and `Moved` what is done to entries and inodes by one that succeeds.
-/

namespace Glidix.Fs

open Errno

/-- An entry without its target. -/
def Dentry.bare (d : Dentry) : Dentry := { d with target := none }

/-- An inode in two states, between which paths were resolved. -/
structure Inode.Similar (x x' : Inode) : Prop where
  eq : x' = { x with refcount := x'.refcount, dups := x'.dups, dents := x'.dents }
  dents : x'.dents.map Dentry.bare = x.dents.map Dentry.bare

namespace Inode.Similar

variable {x y z : Inode}

theorem refl : x.Similar x := ⟨rfl, rfl⟩

theorem trans (h : x.Similar y) (h' : y.Similar z) : x.Similar z :=
  ⟨by rw [h'.eq, h.eq], h'.dents.trans h.dents⟩

/-- An entry is given a target. -/
theorem modifyDentry {addr : ℕ} {t : Option ℕ} :
    x.Similar (x.modifyDentry addr fun d => { d with target := t }) := by
  refine ⟨rfl, ?_⟩
  rw [Inode.modifyDentry, List.map_map]
  refine List.map_congr_left fun d _ => ?_
  rw [Function.comp_apply]
  split_ifs <;> rfl

/-- What the entries are, apart from their targets. -/
theorem map_dents {β : Type} (h : x.Similar y) {g : Dentry → β} (hg : ∀ d, g d.bare = g d) :
    y.dents.map g = x.dents.map g := by
  have hmap : ∀ l : List Dentry, l.map g = (l.map Dentry.bare).map g := fun l => by
    rw [List.map_map]
    exact List.map_congr_left fun d _ => (hg d).symm
  rw [hmap, h.dents, ← hmap]

end Inode.Similar

namespace Vfs

variable {s s' : Vfs} {K l l' : List ℕ} {i j f t : ℕ} {x y : Inode} {p : ℕ × ℕ} {d : Dentry}
  {c : Caller} {name : Name}

/-! ## Releasing what is held -/

/-- A reference is released, perhaps the last one to an inode. -/
inductive SettleStep (s : Vfs) : Vfs → Prop
  | count {s' : Vfs} (h : Recount s s') : SettleStep s s'
  | release {i : ℕ} {x : Inode} {s' : Vfs} (hx : s.inodes.get i = some x) (hone : x.refcount = 1)
    (hdents : x.dents = []) (hroot : i ∉ s.rootRefs)
    (hfree : ∀ j y, s.inodes.get j = some y → i ∉ y.refs j) (h : s.vfsDownrefInode i = some s') :
    SettleStep s s'

/-- Some references are released. -/
abbrev Settle : Vfs → Vfs → Prop := Relation.ReflTransGen SettleStep

abbrev Settles := Changes Ledger SettleStep

theorem settles_downref (h : s.vfsDownrefInode i = some s') : Settles s (i :: l) s' l := by
  intro hledger
  refine ⟨hledger.downref h, Relation.ReflTransGen.single ?_⟩
  obtain ⟨x, hx, ⟨hone, -⟩ | ⟨hne, rfl⟩⟩ := vfsDownrefInode_cases h
  · obtain ⟨hdents, hmem, hfree⟩ := hledger.dents_eq_nil hx hone
    exact .release hx hone hdents (fun hm => hmem (List.mem_append_right _ hm)) hfree h
  · have := hledger.positive i x hx
    exact .count (.mk hx (by omega))

theorem settles_unrefTop {top : List MountPoint} (h : s.vfsUnrefTop top = some s') :
    Settles s (topRefs top ++ l) s' l := changes_unrefTop settles_downref h

theorem settles_unrefDentry {dref : DentryRef} (h : s.vfsUnrefDentry dref = some s') :
    Settles s (dref.refs ++ l) s' l := changes_unrefDentry settles_downref h

/-! ## Changes to inodes -/

/-- Neither the counter nor the entries of an inode change. -/
theorem Ledger.modifyInode {g : Inode → Inode} (h : s.Ledger l)
    (hs : s.modifyInode i g = some s') (hcount : ∀ x, (g x).refcount = x.refcount)
    (hdents : ∀ x, (g x).dents = x.dents) : s'.Ledger l := by
  obtain ⟨x, hx, rfl⟩ := modifyInode_some hs
  refine h.setInode_of_dents hx (hcount x ▸ h.positive i x hx) (hdents x) fun j => ?_
  rw [hcount, sub_self]
  split_ifs <;> rw [add_zero]

theorem Shaped.modifyInode {g : Inode → Inode} (h : s.Shaped) (hs : s.modifyInode i g = some s')
    (hcount : ∀ x, (g x).refcount = x.refcount) (hdents : ∀ x, (g x).dents = x.dents) :
    s'.Shaped ∧ ∀ j, counter Inode.refcount s'.inodes j = counter Inode.refcount s.inodes j ∧
      s'.storedRefs j = s.storedRefs j := by
  obtain ⟨x, hx, rfl⟩ := modifyInode_some hs
  refine ⟨⟨fun j y hy => ?_, fun j y hy => ?_, fun j y d hy hd => ?_, h.next_pos⟩,
    fun j => ⟨?_, ?_⟩⟩
  · rcases get_setInode_cases hy with ⟨-, rfl⟩ | ⟨-, hy⟩
    · exact hcount x ▸ h.positive i x hx
    · exact h.positive j y hy
  · rcases get_setInode_cases hy with ⟨-, rfl⟩ | ⟨-, hy⟩
    · exact hdents x ▸ h.nodup i x hx
    · exact h.nodup j y hy
  · rcases get_setInode_cases hy with ⟨-, rfl⟩ | ⟨-, hy⟩
    · exact h.fresh i x d hx (hdents x ▸ hd)
    · exact h.fresh j y d hy hd
  · rw [Vfs.setInode, counter_put hx, hcount]
    simp
  · have hrefs : (g x).refs i = x.refs i := by rw [Inode.refs, hdents, ← Inode.refs]
    rw [storedRefs, storedRefs, Vfs.setInode, allStored_put hx, hrefs,
      show rootRefs { s with inodes := s.inodes.put i (g x) } = s.rootRefs from rfl]
    ring

theorem Counted.modifyInode {g : Inode → Inode} (h : Counted s K l)
    (hs : s.modifyInode i g = some s') (hcount : ∀ x, (g x).refcount = x.refcount)
    (hdents : ∀ x, (g x).dents = x.dents) : Counted s' K l where
  ledger := h.ledger.modifyInode hs hcount hdents
  spare j y hy := by
    obtain ⟨x, hx, rfl⟩ := modifyInode_some hs
    rcases get_setInode_cases hy with ⟨rfl, rfl⟩ | ⟨-, hy⟩
    · rw [hcount]
      exact h.spare j x hx
    · exact h.spare j y hy

theorem dentry_modifyInode {g : Inode → Inode} (hs : s.modifyInode i g = some s')
    (hdents : ∀ x, (g x).dents = x.dents) : s'.dentry p = s.dentry p := by
  obtain ⟨x, hx, rfl⟩ := modifyInode_some hs
  exact dentry_setInode hx (hdents x)

theorem dentry_recounts (h : Relation.ReflTransGen Recount s s') : s'.dentry p = s.dentry p := by
  induction h with
  | refl => rfl
  | tail _ h ih =>
    cases h with
    | mk hx hn => rw [dentry_setInode hx (by rfl), ih]

/-! ## Changes to entries -/

/-- An entry after it is written. -/
theorem dentry_modifyDentry {g : Dentry → Dentry} (hg : ∀ d, (g d).addr = d.addr)
    (hd : s.dentry p = some d) (h : s.modifyDentry p g = some s') :
    s'.dentry p = some (g d) := by
  obtain ⟨hp, d', hd', rfl⟩ | ⟨hp, x, d', hx, hd', rfl⟩ := modifyDentry_some h
  · rw [dentry, if_pos hp] at hd ⊢
    obtain rfl := Option.some.inj (hd'.symm.trans hd)
    rfl
  · rw [dentry, if_neg hp, hx] at hd
    obtain rfl := Option.some.inj (hd'.symm.trans hd)
    rw [dentry, if_neg hp, get_setInode_self hx, Option.bind_some, Inode.dentry,
      Inode.modifyDentry, List.find?_map]
    have hcomp : ((fun e : Dentry => decide (e.addr = p.2)) ∘
        fun e : Dentry => if e.addr = p.2 then g e else e) = fun e => decide (e.addr = p.2) := by
      funext e
      rw [Function.comp_apply]
      split_ifs with he
      · rw [hg]
      · rfl
    rw [hcomp, show x.dents.find? (fun e => decide (e.addr = p.2)) = some d' from hd',
      Option.map_some, if_pos (by simpa using List.find?_some hd')]

/-- Other entries stay as they are. -/
theorem dentry_modifyDentry_ne {g : Dentry → Dentry} {q : ℕ × ℕ} (hg : ∀ d, (g d).addr = d.addr)
    (hq : q ≠ p) (h : s.modifyDentry p g = some s') : s'.dentry q = s.dentry q := by
  obtain ⟨hp, d', hd', rfl⟩ | ⟨hp, x, d', hx, hd', rfl⟩ := modifyDentry_some h
  · rw [dentry, dentry, if_neg (hp ▸ hq), if_neg (hp ▸ hq)]
  · rw [dentry, dentry]
    split_ifs with hroot
    · rfl
    · by_cases hi : q.1 = p.1
      · have hne : q.2 ≠ p.2 := fun he => hq (Prod.ext hi he)
        rw [hi, get_setInode_self hx, hx, Option.bind_some, Option.bind_some, Inode.dentry,
          Inode.dentry, Inode.modifyDentry, List.find?_map]
        have hcomp : ((fun e : Dentry => decide (e.addr = q.2)) ∘
            fun e : Dentry => if e.addr = p.2 then g e else e) =
              fun e => decide (e.addr = q.2) := by
          funext e
          rw [Function.comp_apply]
          split_ifs with he
          · rw [hg]
          · rfl
        rw [hcomp]
        cases hfind : x.dents.find? fun e => decide (e.addr = q.2) with
        | none => rfl
        | some e =>
          have he : e.addr = q.2 := by simpa using List.find?_some hfind
          rw [Option.map_some, if_neg (he ▸ hne)]
      · rw [get_setInode_ne hi]

/-- While paths are resolved, an entry may be given a target, and stays as it is otherwise. -/
theorem look_dentry (h : Look s s') (hd : s.dentry p = some d) :
    ∃ target, s'.dentry p = some { d with target } ∧ ∀ t, d.target = some t → target = some t := by
  induction h with
  | refl => exact ⟨d.target, hd, fun t ht => ht⟩
  | @tail s₁ s₂ _ h ih =>
    obtain ⟨target, hd₁, hkeep⟩ := ih
    have hcall : ∀ {s₀ : Vfs} {q : ℕ × ℕ} {e : Dentry} {i : ℕ}, s₁.dentry q = some e →
        e.target = none → s₀.dentry p = some { d with target } →
        s₀.modifyDentry q (fun d => { d with target := some i }) = some s₂ →
        ∃ target, s₂.dentry p = some { d with target } ∧
          ∀ t, d.target = some t → target = some t := by
      intro s₀ q e i he htarget hd₀ hm
      by_cases hq : p = q
      · subst hq
        obtain rfl := Option.some.inj (hd₁.symm.trans he)
        refine ⟨some i, dentry_modifyDentry (fun _ => by rfl) hd₀ hm, fun t ht => ?_⟩
        exact absurd ((hkeep t ht).symm.trans htarget) (Option.some_ne_none t)
      · exact ⟨target, (dentry_modifyDentry_ne (fun _ => by rfl) hq hm).trans hd₀, hkeep⟩
    cases h with
    | count h =>
      cases h with
      | mk hx hn => exact ⟨target, (dentry_setInode hx (by rfl)).trans hd₁, hkeep⟩
    | found he htarget hdir hf hfs hi h =>
      obtain ⟨x, hx, hm⟩ := callInFound_some h
      exact hcall he htarget ((dentry_setInode hx (by rfl)).trans hd₁) hm
    | loaded he htarget hdir hf hfs hi hl hx h =>
      obtain ⟨filesystems, -, hm⟩ := callInLoaded_some h
      refine hcall he htarget ?_ hm
      rw [← hd₁, dentry, dentry]
      split_ifs with hp
      · rfl
      · obtain ⟨x, hx, -⟩ := dentry_mem hp hd₁
        rw [hx, Heap.get_new_of_get hx]

/-- One step of a resolution changes counters, and targets of entries. -/
theorem lookStep_inode (h : LookStep s s') (hx : s.inodes.get i = some x) :
    ∃ x', s'.inodes.get i = some x' ∧ x.Similar x' := by
  have hentry : ∀ {s₀ : Vfs} {q : ℕ × ℕ} {t : Option ℕ} {y : Inode},
      s₀.inodes.get i = some y → x.Similar y →
      s₀.modifyDentry q (fun d => { d with target := t }) = some s' →
      ∃ x', s'.inodes.get i = some x' ∧ x.Similar x' := by
    intro s₀ q t y hy hsim hm
    rw [get_modifyDentry hm, hy]
    refine ⟨_, rfl, ?_⟩
    split_ifs
    · exact hsim.trans .modifyDentry
    · exact hsim
  cases h with
  | count h =>
    cases h with
    | @mk j z n hz hn =>
      by_cases hj : i = j
      · subst hj
        obtain rfl := Option.some.inj (hx.symm.trans hz)
        exact ⟨_, get_setInode_self hx, rfl, rfl⟩
      · exact ⟨x, by rw [get_setInode_ne hj, hx], .refl⟩
  | @found p d dir f j fs s' hd htarget hdir hf hfs hj h =>
    obtain ⟨z, hz, hm⟩ := callInFound_some h
    by_cases hij : i = j
    · subst hij
      obtain rfl := Option.some.inj (hx.symm.trans hz)
      exact hentry (get_setInode_self hx) ⟨by rfl, by rfl⟩ hm
    · exact hentry (by rw [get_setInode_ne hij, hx]) .refl hm
  | loaded hd htarget hdir hf hfs hi hl hdisk h =>
    obtain ⟨filesystems, -, hm⟩ := callInLoaded_some h
    exact hentry (Heap.get_new_of_get hx) .refl hm

/-- While paths are resolved, an inode in memory stays there, and only counters of it and targets of
its entries change. -/
theorem look_inode (h : Look s s') (hx : s.inodes.get i = some x) :
    ∃ x', s'.inodes.get i = some x' ∧ x.Similar x' := by
  induction h with
  | refl => exact ⟨x, hx, .refl⟩
  | tail _ h ih =>
    obtain ⟨y, hy, hsim⟩ := ih
    obtain ⟨z, hz, hsim'⟩ := lookStep_inode h hy
    exact ⟨z, hz, hsim.trans hsim'⟩

/-! ## New entries -/

/-- The entry that `addPlaceholder` makes. -/
def placeholder (s : Vfs) (x : Inode) (name : Name) : Dentry where
  addr := s.nextEntry
  name := name
  ino := 0
  key := x.nextKey
  target := none
  temp := true
  mntpoint := false

@[simp] theorem placeholder_ino : (s.placeholder x name).ino = 0 := rfl

theorem addPlaceholder_some (h : s.addPlaceholder c i name = some s') :
    ∃ x, s.inodes.get i = some x ∧ s' = setInode { s with nextEntry := s.nextEntry + 1 } i
      { x with
        nextKey := x.nextKey + 1
        dents := x.dents ++ [s.placeholder x name]
        refcount := x.refcount + 1
        mtime := c.now } := by
  obtain ⟨x, hx, rfl⟩ := modifyInode_some h
  exact ⟨x, hx, rfl⟩

theorem Counted.addPlaceholder (h : Counted s K l) (hs : s.addPlaceholder c i name = some s') :
    Counted s' K l := by
  obtain ⟨x, hx, rfl⟩ := addPlaceholder_some hs
  have hledger := h.ledger
  have hnext : Ledger { s with nextEntry := s.nextEntry + 1 } (l ++ K) :=
    { hledger with
      fresh := fun j y d hy hd =>
        ⟨(hledger.fresh j y d hy hd).1, Nat.lt_succ_of_lt (hledger.fresh j y d hy hd).2⟩
      next_pos := Nat.succ_pos _ }
  refine ⟨hnext.setInode hx ?_ ?_ (fun d hd => ?_) fun j => ?_, fun j y hy => ?_⟩
  · have := hledger.positive i x hx
    simp only
    omega
  · rw [List.map_append]
    refine List.Nodup.append (hledger.nodup i x hx) (List.nodup_singleton _) ?_
    intro a ha ha'
    obtain ⟨d, hd, rfl⟩ := List.mem_map.1 ha
    have := (hledger.fresh i x d hx hd).2
    rw [List.map_singleton, List.mem_singleton] at ha'
    exact absurd this (ha' ▸ Nat.lt_irrefl _)
  · rcases List.mem_append.1 hd with hd | hd
    · exact hnext.fresh i x d hx hd
    · rw [List.mem_singleton.1 hd]
      exact ⟨hledger.next_pos, Nat.lt_succ_self _⟩
  · simp only [Inode.refs, List.flatMap_append, List.flatMap_singleton, List.count_append,
      Dentry.refs, placeholder, Option.toList_none, List.count_cons, List.count_nil]
    by_cases hj : i = j
    · simp [hj]
      ring
    · simp [hj, Ne.symm hj]
  · rcases get_setInode_cases hy with ⟨rfl, rfl⟩ | ⟨-, hy⟩
    · have := h.spare j x hx
      simp only
      omega
    · exact h.spare j y hy

/-- The new entry is found at its address. -/
theorem dentry_addPlaceholder (h : s.Ledger l) (hs : s.addPlaceholder c i name = some s')
    (hx : s.inodes.get i = some x) :
    s'.dentry (i, s.nextEntry) = some (s.placeholder x name) := by
  obtain ⟨x', hx', rfl⟩ := addPlaceholder_some hs
  obtain rfl := Option.some.inj (hx.symm.trans hx')
  have hne : (i, s.nextEntry) ≠ kernelRootEntry := fun he =>
    absurd (congrArg Prod.snd he) h.next_pos.ne'
  have hold : (x.dents.find? fun d => d.addr = s.nextEntry) = none :=
    List.find?_eq_none.2 fun d hd => by simpa using (h.fresh i x d hx hd).2.ne
  rw [dentry, if_neg hne]
  simp only [get_setInode_self (s := { s with nextEntry := s.nextEntry + 1 }) hx, Option.bind_some,
    Inode.dentry, List.find?_append, hold]
  simp [placeholder]

/-- An entry is taken off its list, and what it refers to is held by the caller. -/
theorem Ledger.eraseDentry (h : s.Ledger l) (hd : s.dentry p = some d)
    (hs : s.eraseDentry p = some s') : s'.Ledger (d.refs p.1 ++ l) := by
  rw [Vfs.eraseDentry] at hs
  split_ifs at hs with hp
  · obtain rfl := Option.some.inj hs
    rw [dentry, if_pos hp] at hd
    refine { h with balanced := h.balanced.congr fun j => ?_ }
    simp only [rootRefs, hd, Option.map_none, Option.map_some, Option.getD_none, Option.getD_some,
      List.count_append, List.count_cons, List.count_nil, hp, kernelRootEntry]
    omega
  · obtain ⟨x, hx, rfl⟩ := modifyInode_some hs
    rw [dentry, if_neg hp, hx] at hd
    have hmem : d ∈ x.dents := List.mem_of_find?_eq_some hd
    have haddr : d.addr = p.2 := by simpa using List.find?_some hd
    have hnodup := h.nodup _ x hx
    refine h.setInode hx (h.positive _ x hx) (hnodup.sublist (List.filter_sublist.map _))
      (fun e he => h.fresh _ x e hx (List.mem_of_mem_filter he)) fun j => ?_
    obtain ⟨before, after, hsplit⟩ := List.append_of_mem hmem
    have hkeep : ∀ l : List Dentry, p.2 ∉ l.map Dentry.addr →
        (l.filter fun e => e.addr ≠ p.2) = l := fun l hl =>
      List.filter_eq_self.2 fun e he => by
        simpa using fun hea : e.addr = p.2 => hl (hea ▸ List.mem_map_of_mem he)
    rw [hsplit, List.map_append, List.map_cons] at hnodup
    obtain ⟨-, hafter, hdisj⟩ := List.nodup_append.1 hnodup
    have hbefore : p.2 ∉ before.map Dentry.addr := fun hm =>
      hdisj _ hm d.addr List.mem_cons_self haddr.symm
    have hafter' : p.2 ∉ after.map Dentry.addr := haddr ▸ (List.nodup_cons.1 hafter).1
    have hdents : (x.eraseDentry p.2).dents = before ++ after := by
      rw [Inode.eraseDentry, hsplit, List.filter_append, List.filter_cons_of_neg (by simp [haddr]),
        hkeep before hbefore, hkeep after hafter']
    simp only [Inode.refs, hdents, hsplit, List.flatMap_append, List.flatMap_cons,
      List.count_append]
    rw [show (x.eraseDentry p.2).refcount = x.refcount from rfl, sub_self, ite_self]
    push_cast
    ring

/-! ## New inodes -/

/-- The inode that was made, if one was. -/
theorem vfsCreateInode_ok {mode : ℕ} {reg : Except Errno Registration}
    (h : s.vfsCreateInode c f mode reg = some (.ok t, s')) :
    ∃ fs filesystems nextRootIno ino ft opens, s.filesystems.get f = some fs ∧ t = s.inodes.brk ∧
      s.filesystems.modify f (fun fs => { fs with imap := t :: fs.imap }) = some filesystems ∧
      s' = { s with
        filesystems
        nextRootIno
        inodes := (s.inodes.new { newInode c f mode with ino, ft, opens }).2 } ∧
      (fs.regInode = .root ∧ ino = s.nextRootIno ∧ nextRootIno = s.nextRootIno + 1 ∨
        fs.regInode = .driver ∧ nextRootIno = s.nextRootIno ∧ ∃ r, reg = .ok r ∧ ino = r.ino) := by
  obtain ⟨fs, hfs, h⟩ := Option.bind_eq_some_iff.1 h
  cases hreg : fs.regInode with
  | null =>
    simp only [hreg] at h
    cases h
  | root =>
    simp only [hreg] at h
    obtain ⟨r, hr, h⟩ := Option.bind_eq_some_iff.1 h
    obtain ⟨filesystems, hf, rfl⟩ := addInode_some hr
    cases h
    exact ⟨fs, filesystems, _, _, _, false, hfs, rfl, hf, rfl, Or.inl ⟨hreg, rfl, rfl⟩⟩
  | driver =>
    simp only [hreg] at h
    cases reg with
    | error e => cases h
    | ok r =>
      obtain ⟨r', hr, h⟩ := Option.bind_eq_some_iff.1 h
      obtain ⟨filesystems, hf, rfl⟩ := addInode_some hr
      cases h
      exact ⟨fs, filesystems, _, _, _, _, hfs, rfl, hf, rfl,
        Or.inr ⟨hreg, rfl, r, rfl, rfl⟩⟩

theorem vfsCreateInode_error {mode : ℕ} {reg : Except Errno Registration} {e : Errno}
    (h : s.vfsCreateInode c f mode reg = some (.error e, s')) : s' = s := by
  obtain ⟨fs, -, h⟩ := Option.bind_eq_some_iff.1 h
  cases hreg : fs.regInode with
  | null =>
    simp only [hreg] at h
    cases h
  | root =>
    simp only [hreg] at h
    obtain ⟨r, -, h⟩ := Option.bind_eq_some_iff.1 h
    cases h
  | driver =>
    simp only [hreg] at h
    cases reg with
    | error e =>
      cases h
      rfl
    | ok r =>
      obtain ⟨r', -, h⟩ := Option.bind_eq_some_iff.1 h
      cases h

/-- The call holds the reference to the inode that it makes. -/
theorem Ledger.createInode {mode : ℕ} {reg : Except Errno Registration} (h : s.Ledger l)
    (hs : s.vfsCreateInode c f mode reg = some (.ok t, s')) : s'.Ledger (t :: l) := by
  obtain ⟨fs, filesystems, nextRootIno, ino, ft, opens, -, rfl, -, rfl, -⟩ := vfsCreateInode_ok hs
  have hnew := h.new filesystems _ (x := { newInode c f mode with ino, ft, opens })
    (Nat.le_refl _) List.nodup_nil (fun d hd => by cases hd) rfl rfl
  exact ⟨⟨hnew.positive, hnew.nodup, hnew.fresh, hnew.next_pos⟩, hnew.balanced⟩

/-! ## Linking -/

theorem setTarget_some {temp : Bool} (h : s.setTarget p t temp = some s') :
    ∃ d x s₁ y, s.dentry p = some d ∧ d.ino = 0 ∧ s.inodes.get t = some x ∧
      (s.setInode t { x with refcount := x.refcount + 1 }).modifyDentry p
        (fun d => { d with ino := x.ino, target := some t, temp }) = some s₁ ∧
      s₁.inodes.get t = some y ∧ s' = s₁.setInode t { y with parent := y.parent.or (some p) } := by
  obtain ⟨d, hd, h⟩ := Option.bind_eq_some_iff.1 h
  split_ifs at h with hino
  obtain ⟨s₁, h₁, h⟩ := Option.bind_eq_some_iff.1 h
  obtain ⟨x, hx, rfl⟩ := vfsUprefInode_some h₁
  obtain ⟨x', hx', h⟩ := Option.bind_eq_some_iff.1 h
  rw [get_setInode_self hx] at hx'
  obtain rfl := Option.some.inj hx'
  obtain ⟨s₂, h₂, h⟩ := Option.bind_eq_some_iff.1 h
  obtain ⟨y, hy, rfl⟩ := modifyInode_some h
  exact ⟨d, x, s₂, y, hd, not_not.1 hino, hx, h₂, hy, rfl⟩

/-- An entry without a target is linked to an inode.  The inode may have been made by the call, which
then holds the only reference to it. -/
theorem Counted.setTarget {temp : Bool} (h : s.Ledger (l ++ K))
    (hspare : ∀ i x, s.inodes.get i = some x → (l.count i : ℤ) < x.refcount + if i = t then 1 else 0)
    (hd : s.dentry p = some d) (htarget : d.target = none)
    (hs : s.setTarget p t temp = some s') : Counted s' K l := by
  obtain ⟨d', x, s₁, y, hd', -, hx, h₁, hy, rfl⟩ := setTarget_some hs
  obtain rfl := Option.some.inj (hd'.symm.trans hd)
  have hup : (s.setInode t { x with refcount := x.refcount + 1 }).Ledger (t :: (l ++ K)) :=
    h.upref (modifyInode_eq hx _)
  have hlinked : s₁.Ledger (l ++ K) := by
    refine hup.modifyDentry ((dentry_setInode hx (by rfl)).trans hd') h₁ (fun _ => rfl) fun j => ?_
    simp only [Dentry.refs, htarget, Option.toList_some, Option.toList_none, List.count_cons,
      List.nil_append, List.singleton_append]
    omega
  refine ⟨hlinked.modifyInode (modifyInode_eq hy fun y =>
    { y with parent := y.parent.or (some p) }) (fun _ => rfl) fun _ => rfl, fun j z hz => ?_⟩
  have hcount : ∀ j z, s₁.inodes.get j = some z → (l.count j : ℤ) < z.refcount := fun j z hz => by
    rw [get_modifyDentry h₁] at hz
    obtain ⟨w, hw, rfl⟩ := Option.map_eq_some_iff.1 hz
    have hsame : (if p ≠ kernelRootEntry ∧ j = p.1 then
        w.modifyDentry p.2 fun d => { d with ino := x.ino, target := some t, temp }
        else w).refcount = w.refcount := by
      split_ifs <;> rfl
    rw [hsame]
    rcases get_setInode_cases hw with ⟨rfl, rfl⟩ | ⟨hj, hw⟩
    · have := hspare j x hx
      rwa [if_pos rfl] at this
    · have := hspare j w hw
      rwa [if_neg hj, add_zero] at this
  rcases get_setInode_cases hz with ⟨rfl, rfl⟩ | ⟨-, hz⟩
  · exact hcount j y hy
  · exact hcount j z hz

/-- An entry is linked to an inode; `g` counts the link. -/
inductive LinkedBy (s : Vfs) (p : ℕ × ℕ) (t : ℕ) (temp : Bool) (g : Inode → Inode) : Vfs → Prop
  | mk {s₁ s₂ s₃ s' : Vfs} (h₁ : s.setTarget p t temp = some s₁)
    (h₂ : Relation.ReflTransGen Recount s₁ s₂) (h₃ : s₂.modifyInode t g = some s₃)
    (h₄ : Look s₃ s') : LinkedBy s p t temp g s'

/-- `vfsLinkInode` counts a link, and another entry that refers to the inode. -/
def countLink (x : Inode) : Inode := { x with links := x.links + 1, dups := x.dups + 1 }

/-- `vfsBindInode` only counts a link. -/
def countBind (x : Inode) : Inode := { x with links := x.links + 1 }

/-- What is done to link an entry to an inode. -/
def Linked (s : Vfs) (p : ℕ × ℕ) (t : ℕ) (s' : Vfs) : Prop :=
  LinkedBy s p t false countLink s' ∨ LinkedBy s p t true countBind s'

section Link

variable {dref : DentryRef}
  (hledger : s.Ledger (dref.refs ++ l ++ K))
  (hspare : ∀ i x, s.inodes.get i = some x →
    ((dref.refs ++ l).count i : ℤ) < x.refcount + if i = t then 1 else 0)
  (hd : s.dentry dref.dent = some d) (htarget : d.target = none)

include hledger hspare hd htarget

theorem linked_vfsLinkInode (hs : s.vfsLinkInode dref t = some s') :
    Counted s' K l ∧ LinkedBy s dref.dent t false countLink s' := by
  obtain ⟨s₁, h₁, hs⟩ := Option.bind_eq_some_iff.1 hs
  obtain ⟨s₂, h₂, h₃⟩ := Option.bind_eq_some_iff.1 hs
  obtain ⟨hc₂, hr⟩ := recounts_unrefDentry h₂
    (Counted.setTarget hledger hspare hd htarget h₁)
  exact ⟨hc₂.modifyInode h₃ (fun _ => rfl) fun _ => rfl,
    .mk h₁ hr h₃ Relation.ReflTransGen.refl⟩

theorem linked_vfsLinkAndGetInode {r : Except (List MountPoint) InodeRef × Vfs}
    (hs : s.vfsLinkAndGetInode dref t = some r) :
    Counted r.2 K (targetRefs r.1 ++ l) ∧ LinkedBy s dref.dent t false countLink r.2 := by
  obtain ⟨s₁, h₁, hs⟩ := Option.bind_eq_some_iff.1 hs
  obtain ⟨s₂, h₂, h₃⟩ := Option.bind_eq_some_iff.1 hs
  have hc₁ := Counted.setTarget hledger hspare hd htarget h₁
  obtain ⟨hc₃, hlook⟩ := looks_getDentryTarget h₃
    (hc₁.modifyInode h₂ (fun _ => rfl) fun _ => rfl)
  exact ⟨hc₃, .mk h₁ Relation.ReflTransGen.refl h₂ hlook⟩

/-- The reference that a new parent is given is lost. -/
theorem linked_vfsBindInode (hs : s.vfsBindInode dref t = some s') :
    ∃ lost, Counted s' (lost ++ K) l ∧ LinkedBy s dref.dent t true countBind s' := by
  obtain ⟨inode, -, hs⟩ := Option.bind_eq_some_iff.1 hs
  obtain ⟨s₁, h₁, hs⟩ := Option.bind_eq_some_iff.1 hs
  obtain ⟨s₂, h₂, hs⟩ := Option.bind_eq_some_iff.1 hs
  obtain ⟨s₃, h₃, h₄⟩ := Option.bind_eq_some_iff.1 hs
  have hc₁ := Counted.setTarget hledger hspare hd htarget h₁
  have hlost : ∃ lost, Counted s₂ (lost ++ K) (dref.refs ++ l) ∧
      Relation.ReflTransGen Recount s₁ s₂ := by
    rw [uprefParent] at h₂
    split_ifs at h₂
    · obtain ⟨hc₂, hr⟩ := recounts_upref h₂ hc₁
      refine ⟨[dref.dent.1], ⟨hc₂.ledger.congr fun i => ?_, fun i x hx => ?_⟩, hr⟩
      · simp only [List.count_append, List.count_cons, List.count_nil]
        omega
      · have := hc₂.spare i x hx
        rw [List.count_cons] at this
        omega
    · obtain rfl := Option.some.inj h₂
      exact ⟨[], hc₁, Relation.ReflTransGen.refl⟩
  obtain ⟨lost, hc₂, hr₂⟩ := hlost
  obtain ⟨hc₃, hr₃⟩ := recounts_unrefDentry h₃ hc₂
  exact ⟨lost, hc₃.modifyInode h₄ (fun _ => rfl) fun _ => rfl,
    .mk h₁ (hr₂.trans hr₃) h₄ Relation.ReflTransGen.refl⟩

end Link

/-! ## Removing -/

theorem recounts_stored (h : Relation.ReflTransGen Recount s s') :
    allStored Inode.refs s'.inodes i = allStored Inode.refs s.inodes i ∧
      s'.rootRefs = s.rootRefs := by
  induction h with
  | refl => exact ⟨rfl, rfl⟩
  | tail _ h ih =>
    cases h with
    | mk hx hn =>
      refine ⟨?_, ih.2⟩
      rw [← ih.1, setInode, allStored_put hx]
      simp only [Inode.refs]
      omega

/-- As the counters change, so do the references of the call. -/
theorem recounts_spare (h : Relation.ReflTransGen Recount s s') (hc : Counted s K l)
    (hc' : Counted s' K l') (hx : s.inodes.get i = some x) (hy : s'.inodes.get i = some y) :
    y.refcount - l'.count i = x.refcount - l.count i := by
  have hs := hc.ledger.balanced i
  have hs' := hc'.ledger.balanced i
  obtain ⟨hstored, hroot⟩ := recounts_stored (i := i) h
  rw [counter_of_get hx, List.count_append, List.count_append] at hs
  rw [counter_of_get hy, hstored, hroot, List.count_append, List.count_append] at hs'
  push_cast at hs hs'
  omega

/-- The inodes after an entry is taken off its list. -/
theorem get_eraseDentry (h : s.eraseDentry p = some s') (i : ℕ) :
    s'.inodes.get i = (s.inodes.get i).map fun x =>
      if p ≠ kernelRootEntry ∧ i = p.1 then x.eraseDentry p.2 else x := by
  rw [eraseDentry] at h
  split_ifs at h with hp
  · obtain rfl := Option.some.inj h
    simp [hp]
  · obtain ⟨x, hx, rfl⟩ := modifyInode_some h
    by_cases hi : i = p.1
    · subst hi
      rw [get_setInode_self hx, hx, Option.map_some, if_pos ⟨hp, rfl⟩]
    · rw [get_setInode_ne hi]
      simp [hi]

theorem vfsRemoveDentry_some {dref : DentryRef} (h : s.vfsRemoveDentry dref = some s') :
    ∃ d s₁ s₂ s₃, s.dentry dref.dent = some d ∧ d.ino = 0 ∧ s.eraseDentry dref.dent = some s₁ ∧
      s₁.vfsDownrefInode dref.dent.1 = some s₂ ∧ s₂.vfsDownrefInode dref.dent.1 = some s₃ ∧
      s₃.vfsUnrefTop dref.top = some s' := by
  obtain ⟨d, hd, h⟩ := Option.bind_eq_some_iff.1 h
  split_ifs at h with hino
  obtain ⟨s₁, h₁, h⟩ := Option.bind_eq_some_iff.1 h
  obtain ⟨s₂, h₂, h⟩ := Option.bind_eq_some_iff.1 h
  obtain ⟨s₃, h₃, h⟩ := Option.bind_eq_some_iff.1 h
  exact ⟨d, s₁, s₂, s₃, hd, not_not.1 hino, h₁, h₂, h₃, h⟩

/-- What a call does that fails: it resolves paths, and perhaps makes an entry and removes it. -/
inductive Fruitless (s : Vfs) : Vfs → Prop
  | looked {s' : Vfs} (h : Look s s') : Fruitless s s'
  | undone {s₁ s₂ s₃ s₄ s' : Vfs} {c : Caller} {dir : ℕ} {name : Name} {d : Dentry}
    (h₁ : Look s s₁) (hshaped : s₁.Shaped) (h₂ : s₁.addPlaceholder c dir name = some s₂)
    (h₃ : Relation.ReflTransGen Recount s₂ s₃) (hd : s₃.dentry (dir, s₁.nextEntry) = some d)
    (hino : d.ino = 0) (h₄ : s₃.eraseDentry (dir, s₁.nextEntry) = some s₄)
    (h₅ : Relation.ReflTransGen Recount s₄ s') : Fruitless s s'

/-- A new entry is removed again. -/
theorem fruitless_remove {s₀ s₁ s₂ s₃ : Vfs} {dir : ℕ} {top : List MountPoint}
    (hlook : Look s₀ s₁) (hc : Counted s₁ K (dir :: topRefs top ++ l))
    (hs : s₁.addPlaceholder c dir name = some s₂)
    (hr : Relation.ReflTransGen Recount s₂ s₃) (hc₃ : Counted s₃ K (dir :: topRefs top ++ l'))
    (h : s₃.vfsRemoveDentry ⟨(dir, s₁.nextEntry), top⟩ = some s') :
    Counted s' K l' ∧ Fruitless s₀ s' := by
  obtain ⟨d, s₄, s₅, s₆, hd, hino, h₄, h₅, h₆, h₇⟩ := vfsRemoveDentry_some h
  obtain ⟨x, hx, rfl⟩ := addPlaceholder_some hs
  have hc₂ := hc.addPlaceholder hs
  have hplace : d = s₁.placeholder x name := by
    rw [dentry_recounts hr, dentry_addPlaceholder hc.ledger hs hx] at hd
    exact (Option.some.inj hd).symm
  have hledger := hc₃.ledger.eraseDentry hd h₄
  have hc₄ : Counted s₄ K (dir :: dir :: topRefs top ++ l') := by
    refine ⟨hledger.congr fun i => ?_, fun i z hz => ?_⟩
    · rw [hplace]
      simp only [Dentry.refs, placeholder, Option.toList_none, Bool.false_eq_true, if_false,
        List.count_cons, List.cons_append, List.nil_append, List.count_append]
    · rw [get_eraseDentry h₄] at hz
      obtain ⟨w, hw, rfl⟩ := Option.map_eq_some_iff.1 hz
      have hsame : ∀ b : Prop, [Decidable b] →
          (if b then w.eraseDentry s₁.nextEntry else w).refcount = w.refcount := fun b _ => by
        split_ifs <;> rfl
      rw [hsame]
      by_cases hi : dir = i
      · subst hi
        have hdiff := recounts_spare hr hc₂ hc₃
          (get_setInode_self (s := { s₁ with nextEntry := s₁.nextEntry + 1 }) hx) hw
        have hspare := hc.spare dir x hx
        simp only [List.cons_append, List.count_cons_self] at hdiff hspare ⊢
        push_cast at *
        omega
      · have := hc₃.spare i w hw
        simpa [List.count_cons_of_ne hi] using this
  obtain ⟨hc', hr'⟩ :=
    ((recounts_downref h₅).trans ((recounts_downref h₆).trans (recounts_unrefTop h₇))) hc₄
  exact ⟨hc', .undone hlook hc.ledger.toShaped hs hr hd hino h₄ hr'⟩

/-- The entry stops naming anything, and its directory lists it no longer. -/
inductive Cleared (s : Vfs) (p : ℕ × ℕ) : Vfs → Prop
  | mk {s₁ s₂ s' : Vfs} (h₁ : s.modifyDentry p (fun d => { d with target := none, ino := 0 }) = some s₁)
    (h₂ : s₁.eraseDentry p = some s₂) (h₃ : Settle s₂ s') : Cleared s p s'

/-- An entry without a target is removed; the reference that a mountpoint has to its directory is
lost. -/
theorem remove_settles {dref : DentryRef} (h : s.Ledger (dref.refs ++ l))
    (hd : s.dentry dref.dent = some d) (htarget : d.target = none)
    (hs : s.vfsRemoveDentry dref = some s') :
    s'.Ledger ((if d.mntpoint then [dref.dent.1] else []) ++ l) ∧
      ∃ s₁, s.eraseDentry dref.dent = some s₁ ∧ Settle s₁ s' := by
  obtain ⟨d', s₁, s₂, s₃, hd', -, he, h₂, h₃, h₄⟩ := vfsRemoveDentry_some hs
  obtain rfl := Option.some.inj (hd.symm.trans hd')
  have hl₁ : s₁.Ledger (dref.dent.1 :: dref.dent.1 :: (topRefs dref.top ++
      ((if d.mntpoint then [dref.dent.1] else []) ++ l))) := by
    refine (h.eraseDentry hd he).congr fun j => ?_
    simp only [Dentry.refs, DentryRef.refs, List.count_cons, List.count_append, List.cons_append,
      htarget, Option.toList_none, List.nil_append]
    omega
  obtain ⟨hl', hs⟩ :=
    ((settles_downref h₂).trans ((settles_downref h₃).trans (settles_unrefTop h₄))) hl₁
  exact ⟨hl', s₁, he, hs⟩

/-- An entry is cleared and removed; the target it had is held by the caller. -/
theorem cleared_remove {dref : DentryRef} {s₁ : Vfs} (h : s.Ledger (dref.refs ++ l))
    (hd : s.dentry dref.dent = some d)
    (h₁ : s.modifyDentry dref.dent (fun d => { d with ino := 0, target := none }) = some s₁)
    (h₂ : s₁.vfsRemoveDentry dref = some s') :
    s'.Ledger (d.target.toList ++ (if d.mntpoint then [dref.dent.1] else []) ++ l) ∧
      Cleared s dref.dent s' := by
  have hl₁ : s₁.Ledger (dref.refs ++ (d.target.toList ++ l)) := by
    refine h.modifyDentry hd h₁ (fun _ => rfl) fun j => ?_
    simp only [Dentry.refs, List.count_cons, List.count_append, Option.toList_none,
      List.nil_append]
    omega
  obtain ⟨hl', s₂, he, hs⟩ :=
    remove_settles hl₁ (dentry_modifyDentry (fun _ => by rfl) hd h₁) rfl h₂
  refine ⟨hl'.congr fun j => ?_, .mk h₁ he hs⟩
  simp only [List.count_append]
  omega

/-- A link less is counted. -/
theorem Ledger.linkDown (h : s.Ledger l) (hs : s.linkDown i = some s') : s'.Ledger l := by
  obtain ⟨x, hx, hs⟩ := Option.bind_eq_some_iff.1 hs
  split_ifs at hs
  · obtain ⟨s₁, h₁, hs⟩ := Option.bind_eq_some_iff.1 hs
    have hl₁ : s₁.Ledger l := by
      cases hf : x.fs with
      | none =>
        rw [hf] at h₁
        obtain rfl := Option.some.inj h₁
        exact h
      | some f =>
        rw [hf] at h₁
        obtain ⟨fs, -, h₁⟩ := Option.bind_eq_some_iff.1 h₁
        obtain rfl := Option.some.inj h₁
        split_ifs
        · exact { h with }
        · exact h
    exact hl₁.modifyInode hs (fun _ => rfl) fun _ => rfl
  · exact h.modifyInode hs (fun _ => rfl) fun _ => rfl

/-- What is done to unlink an inode from an entry. -/
inductive Unlinked (s : Vfs) (p : ℕ × ℕ) (t : ℕ) : Vfs → Prop
  | mk {s₁ s₂ s₃ s' : Vfs} {now : ℕ}
    (h₁ : s.modifyInode p.1 (fun x => { x with mtime := now }) = some s₁) (h₂ : Cleared s₁ p s₂)
    (h₃ : s₂.linkDown t = some s₃) (h₄ : Settle s₃ s') : Unlinked s p t s'

/-- `vfsUnlinkInode` fails, or unlinks an inode. -/
theorem vfsUnlinkInode_spec {dref : DentryRef} {flags : ℕ} {r : Option Errno × Vfs}
    (hc : Counted s K (dref.refs ++ l)) (h : s.vfsUnlinkInode c dref flags = some r) :
    (r.1 ≠ none ∧ Counted r.2 K l ∧ Look s r.2) ∨
      ∃ s₁ d t x dir, Look s s₁ ∧ s₁.dentry dref.dent = some d ∧ dref.dent ≠ kernelRootEntry ∧
        d.mntpoint = false ∧ d.target = some t ∧ s₁.inodes.get t = some x ∧
        s₁.inodes.get dref.dent.1 = some dir ∧ unlinkError c flags dir x = none ∧ r.1 = none ∧
        Counted s₁ K (dref.refs ++ l) ∧ r.2.Ledger (l ++ K) ∧ Unlinked s₁ dref.dent t r.2 := by
  have hfail : ∀ {s₁ : Vfs} {e : Errno}, Counted s₁ K (dref.refs ++ l) → Look s s₁ →
      s₁.failDentry dref e = some r → r.1 ≠ none ∧ Counted r.2 K l ∧ Look s r.2 := by
    intro s₁ e hc₁ hlook h
    obtain ⟨s₂, h₂, h⟩ := Option.bind_eq_some_iff.1 h
    obtain rfl := Option.some.inj h
    obtain ⟨hc₂, hl⟩ := (recounts_unrefDentry h₂).looks hc₁
    exact ⟨Option.some_ne_none e, hc₂, hlook.trans hl⟩
  obtain ⟨⟨f, fs⟩, -, h⟩ := Option.bind_eq_some_iff.1 h
  obtain ⟨d₀, hd₀, h⟩ := Option.bind_eq_some_iff.1 h
  split_ifs at h with hrdonly hmnt
  · exact Or.inl (hfail hc Relation.ReflTransGen.refl h)
  · exact Or.inl (hfail hc Relation.ReflTransGen.refl h)
  obtain ⟨s₁, h₁, h⟩ := Option.bind_eq_some_iff.1 h
  obtain ⟨d, hd, h⟩ := Option.bind_eq_some_iff.1 h
  obtain ⟨hc₁, hlook⟩ := looks_callIn h₁ hc
  cases htarget : d.target with
  | none =>
    simp only [htarget] at h
    exact Or.inl (hfail hc₁ hlook h)
  | some t =>
    simp only [htarget] at h
    obtain ⟨x, hx, h⟩ := Option.bind_eq_some_iff.1 h
    obtain ⟨dir, hdir, h⟩ := Option.bind_eq_some_iff.1 h
    cases he : unlinkError c flags dir x with
    | some e =>
      simp only [he] at h
      exact Or.inl (hfail hc₁ hlook h)
    | none =>
      simp only [he] at h
      obtain ⟨s₂, h₂, h⟩ := Option.bind_eq_some_iff.1 h
      obtain ⟨s₃, h₃, h⟩ := Option.bind_eq_some_iff.1 h
      obtain ⟨s₄, h₄, h⟩ := Option.bind_eq_some_iff.1 h
      obtain ⟨s₅, h₅, h⟩ := Option.bind_eq_some_iff.1 h
      obtain rfl := Option.some.inj h
      obtain ⟨s₆, h₆, h₇⟩ := Option.bind_eq_some_iff.1 h₅
      rw [not_or] at hmnt
      have hc₂ := hc₁.modifyInode h₂ (fun _ => rfl) fun _ => rfl
      have hd₂ : s₂.dentry dref.dent = some d := by
        rw [dentry_modifyInode h₂ fun _ => rfl, hd]
      have hdmnt : d.mntpoint = false := by
        obtain ⟨target, hd', -⟩ := look_dentry hlook hd₀
        obtain rfl := Option.some.inj (hd'.symm.trans hd)
        simpa using hmnt.2
      obtain ⟨hl₄, hcleared⟩ := cleared_remove
        (hc₂.ledger.congr fun i => by rw [List.append_assoc]) hd₂ h₃ h₄
      rw [htarget, hdmnt] at hl₄
      obtain ⟨hl', hs⟩ := settles_downref h₇ (hl₄.linkDown h₆)
      exact Or.inr ⟨s₁, d, t, x, dir, hlook, hd, hmnt.1, hdmnt, htarget, hx, hdir, he, rfl, hc₁,
        hl', .mk h₂ hcleared h₆ hs⟩

/-! ## Moving -/

/-- What is done to move an entry to another one. -/
inductive Moved (s : Vfs) (p q : ℕ × ℕ) : Vfs → Prop
  | mk {d : Dentry} {s₁ s₂ s₃ s' : Vfs} (hd : s.dentry p = some d)
    (h₁ : s.modifyDentry q (fun e => { e with ino := d.ino, target := d.target, temp := false }) =
      some s₁)
    (h₂ : s₁.setParent q d.target = some s₂) (h₃ : Cleared s₂ p s₃) (h₄ : Settle s₃ s') :
    Moved s p q s'

/-- The reference that a mountpoint has to its directory is lost when it is moved. -/
theorem moveEntry_spec {drefOld drefNew : DentryRef} {e : Dentry}
    (h : s.Ledger (drefOld.refs ++ drefNew.refs ++ l)) (hne : drefNew.dent ≠ drefOld.dent)
    (hd : s.dentry drefOld.dent = some d) (he : s.dentry drefNew.dent = some e)
    (htarget : e.target = none) (hm : s.moveEntry drefOld drefNew = some s') :
    s'.Ledger ((if d.mntpoint then [drefOld.dent.1] else []) ++ l) ∧
      Moved s drefOld.dent drefNew.dent s' := by
  obtain ⟨d', hd', hm⟩ := Option.bind_eq_some_iff.1 hm
  obtain rfl := Option.some.inj (hd.symm.trans hd')
  obtain ⟨s₁, h₁, hm⟩ := Option.bind_eq_some_iff.1 hm
  obtain ⟨s₂, h₂, hm⟩ := Option.bind_eq_some_iff.1 hm
  obtain ⟨s₃, h₃, hm⟩ := Option.bind_eq_some_iff.1 hm
  obtain ⟨s₄, h₄, h₅⟩ := Option.bind_eq_some_iff.1 hm
  obtain ⟨hs₁, hst₁⟩ := h.toShaped.modifyDentry he h₁ fun _ => rfl
  have hparent : s₂.Shaped ∧ (∀ j, counter Inode.refcount s₂.inodes j =
      counter Inode.refcount s₁.inodes j ∧ s₂.storedRefs j = s₁.storedRefs j) ∧
      ∀ q, s₂.dentry q = s₁.dentry q := by
    cases ht : d.target with
    | none =>
      rw [ht] at h₂
      obtain rfl := Option.some.inj h₂
      exact ⟨hs₁, fun j => ⟨rfl, rfl⟩, fun q => rfl⟩
    | some t =>
      rw [ht] at h₂
      obtain ⟨hs, hst⟩ := hs₁.modifyInode h₂ (fun _ => rfl) fun _ => rfl
      exact ⟨hs, hst, fun q => dentry_modifyInode h₂ fun _ => rfl⟩
  obtain ⟨hs₂, hst₂, hdentry⟩ := hparent
  have hd₂ : s₂.dentry drefOld.dent = some d := by
    rw [hdentry, dentry_modifyDentry_ne (fun _ => by rfl) hne.symm h₁, hd]
  obtain ⟨hs₃, hst₃⟩ := hs₂.modifyDentry hd₂ h₃ fun _ => rfl
  have hl₃ : s₃.Ledger (drefOld.refs ++ (drefNew.refs ++ l)) := by
    refine h.of_stored hs₃ fun j => ⟨?_, ?_⟩
    · rw [(hst₃ j).1, (hst₂ j).1, (hst₁ j).1]
    · have h₁ := (hst₁ j).2
      have h₂ := (hst₂ j).2
      have h₃ := (hst₃ j).2
      simp only [Dentry.refs, htarget, Option.toList_none, List.nil_append, List.count_cons,
        List.count_append] at h₁ h₃ ⊢
      push_cast at *
      omega
  obtain ⟨hl₄, s₅, he₅, hs₅⟩ :=
    remove_settles hl₃ (dentry_modifyDentry (fun _ => by rfl) hd₂ h₃) rfl h₄
  have hl₅ : s₄.Ledger (drefNew.refs ++ ((if d.mntpoint then [drefOld.dent.1] else []) ++ l)) :=
    hl₄.congr fun j => by
      simp only [List.count_append]
      omega
  obtain ⟨hl', hs'⟩ := settles_unrefDentry h₅ hl₅
  exact ⟨hl', .mk hd h₁ h₂ (.mk h₃ he₅ hs₅) hs'⟩

end Vfs

end Glidix.Fs
