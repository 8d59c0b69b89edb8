import Mathlib.Data.Nat.Bitwise
import Glidix.Gxfs.InodeChain

/-!
# Flushed inodes are loaded back

Loading the records of an inode gives the inode back, with the dentries that are committed to disk
(`loadRecords_inodeRecords`), and the records lie in the chain as they were written.  The 16 bits
that an `ATTR` record has for the mode, the owner and the group are all that is kept of them.
-/

namespace Glidix.Gxfs

open Bytes

/-! ## The flags word -/

section Flags

theorem and_or_of_and_eq_zero {a b m : UInt32} (h : b &&& m = 0) : (a ||| b) &&& m = a &&& m := by
  rw [← UInt32.toNat_inj] at h ⊢
  simp only [UInt32.toNat_and, UInt32.toNat_or, UInt32.toNat_zero] at h ⊢
  rw [Nat.and_or_distrib_right, h, Nat.or_zero]

theorem toUInt32_and_low {mode : UInt64} (h : mode < 0x10000) :
    (mode.toUInt32 &&& 0xFFFF).toUInt64 = mode := by
  have hlt : mode.toNat < 0x10000 := h
  rw [← UInt64.toNat_inj]
  simp only [UInt32.toNat_toUInt64, UInt32.toNat_and, UInt64.toNat_toUInt32]
  rw [show (0xFFFF : UInt32).toNat = 2 ^ 16 - 1 from rfl, Nat.and_two_pow_sub_one_eq_mod]
  omega

theorem mod_low {id : UInt64} (h : id < 0x10000) : id % 0x10000 = id := by
  rw [← UInt64.toNat_inj, UInt64.toNat_mod]
  exact Nat.mod_eq_of_lt h

theorem toUInt32_and_fixed {mode : UInt64} (h : mode < 0x10000) :
    mode.toUInt32 &&& GXFS_INODE_FIXED_SIZE = 0 := by
  have hlt : mode.toNat < 0x10000 := h
  rw [← UInt32.toNat_inj]
  simp only [UInt32.toNat_and, UInt64.toNat_toUInt32]
  rw [show GXFS_INODE_FIXED_SIZE.toNat = 2 ^ 16 from rfl, Nat.and_two_pow,
    Nat.testBit_lt_two_pow (by omega)]
  rfl

variable {inode : Inode}

theorem arFlags_mode (h : inode.mode < 0x10000) :
    (arFlags inode &&& 0xFFFF).toUInt64 = inode.mode := by
  rw [← toUInt32_and_low h]
  unfold arFlags
  split
  · rw [toUInt32_and_low h]
  · split
    · rw [and_or_of_and_eq_zero (by decide), toUInt32_and_low h]
    · rw [toUInt32_and_low h]

theorem arFlags_fixed {ft : FileTree} (h : inode.mode < 0x10000) (hft : inode.ft = some ft) :
    arFlags inode &&& GXFS_INODE_FIXED_SIZE ≠ 0 ↔ ft.flags &&& FT_FIXED_SIZE ≠ 0 := by
  unfold arFlags
  rw [hft]
  by_cases hfixed : ft.flags &&& FT_FIXED_SIZE = 0
  · simp only [hfixed, ne_eq, not_true_eq_false, if_false, toUInt32_and_fixed h]
  · simp only [hfixed, ne_eq, not_false_eq_true, if_true, iff_true]
    rw [UInt32.or_comm, and_or_of_and_eq_zero (toUInt32_and_fixed h)]
    decide

end Flags

/-! ## The records -/

section Records

theorem le_align8 (n : ℕ) : n ≤ align8 n ∧ align8 n < n + 8 ∧ align8 n % 8 = 0 := by
  unfold align8
  omega

/-- A record is found again when its header says its size. -/
theorem recordOk_pack {t : UInt32} {size : ℕ} {fields : List (ℕ × ℕ)} {rest : List UInt8}
    (ht : t &&& 0xFF ≠ 0) (hlen : 8 + (pack fields).length + rest.length = size)
    (hlt : size < 2 ^ 32) (hdvd : size % 8 = 0) :
    RecordOk (pack ((4, t.toNat) :: (4, size) :: fields) ++ rest) := by
  have hlength : (pack ((4, t.toNat) :: (4, size) :: fields) ++ rest).length = size := by
    simp only [pack_cons, List.length_append, length_leBytes]
    omega
  refine ⟨?_, ?_, by omega, by omega⟩
  · rw [get32, leAt_pack_here]
    simpa using ht
  · rw [hlength, leAt_pack_skip le_rfl, Nat.sub_self, leAt_pack_here]
    exact Nat.mod_eq_of_lt hlt

theorem recordOk_attrRecord (inode : Inode) : RecordOk (attrRecord inode) := by
  rw [← List.append_nil (attrRecord inode)]
  exact recordOk_pack (by decide) (by simp [sizeofAttrRecord]) (by decide) (by decide)

theorem length_aceBytes (ace : AccessControlEntry) : (aceBytes ace).length = 4 := rfl

theorem recordOk_aclRecord (inode : Inode) : RecordOk (aclRecord inode) := by
  refine recordOk_pack (by decide) ?_ (by decide) (by decide)
  rw [List.length_flatMap, List.map_congr_left fun ace _ => length_aceBytes ace, List.map_const',
    List.length_ofFn, List.sum_replicate_nat]
  rfl

theorem recordOk_linkRecord (target : CString) : RecordOk (linkRecord target) := by
  obtain ⟨hle, hlt, hdvd⟩ := le_align8 (8 + target.chars.length)
  have := target.length_lt
  refine recordOk_pack (by decide) ?_ (by omega) hdvd
  simp only [pack_nil, List.length_nil, List.length_append, List.length_replicate]
  omega

theorem recordOk_dentRecord (dent : Dentry) : RecordOk (dentRecord dent) := by
  obtain ⟨hle, hlt, hdvd⟩ := le_align8 (sizeofDentRecord + dent.name.chars.length)
  have := dent.name.length_lt
  have hsize : sizeofDentRecord = 24 := rfl
  refine recordOk_pack (by decide) ?_ (by omega) hdvd
  simp only [pack_nil, pack_cons, length_leBytes, List.length_nil, List.length_append,
    List.length_replicate]
  omega

theorem recordOk_treeRecord (tree : FileTree) : RecordOk (treeRecord tree) := by
  rw [← List.append_nil (treeRecord tree)]
  exact recordOk_pack (by decide) (by simp [sizeofTreeRecord]) (by decide) (by decide)

/-- Every record of an inode is found again. -/
theorem recordOk_inodeRecords (inode : Inode) : ∀ record ∈ inodeRecords inode, RecordOk record := by
  simp only [inodeRecords, List.mem_append, List.mem_cons, List.not_mem_nil, or_false, List.mem_map]
  rintro record (((((rfl | rfl) | ⟨target, -, rfl⟩) | ⟨dent, -, rfl⟩)) | ⟨tree, -, rfl⟩)
  · exact recordOk_attrRecord inode
  · exact recordOk_aclRecord inode
  · exact recordOk_linkRecord target
  · exact recordOk_dentRecord dent
  · exact recordOk_treeRecord tree

end Records

/-! ## Loading the records -/

section Load

variable {rdonly : Bool} {load : InodeLoad}

/-- The string that was written is the one found up to the first zero. -/
theorem strdup_chars (s : CString) (n : ℕ) :
    strdup (s.chars ++ List.replicate n 0 ++ [0]) = some s := by
  have htake : (s.chars ++ List.replicate n 0 ++ [0]).takeWhile (· ≠ 0) = s.chars := by
    rw [List.append_assoc, ← List.replicate_succ', List.takeWhile_append_of_pos fun c hc => by
      simpa using fun e : c = 0 => s.nul_notMem (e ▸ hc)]
    simp [List.replicate_succ]
  unfold strdup
  simp only [htake, s.length_lt, dite_true]

theorem toUInt16_toUInt64 (u : UInt64) :
    (UInt16.ofNat (u.toUInt16.toNat % 256 ^ 2)).toUInt64 = u % 0x10000 := by
  rw [← UInt64.toNat_inj]
  simp

theorem loadRecord_attr (inode inode₀ : Inode) (size : UInt64) (flags : UInt32) :
    loadRecord rdonly ⟨inode₀, false, size, flags⟩ (attrRecord inode ++ [0]) =
      some ⟨{ inode₀ with
        links := inode.links, mode := (arFlags inode &&& 0xFFFF).toUInt64
        uid := inode.uid % 0x10000, gid := inode.gid % 0x10000
        atime := inode.atime, mtime := inode.mtime, ctime := inode.ctime, btime := inode.btime
        anano := inode.anano, mnano := inode.mnano, cnano := inode.cnano, bnano := inode.bnano
        ixperm := inode.ixperm, oxperm := inode.oxperm, dxperm := inode.dxperm },
        true, inode.ft.elim 0 FileTree.size, arFlags inode⟩ := by
  have htype : get32 0 (attrRecord inode ++ [0]) = GXFS_RT "ATTR" := by
    rw [get32, attrRecord, leAt_pack_here]
    simp
  have hsize : leAt 4 4 (attrRecord inode ++ [0]) = sizeofAttrRecord := by
    rw [attrRecord, leAt_pack_skip le_rfl, Nat.sub_self, leAt_pack_here]
    rfl
  simp only [loadRecord, htype, if_true, hsize, ne_eq, not_true_eq_false, if_false, loadAttr]
  simp (disch := decide) only [attrRecord, get64, get32, get16, leAt_pack_skip, leAt_pack_here,
    Nat.reduceSub, toUInt16_toUInt64]
  simp

/-- After the `ATTR` record, the other records set what they are about. -/
theorem loadRecord_acl (inode : Inode) (hfound : load.foundAttr = true) :
    loadRecord rdonly load (aclRecord inode ++ [0]) =
      some { load with inode := { load.inode with acl := inode.acl } } := by
  have htype : get32 0 (aclRecord inode ++ [0]) = GXFS_RT "_ACL" := by
    rw [get32, aclRecord, List.append_assoc, leAt_pack_here]
    simp
  have hsize : leAt 4 4 (aclRecord inode ++ [0]) = sizeofAclRecord := by
    rw [aclRecord, List.append_assoc, leAt_pack_skip le_rfl, Nat.sub_self, leAt_pack_here]
    rfl
  have hace : (fun i : Fin VFS_ACL_SIZE => (⟨get16 (8 + 4 * i) (aclRecord inode ++ [0]),
      get8 (8 + 4 * i + 2) (aclRecord inode ++ [0]),
      get8 (8 + 4 * i + 3) (aclRecord inode ++ [0])⟩ : AccessControlEntry)) = inode.acl := by
    funext i
    have hi : (i : ℕ) < (List.ofFn inode.acl).length := by simp
    have hbytes : ∀ off n, off + n ≤ 4 → leAt (8 + 4 * i + off) n (aclRecord inode ++ [0]) =
        leAt off n (aceBytes (inode.acl i) ++ []) := by
      intro off n hoff
      rw [aclRecord, List.append_assoc, Nat.add_assoc, leAt_append_right (by simp),
        show (pack [(4, (GXFS_RT "_ACL").toNat), (4, sizeofAclRecord)]).length = 8 from rfl,
        Nat.add_sub_cancel_left, leAt_flatMap length_aceBytes hi hoff, List.getElem_ofFn,
        List.append_nil]
    have hid := hbytes 0 2 (by omega)
    rw [Nat.add_zero] at hid
    simp only [get16, get8, hid, hbytes 2 1 (by omega), hbytes 3 1 (by omega)]
    simp (disch := decide) only [aceBytes, leAt_pack_skip, leAt_pack_here, Nat.reduceSub]
    simp
  simp only [loadRecord, htype, hfound, hsize, hace]
  rw [if_neg (by decide), if_neg (by decide), if_neg (by decide), if_neg (by decide), if_pos trivial,
    if_neg (by simp), if_neg (by simp)]

theorem loadRecord_link (target : CString) (hfound : load.foundAttr = true) :
    loadRecord rdonly load (linkRecord target ++ [0]) =
      some { load with inode := { load.inode with target := some target } } := by
  have htype : get32 0 (linkRecord target ++ [0]) = GXFS_RT "LINK" := by
    rw [get32, linkRecord, List.append_assoc, leAt_pack_here]
    simp
  have hname : strdup ((linkRecord target ++ [0]).drop 8) = some target := by
    rw [linkRecord, List.append_assoc, List.drop_left' (by simp)]
    exact strdup_chars target _
  simp only [loadRecord, htype, hfound, hname]
  rw [if_neg (by decide), if_neg (by decide), if_neg (by decide), if_pos trivial, if_neg (by simp),
    Option.map_some]

theorem loadRecord_dent (dent : Dentry) (hfound : load.foundAttr = true) :
    loadRecord rdonly load (dentRecord dent ++ [0]) =
      some { load with inode := { load.inode with
        dents := load.inode.dents ++ [{ dent with flags := 0 }] } } := by
  have htype : get32 0 (dentRecord dent ++ [0]) = GXFS_RT "DENT" := by
    rw [get32, dentRecord, List.append_assoc, leAt_pack_here]
    simp
  have hname : strdup ((dentRecord dent ++ [0]).drop 17) = some dent.name := by
    rw [dentRecord, List.append_assoc, List.drop_left' (by simp)]
    exact strdup_chars dent.name _
  have hino : get64 8 (dentRecord dent ++ [0]) = dent.ino := by
    rw [dentRecord, List.append_assoc]
    simp (disch := decide) only [get64, leAt_pack_skip, leAt_pack_here, Nat.reduceSub]
    simp
  simp only [loadRecord, htype, hfound, hino, vfsAppendDentry, hname]
  rw [if_neg (by decide), if_pos trivial, if_neg (by simp), Option.map_some, Option.map_some]

theorem loadRecord_tree (tree : FileTree) (hfound : load.foundAttr = true) :
    loadRecord rdonly load (treeRecord tree ++ [0]) =
      some { load with inode := { load.inode with
        ft := some (gxfsTree rdonly tree.depth tree.head load.fileSize load.fileFlags) } } := by
  have htype : get32 0 (treeRecord tree ++ [0]) = GXFS_RT "TREE" := by
    rw [get32, treeRecord, leAt_pack_here]
    simp
  have hsize : leAt 4 4 (treeRecord tree ++ [0]) = sizeofTreeRecord := by
    rw [treeRecord, leAt_pack_skip le_rfl, Nat.sub_self, leAt_pack_here]
    rfl
  have hdepth : get64 8 (treeRecord tree ++ [0]) = tree.depth := by
    simp (disch := decide) only [treeRecord, get64, leAt_pack_skip, leAt_pack_here, Nat.reduceSub]
    simp
  have hhead : get64 16 (treeRecord tree ++ [0]) = tree.head := by
    simp (disch := decide) only [treeRecord, get64, leAt_pack_skip, leAt_pack_here, Nat.reduceSub]
    simp
  simp only [loadRecord, htype, hfound, hsize, hdepth, hhead]
  rw [if_neg (by decide), if_neg (by decide), if_pos trivial, if_neg (by simp), if_neg (by simp)]

theorem foldlM_loadRecord_link (target : Option CString) (hfound : load.foundAttr = true)
    (hnone : load.inode.target = none) : (target.toList.map linkRecord).foldlM
        (fun load record => loadRecord rdonly load (record ++ [0])) load =
      some { load with inode := { load.inode with target := target } } := by
  cases target with
  | none =>
    exact congrArg (fun t => some { load with inode := { load.inode with target := t } }) hnone
  | some target => simp [loadRecord_link target hfound]

theorem foldlM_loadRecord_tree (ft : Option FileTree) (hfound : load.foundAttr = true)
    (hnone : load.inode.ft = none) : (ft.toList.map treeRecord).foldlM
        (fun load record => loadRecord rdonly load (record ++ [0])) load =
      some { load with inode := { load.inode with
        ft := ft.map (fun t => gxfsTree rdonly t.depth t.head load.fileSize load.fileFlags) } } := by
  cases ft with
  | none => exact congrArg (fun t => some { load with inode := { load.inode with ft := t } }) hnone
  | some tree => simp [loadRecord_tree tree hfound]

/-- The dentries are appended in their order. -/
theorem foldlM_loadRecord_dents (dents : List Dentry) (hfound : load.foundAttr = true) :
    (dents.map dentRecord).foldlM (fun load record => loadRecord rdonly load (record ++ [0])) load =
      some { load with inode := { load.inode with
        dents := load.inode.dents ++ dents.map fun dent => { dent with flags := 0 } } } := by
  induction dents generalizing load with
  | nil => simp
  | cons dent dents ih =>
    rw [List.map_cons, List.foldlM_cons, loadRecord_dent dent hfound, Option.bind_eq_bind,
      Option.bind_some]
    refine Eq.trans (ih ?_) ?_
    · exact hfound
    · simp

/-- What loading gives back of an inode: the committed dentries, and 16 bits of the owner and the
group. -/
def reloaded (inode : Inode) : Inode :=
  { inode with
    uid := inode.uid % 0x10000
    gid := inode.gid % 0x10000
    dents := (inode.dents.filter (·.Saved)).map fun dent => { dent with flags := 0 }
    ft := inode.ft.map fun ft => { ft with flags := ft.flags &&& FT_FIXED_SIZE } }

theorem gxfsTree_arFlags {inode : Inode} {ft : FileTree} (h : inode.mode < 0x10000)
    (hft : inode.ft = some ft) : gxfsTree false ft.depth ft.head ft.size (arFlags inode) =
      { ft with flags := ft.flags &&& FT_FIXED_SIZE } := by
  have hflags : (if ft.flags &&& FT_FIXED_SIZE ≠ 0 then FT_FIXED_SIZE else 0) =
      ft.flags &&& FT_FIXED_SIZE := by
    have hbit : (ft.flags &&& FT_FIXED_SIZE).toNat = (ft.flags.toNat.testBit 2).toNat * 4 := by
      rw [UInt32.toNat_and]
      exact Nat.and_two_pow ft.flags.toNat 2
    rw [← UInt32.toNat_inj, hbit]
    cases hb : ft.flags.toNat.testBit 2 with
    | false =>
      rw [hb] at hbit
      rw [if_neg (not_not_intro (UInt32.toNat_inj.1 (hbit.trans rfl)))]
      rfl
    | true =>
      rw [hb] at hbit
      rw [if_pos fun e => by rw [e] at hbit; exact absurd hbit (by decide)]
      rfl
  simp only [gxfsTree, arFlags_fixed h hft, hflags]
  simp

/-- Loading the records of an inode. -/
theorem foldlM_loadRecord_inodeRecords (inode : Inode) (hmode : inode.mode < 0x10000) :
    ∃ load, (inodeRecords inode).foldlM (fun load record => loadRecord false load (record ++ [0]))
        ⟨newInode inode.ino, false, 0, 0⟩ = some load ∧ load.foundAttr = true ∧
      load.inode = { reloaded inode with blocks := [] } := by
  have hft : inode.ft.map (fun t => gxfsTree false t.depth t.head (inode.ft.elim 0 FileTree.size)
      (arFlags inode)) = (reloaded inode).ft := by
    cases hft : inode.ft with
    | none => simp [reloaded, hft]
    | some ft => simp [reloaded, hft, ← gxfsTree_arFlags hmode hft]
  refine ⟨⟨{ reloaded inode with blocks := [] }, true, inode.ft.elim 0 FileTree.size,
    arFlags inode⟩, ?_, rfl, rfl⟩
  · rw [inodeRecords, List.foldlM_append, List.foldlM_append, List.foldlM_append, List.foldlM_cons,
      loadRecord_attr, Option.bind_eq_bind, Option.bind_some, List.foldlM_cons,
      loadRecord_acl inode rfl, Option.bind_eq_bind, Option.bind_some, List.foldlM_nil,
      Option.pure_def, Option.bind_some, foldlM_loadRecord_link inode.target rfl rfl,
      Option.bind_some, foldlM_loadRecord_dents _ rfl, Option.bind_some,
      foldlM_loadRecord_tree inode.ft rfl rfl]
    simp only [hft, newInode, arFlags_mode hmode, List.nil_append]
    rfl

end Load

/-! ## The round trip -/

section RoundTrip

variable {v v' : Volume} {inode inode' : Inode} {junk : ℕ → Bytes} {free rest : List ℕ}

/-- A chain that starts with the records of an inode is loaded as that inode. -/
theorem gxfsLoadInode_of_chain {blocks : List ℕ} {pad : ℕ} (hmode : inode.mode < 0x10000)
    (hrd : v.rdonly = false) (hio : ∀ b, v.ioOk b = true) (hino : inode.ino.toNat ≠ 0)
    (hpad : pad < 4088)
    (hchain : InodeChain v inode.ino.toNat blocks
      ((inodeRecords inode).flatten ++ List.replicate pad 0)) {fuel : ℕ}
    (hfuel : (inodeRecords inode).length < fuel) :
    gxfsLoadInode v fuel (newInode inode.ino) = some { reloaded inode with blocks := blocks } := by
  obtain ⟨load, hload, hfound, hinode⟩ := foldlM_loadRecord_inodeRecords inode hmode
  obtain ⟨todo, rfl, hlinked⟩ := hchain.linked.exists_cons hino
  have hdata := hchain.data
  rw [List.flatMap_cons] at hdata
  have hreading : Reading v ⟨v.disk inode.ino.toNat, 8, [inode.ino.toNat]⟩ todo
      ((inodeRecords inode).flatten ++ List.replicate pad 0) := ⟨hlinked, by simp, hdata⟩
  have hrecords := loadRecords_spec hio hpad (recordOk_inodeRecords inode) hreading (by simp)
    (by rw [hrd]; exact hload) hfuel
  have hread : gxfsReadBlock v (newInode inode.ino).ino.toNat = some (v.disk inode.ino.toNat) :=
    if_pos (hio _)
  rw [gxfsLoadInode, hread, Option.bind_eq_bind, Option.bind_some]
  refine Eq.trans (congrArg (Option.bind · _) hrecords) ?_
  simp only [Option.bind_some, hfound, if_true, hinode]
  rfl

/-- What is loaded after a flush, of an owner and a group of any size. -/
theorem gxfsLoadInode_of_flush (hrd : v.rdonly = false) (hmode : inode.mode < 0x10000)
    (hblocks : inode.blocks = inode.ino.toNat :: rest) (hnodup : inode.blocks.Nodup)
    (howned : Owned v free inode.blocks) (hf : gxfsFlushInode v inode junk = some (v', inode'))
    {fuel : ℕ} (hfuel : (inodeRecords inode).length < fuel) :
    gxfsLoadInode v' fuel (newInode inode.ino) =
      some { reloaded inode with blocks := inode'.blocks } := by
  obtain ⟨-, hio, hrd', pad, hpad, hchain⟩ := gxfsFlushInode_spec hrd hblocks hnodup howned hf
  exact gxfsLoadInode_of_chain hmode hrd' hio (howned.used_ne _ (by simp [hblocks])).1 hpad hchain
    hfuel

/-- Flushing an inode of a volume that is not mounted read-only and loading it again gives the inode
back: its attributes, access control list, target and file tree, the dentries that are committed to
disk, and the block list that the flush stored. -/
theorem gxfsLoadInode_gxfsFlushInode (hrd : v.rdonly = false) (hmode : inode.mode < 0x10000)
    (huid : inode.uid < 0x10000) (hgid : inode.gid < 0x10000)
    (hblocks : inode.blocks = inode.ino.toNat :: rest) (hnodup : inode.blocks.Nodup)
    (howned : Owned v free inode.blocks) (hf : gxfsFlushInode v inode junk = some (v', inode')) :
    ∃ n, ∀ fuel ≥ n, gxfsLoadInode v' fuel (newInode inode.ino) = some
      { inode with
        dents := (inode.dents.filter (·.Saved)).map fun dent => { dent with flags := 0 }
        ft := inode.ft.map fun ft => { ft with flags := ft.flags &&& FT_FIXED_SIZE }
        blocks := inode'.blocks } := by
  refine ⟨(inodeRecords inode).length + 1, fun fuel hfuel => ?_⟩
  rw [gxfsLoadInode_of_flush hrd hmode hblocks hnodup howned hf hfuel, reloaded,
    mod_low huid, mod_low hgid]

end RoundTrip

section Example

/-- A volume of 16 MB as `mkgxfs` leaves it. -/
def exampleVolume : Volume :=
  gxfsOpenRoot (mkgxfsBody 0x1000000 0) 0 (fun _ _ => 0) fun _ => true

/-- A directory of the user `uid` with one entry. -/
def exampleInode (uid : UInt64) : Inode :=
  { newInode 8 with
    mode := 0x11ED
    uid := uid
    dents := [⟨⟨[0x61], by decide, by decide⟩, 9, 0⟩]
    blocks := [8] }

theorem exampleVolume_owned : Owned exampleVolume [] [8] where
  linked := rfl
  nodup := List.nodup_nil
  free_lt _ hb := absurd hb List.not_mem_nil
  used_lt := Or.inr (by decide)
  used_ne := by decide
  counter := by decide
  io _ := by simp [exampleVolume, gxfsOpenRoot]

theorem gxfsLoadInode_gxfsFlushInode_example : ∃ v' inode' n,
    gxfsFlushInode exampleVolume (exampleInode 0) (fun _ _ => 0) = some (v', inode') ∧
    ∀ fuel ≥ n, gxfsLoadInode v' fuel (newInode 8) = some
      { exampleInode 0 with blocks := inode'.blocks } := by
  have hflush : (gxfsFlushInode exampleVolume (exampleInode 0) fun _ _ => 0).isSome = true := by
    set_option maxRecDepth 4000 in decide
  obtain ⟨⟨v', inode'⟩, hf⟩ := Option.isSome_iff_exists.1 hflush
  obtain ⟨n, hload⟩ := gxfsLoadInode_gxfsFlushInode (by simp [exampleVolume, gxfsOpenRoot])
    (by decide) (by decide) (by decide) rfl (List.nodup_singleton 8) exampleVolume_owned hf
  exact ⟨v', inode', n, hf, hload⟩

/-- The record has 16 bits for the owner: the inode of user 65536 is loaded as one of user 0. -/
theorem gxfsFlushInode_loses_uid : ∃ v' inode' n,
    gxfsFlushInode exampleVolume (exampleInode 0x10000) (fun _ _ => 0) = some (v', inode') ∧
    ∀ fuel ≥ n, ∃ loaded, gxfsLoadInode v' fuel (newInode 8) = some loaded ∧
      loaded.uid = 0 ∧ (exampleInode 0x10000).uid = 0x10000 := by
  have hflush : (gxfsFlushInode exampleVolume (exampleInode 0x10000) fun _ _ => 0).isSome = true := by
    set_option maxRecDepth 4000 in decide
  obtain ⟨⟨v', inode'⟩, hf⟩ := Option.isSome_iff_exists.1 hflush
  refine ⟨v', inode', _, hf, fun fuel hfuel => ⟨_, gxfsLoadInode_of_flush
    (by simp [exampleVolume, gxfsOpenRoot]) (by decide) rfl (List.nodup_singleton 8)
    exampleVolume_owned hf (Nat.lt_of_succ_le hfuel), rfl, rfl⟩⟩

end Example

end Glidix.Gxfs
