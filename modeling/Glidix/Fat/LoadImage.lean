import Glidix.Lib.Follow
import Glidix.Fat.Directory

/-!
# Loading a directory from any image

Here the image may hold anything, and reads may fall short.  `longname`, `convbuf` and `namebuf` are
arrays, and every byte that is stored into them is recorded.  All stores are inside the arrays
(`load_inside`), but a chain of clusters is followed for as long as it goes, which ends exactly if it
does not come to a cluster twice, and a cluster may be too small for a directory entry
(`load_right_iff`).
-/

namespace Glidix.Fat.Image

open Bytes
open Fat.Fatfs (attrOf clusterOf)

/-! ## The volume -/

/-- An inode in the virtual inode table: `clusters` is the array that is allocated, and a null pointer if
it is empty. -/
structure FATInodeTable where
  ino : ℕ
  dentpos : UInt64
  clusters : List UInt32
  numClusters : ℕ
  num_le : numClusters ≤ clusters.length
  csize : UInt32
  cattr : UInt8

/-- The image is read by `vfsPRead`, which may return less than it was asked for. -/
structure Fatfs where
  vfsPRead : UInt64 → ℕ → List UInt8
  fatpos : UInt64
  clusterPos : UInt64
  clusterSize : UInt64
  nextIno : ℕ
  itab : List FATInodeTable

namespace Fatfs

variable (v : Fatfs)

/-- The entry of the FAT for a cluster. -/
def readFat (cluster : UInt32) : Option UInt32 :=
  let data := v.vfsPRead (v.fatpos + (4 * cluster).toUInt64) 4
  if data.length = 4 then some (UInt32.ofNat (leAt 0 4 data)) else none

/-- The loop condition of `readClusterChain`. -/
def InChain (cluster : UInt32) : Prop := cluster ≠ 0 ∧ cluster < 0x0FFFFFF7

instance (cluster : UInt32) : Decidable (InChain cluster) := inferInstanceAs (Decidable (_ ∧ _))

/-- The clusters of a chain; `none` if the loop takes more than `fuel` rounds. -/
def readClusterChain : (fuel : ℕ) → UInt32 → Option (List UInt32)
  | 0, _ => none
  | fuel + 1, cluster =>
    if InChain cluster then
      match v.readFat cluster with
      | none => some [cluster]
      | some next => (readClusterChain fuel (next &&& 0x0FFFFFFF)).map (cluster :: ·)
    else some []

/-- A new inode in the table. -/
def newItab (clusters : List UInt32) : Fatfs :=
  { v with
    itab := ⟨v.nextIno, 0, clusters, clusters.length, le_rfl, 0, 0⟩ :: v.itab
    nextIno := v.nextIno + 1 }

/-- The place in the table of the inode whose chain starts with a cluster, or of a new one. -/
def getInodeInfoByCluster (fuel : ℕ) (cluster : UInt32) : Option (ℕ × Fatfs) :=
  match v.itab.findIdx? fun t => t.clusters.head? = some cluster with
  | some i => some (i, v)
  | none => (v.readClusterChain fuel cluster).map fun clusters => (0, v.newItab clusters)

end Fatfs

/-! ## Buffers for names -/

inductive Buffer where
  | longname
  | convbuf
  | namebuf
  deriving DecidableEq

def Buffer.size : Buffer → ℕ
  | .longname => 256
  | .convbuf => 16
  | .namebuf => 13

/-- The contents of `longname`, the index `longput` points to, and the stores into all buffers. -/
structure Names where
  longname : ℕ → UInt8
  longput : ℕ
  stores : List (Buffer × ℕ)

namespace Names

variable (n : Names)

def record (b : Buffer) (i : ℕ) : Names := { n with stores := n.stores ++ [(b, i)] }

/-- `longput = &longname[255]; *longput = 0` -/
def reset : Names :=
  { n.record .longname 255 with longname := Function.update n.longname 255 0, longput := 255 }

/-- The loops that fill `convbuf`. -/
def convLoop : (chars : List ℕ) → (convbuf : List UInt8) → Names → List UInt8 × Names
  | [], convbuf, n => (convbuf ++ [0], n.record .convbuf convbuf.length)
  | c :: chars, convbuf, n => convLoop chars (convbuf ++ [convChar c]) (n.record .convbuf convbuf.length)

/-- `memcpy` to `longput`. -/
def copyPiece : (piece : List UInt8) → (i : ℕ) → Names → Names
  | [], _, n => n
  | c :: piece, i, n =>
    copyPiece piece (i + 1) { n.record .longname i with longname := Function.update n.longname i c }

/-- A piece is put in front of the long name, if there is room. -/
def putPiece (piece : List UInt8) : Names :=
  if piece.length ≤ n.longput then
    copyPiece piece (n.longput - piece.length) { n with longput := n.longput - piece.length }
  else n

/-- The first piece starts a new name. -/
def startPiece (ent : List UInt8) : Names := if leAt 0 1 ent &&& 0x40 ≠ 0 then n.reset else n

/-- What is done for a long entry. -/
def addLong (ent : List UInt8) : Names :=
  let (convbuf, n) := convLoop (longChars ent) [] (n.startPiece ent)
  n.putPiece (convbuf.takeWhile (· ≠ 0))

/-- The loop that fills `namebuf` from a short name. -/
def nameLoop : (filename : List UInt8) → (j : ℕ) → (dotPending : Bool) → (namebuf : List UInt8) → Names →
    List UInt8 × Names
  | [], _, _, namebuf, n => (namebuf ++ [0], n.record .namebuf namebuf.length)
  | c :: filename, j, dotPending, namebuf, n =>
    if c = BLANK then nameLoop filename (j + 1) dotPending namebuf n
    else if 8 ≤ j ∧ dotPending then
      nameLoop filename (j + 1) false (namebuf ++ [DOT, c])
        ((n.record .namebuf namebuf.length).record .namebuf (namebuf.length + 1))
    else nameLoop filename (j + 1) dotPending (namebuf ++ [c]) (n.record .namebuf namebuf.length)

/-- The string at `longput`. -/
def longString : List UInt8 :=
  ((List.range (256 - n.longput)).map fun k => n.longname (n.longput + k)).takeWhile (· ≠ 0)

end Names

/-! ## Loading -/

structure LoadState where
  fs : Fatfs
  names : Names
  /-- The names and inode numbers of the directory entries. -/
  dents : List (List UInt8 × ℕ)

/-- How `fatfsLoadInode` ends. -/
inductive Outcome where
  | done (result : ℤ) (st : LoadState)
  /-- A chain of clusters takes too many rounds. -/
  | hangs (st : LoadState)
  /-- There is no room for an entry in a cluster. -/
  | divides (st : LoadState)

def Outcome.state : Outcome → LoadState
  | .done _ st => st
  | .hangs st => st
  | .divides st => st

namespace Fatfs

variable (v : Fatfs)

/-- A directory entry. -/
def readDent (pos : UInt64) : Option (List UInt8) :=
  let data := v.vfsPRead pos 32
  if data.length = 32 then some data else none

def dentsPerCluster : ℕ := v.clusterSize.toNat / 32

/-- The position of the entry `i` of a directory. -/
def dentPos (t : FATInodeTable) (i : ℕ) : UInt64 :=
  v.clusterPos + v.clusterSize * (t.clusters.getD (i / v.dentsPerCluster) 0 - 2).toUInt64 +
    32 * UInt64.ofNat (i % v.dentsPerCluster)

end Fatfs

/-- An inode has this entry. -/
def FATInodeTable.setEntry (pos : UInt64) (ent : List UInt8) (t : FATInodeTable) : FATInodeTable :=
  { t with dentpos := pos, csize := UInt32.ofNat (leAt 28 4 ent), cattr := attrOf ent }

/-- The entry gets its inode and its name. -/
def LoadState.append (st : LoadState) (pos : UInt64) (ent : List UInt8) (i : ℕ) (fs : Fatfs) : LoadState :=
  let fs := { fs with itab := fs.itab.modify i (FATInodeTable.setEntry pos ent) }
  let ino := (fs.itab[i]?).elim 0 FATInodeTable.ino
  if st.names.longname st.names.longput = 0 then
    let (namebuf, names) := Names.nameLoop (ent.take 11) 0 true [] st.names
    ⟨fs, names.reset, st.dents ++ [(namebuf.takeWhile (· ≠ 0), ino)]⟩
  else ⟨fs, st.names.reset, st.dents ++ [(st.names.longString, ino)]⟩

/-- A long entry is taken in. -/
def LoadState.takeLong (st : LoadState) (ent : List UInt8) : LoadState :=
  if attrOf ent = FAT_ATTR_LFN then { st with names := st.names.addLong ent } else st

/-- The loop over the entries; `is` are the indices that are left. -/
def loadLoop (fuel : ℕ) (t : FATInodeTable) : (is : List ℕ) → LoadState → Outcome
  | [], st => .done 0 st
  | i :: is, st =>
    match st.fs.readDent (st.fs.dentPos t i) with
    | none => .done 0 st
    | some ent =>
      let first := ent.getD 0 0
      if first = 0 then .done 0 st
      else if first = 0xE5 then loadLoop fuel t is { st with names := st.names.reset }
      else if first = DOT then loadLoop fuel t is st
      else
        let st := st.takeLong ent
        if attrOf ent &&& FAT_ATTR_HIDDEN ≠ 0 then loadLoop fuel t is st
        else
          match st.fs.getInodeInfoByCluster fuel (clusterOf ent) with
          | none => .hangs st
          | some (k, fs) => loadLoop fuel t is (st.append (st.fs.dentPos t i) ent k fs)

namespace Fatfs

/-- What is on the stack where `longname` is put. -/
def startState (v : Fatfs) (garbage : ℕ → UInt8) : LoadState := ⟨v, (Names.mk garbage 255 []).reset, []⟩

/-- An inode is a directory; nothing if its entry cannot be read. -/
def isDir (v : Fatfs) (t : FATInodeTable) : Option Bool :=
  if t.dentpos = 0 then some true
  else (v.readDent t.dentpos).map fun info => attrOf info &&& FAT_ATTR_DIR ≠ 0

/-- `fatfsLoadInode`, from the stack with this garbage. -/
def fatfsLoadInode (v : Fatfs) (garbage : ℕ → UInt8) (fuel ino : ℕ) : Outcome :=
  let unused : LoadState := ⟨v, ⟨garbage, 255, []⟩, []⟩
  match v.itab.find? fun t => t.ino = ino with
  | none => .done (-1) unused
  | some t =>
    match v.isDir t with
    | none => .done (-1) unused
    | some false => .done 0 unused
    | some true =>
      if v.dentsPerCluster = 0 then .divides (v.startState garbage)
      else loadLoop fuel t (List.range (t.numClusters * v.dentsPerCluster)) (v.startState garbage)

end Fatfs

/-! ## Stores inside the buffers -/

namespace Names

/-- `longput` points into `longname`, and all stores were inside their buffers. -/
structure Inside (n : Names) : Prop where
  longput_le : n.longput ≤ 255
  stores_lt : ∀ s ∈ n.stores, s.2 < s.1.size

variable {n : Names} {chars : List ℕ} {convbuf piece namebuf filename ent : List UInt8} {b : Buffer}
  {i j : ℕ} {dotPending : Bool}

theorem Inside.record (h : n.Inside) (hi : i < b.size) : (n.record b i).Inside := by
  refine ⟨h.longput_le, fun s hs => ?_⟩
  rcases List.mem_append.1 hs with hs | hs
  · exact h.stores_lt s hs
  · obtain rfl := List.mem_singleton.1 hs
    exact hi

theorem Inside.reset (h : n.Inside) : n.reset.Inside :=
  ⟨le_rfl, (h.record (b := .longname) (i := 255) (by decide)).stores_lt⟩

theorem Inside.convLoop (h : n.Inside) (hfit : convbuf.length + chars.length < 16) :
    (convLoop chars convbuf n).2.Inside := by
  induction chars generalizing convbuf n with
  | nil => exact h.record hfit
  | cons c chars ih =>
    rw [List.length_cons] at hfit
    refine ih (h.record (b := .convbuf) ?_) ?_
    · change convbuf.length < 16
      omega
    · rw [List.length_append, List.length_singleton]
      omega

theorem Inside.copyPiece (h : n.Inside) (hfit : i + piece.length ≤ 256) :
    (copyPiece piece i n).Inside := by
  induction piece generalizing i n with
  | nil => exact h
  | cons c piece ih =>
    rw [List.length_cons] at hfit
    have hrecord : (n.record .longname i).Inside := h.record (by change i < 256; omega)
    exact ih ⟨hrecord.longput_le, hrecord.stores_lt⟩ (by omega)

theorem Inside.putPiece (h : n.Inside) : (n.putPiece piece).Inside := by
  have hle := h.longput_le
  unfold Names.putPiece
  split_ifs with hroom
  · have hput : (⟨n.longname, n.longput - piece.length, n.stores⟩ : Names).Inside :=
      ⟨le_trans (Nat.sub_le _ _) hle, h.stores_lt⟩
    exact hput.copyPiece (by omega)
  · exact h

theorem Inside.addLong (h : n.Inside) : (n.addLong ent).Inside := by
  have hstart : (n.startPiece ent).Inside := by
    unfold startPiece
    split_ifs
    · exact h.reset
    · exact h
  have hconv : (Names.convLoop (longChars ent) [] (n.startPiece ent)).2.Inside :=
    hstart.convLoop (by simp [longChars])
  exact hconv.putPiece

/-- A name of 11 characters takes 13 bytes at most. -/
theorem Inside.nameLoop (h : n.Inside)
    (hfit : namebuf.length + filename.length + (if dotPending then 1 else 0) < 13) :
    (nameLoop filename j dotPending namebuf n).2.Inside := by
  induction filename generalizing j dotPending namebuf n with
  | nil => exact h.record (by change namebuf.length < 13; omega)
  | cons c filename ih =>
    rw [List.length_cons] at hfit
    rw [Names.nameLoop]
    split_ifs with hblank hdot
    · exact ih h (by omega)
    · rw [hdot.2, if_pos rfl] at hfit
      refine ih ((h.record (b := .namebuf) ?_).record (b := .namebuf) ?_) ?_
      · change namebuf.length < 13
        omega
      · change namebuf.length + 1 < 13
        omega
      · rw [List.length_append, if_neg (by decide)]
        change namebuf.length + 2 + filename.length + 0 < 13
        omega
    · refine ih (h.record (b := .namebuf) ?_) ?_
      · change namebuf.length < 13
        omega
      · rw [List.length_append, List.length_singleton]
        omega

end Names

section Inside

variable {v fs : Fatfs} {t : FATInodeTable} {st : LoadState} {pos : UInt64} {ent : List UInt8}
  {is : List ℕ} {garbage : ℕ → UInt8} {fuel ino k : ℕ}

theorem append_inside (h : st.names.Inside) : (st.append pos ent k fs).names.Inside := by
  unfold LoadState.append
  dsimp only
  split_ifs with hshort
  · refine (h.nameLoop ?_).reset
    rw [List.length_take, if_pos rfl, List.length_nil]
    omega
  · exact h.reset

theorem takeLong_inside (h : st.names.Inside) : (st.takeLong ent).names.Inside := by
  have hlong : (st.names.addLong ent).Inside := h.addLong
  by_cases hlfn : attrOf ent = FAT_ATTR_LFN
  · rw [LoadState.takeLong, if_pos hlfn]
    dsimp only
    exact hlong
  · rw [LoadState.takeLong, if_neg hlfn]
    exact h

theorem loadLoop_inside (h : st.names.Inside) : (loadLoop fuel t is st).state.names.Inside := by
  induction is generalizing st with
  | nil => exact h
  | cons i is ih =>
    rw [loadLoop]
    cases st.fs.readDent (st.fs.dentPos t i) with
    | none => exact h
    | some ent =>
      dsimp only
      split_ifs with hend hdeleted hdot hhidden
      · exact h
      · exact ih h.reset
      · exact ih h
      · exact ih (takeLong_inside h)
      · cases (st.takeLong ent).fs.getInodeInfoByCluster fuel (clusterOf ent) with
        | none => exact takeLong_inside h
        | some r => exact ih (append_inside (takeLong_inside h))

theorem load_inside : (v.fatfsLoadInode garbage fuel ino).state.names.Inside := by
  have hunused : (⟨garbage, 255, []⟩ : Names).Inside := ⟨le_rfl, fun s hs => by cases hs⟩
  unfold Fatfs.fatfsLoadInode
  dsimp only
  cases v.itab.find? fun t => t.ino = ino with
  | none => exact hunused
  | some t =>
    dsimp only
    cases v.isDir t with
    | none => exact hunused
    | some dir =>
      cases dir with
      | false => exact hunused
      | true =>
        dsimp only
        split_ifs
        · exact hunused.reset
        · exact loadLoop_inside hunused.reset

end Inside

/-! ## Chains that end -/

namespace Fatfs

variable {v fs fs' : Fatfs} {t : FATInodeTable} {cluster c : UInt32} {clusters : List UInt32}
  {fuel k : ℕ}

/-- The cluster that the loop of `readClusterChain` goes on with. -/
def link (v : Fatfs) (cluster : UInt32) : Option UInt32 :=
  if InChain cluster then (v.readFat cluster).map (· &&& 0x0FFFFFFF) else none

theorem readClusterChain_isSome :
    (v.readClusterChain fuel cluster).isSome ↔ follow v.link fuel cluster = none := by
  induction fuel generalizing cluster with
  | zero => simp [readClusterChain, follow]
  | succ fuel ih =>
    rw [readClusterChain]
    by_cases hin : InChain cluster
    · rw [if_pos hin]
      cases hread : v.readFat cluster with
      | none => simp [follow, link, hin, hread]
      | some next =>
        have hlink : v.link cluster = some (next &&& 0x0FFFFFFF) := by
          rw [link, if_pos hin, hread, Option.map_some]
        rw [follow_succ hlink, ← ih, Option.isSome_map]
    · have hlink : v.link cluster = none := by
        rw [link, if_neg hin]
      rw [if_neg hin, follow_succ_none hlink]
      simp

/-- The number of rounds after which a chain that ends has ended. -/
noncomputable def rounds : ℕ := Nat.card UInt32 + 1

theorem finite_uint32 : Finite UInt32 :=
  Finite.of_injective UInt32.toFin fun _ _ h => UInt32.toFin_inj.1 h

theorem simple_of_isSome (h : (v.readClusterChain fuel cluster).isSome) : SimpleWay v.link cluster :=
  .of_ends (readClusterChain_isSome.1 h)

theorem isSome_of_simple (h : SimpleWay v.link cluster) : (v.readClusterChain rounds cluster).isSome := by
  have := finite_uint32
  exact readClusterChain_isSome.2 h.ends

/-- A chain that is not empty starts with its first cluster. -/
theorem head_readClusterChain (h : v.readClusterChain fuel cluster = some clusters)
    (hc : clusters.head? = some c) : c = cluster := by
  cases fuel with
  | zero => cases h
  | succ fuel =>
    rw [readClusterChain] at h
    split_ifs at h
    · cases hread : v.readFat cluster with
      | none =>
        rw [hread] at h
        obtain rfl := Option.some.inj h
        exact (Option.some.inj hc).symm
      | some next =>
        rw [hread] at h
        obtain ⟨rest, -, rfl⟩ := Option.map_eq_some_iff.1 h
        exact (Option.some.inj hc).symm
    · obtain rfl := Option.some.inj h
      cases hc

/-- An inode in the table has a chain that starts with this cluster. -/
def Known (v : Fatfs) (cluster : UInt32) : Prop := some cluster ∈ v.itab.map fun t => t.clusters.head?

/-- The image and its layout are the same, and the inodes that are new in the table have chains that
end. -/
structure Extends (v fs : Fatfs) : Prop where
  image : fs.vfsPRead = v.vfsPRead ∧ fs.fatpos = v.fatpos ∧ fs.clusterPos = v.clusterPos ∧
    fs.clusterSize = v.clusterSize
  known : ∀ c, v.Known c → fs.Known c
  new : ∀ c, fs.Known c → v.Known c ∨ SimpleWay v.link c

theorem Extends.refl (v : Fatfs) : v.Extends v :=
  ⟨⟨rfl, rfl, rfl, rfl⟩, fun _ h => h, fun _ h => Or.inl h⟩

theorem Extends.readDent (h : v.Extends fs) : fs.readDent = v.readDent := by
  unfold Fatfs.readDent
  rw [h.image.1]

theorem Extends.dentPos (h : v.Extends fs) : fs.dentPos = v.dentPos := by
  obtain ⟨-, -, hpos, hsize⟩ := h.image
  unfold Fatfs.dentPos dentsPerCluster
  rw [hpos, hsize]

theorem Extends.link (h : v.Extends fs) : fs.link = v.link := by
  obtain ⟨hread, hpos, -, -⟩ := h.image
  unfold Fatfs.link readFat
  rw [hread, hpos]

theorem Extends.getInode (h : v.Extends fs)
    (hget : fs.getInodeInfoByCluster fuel cluster = some (k, fs')) :
    v.Extends fs' ∧ (v.Known cluster ∨ SimpleWay v.link cluster) := by
  unfold getInodeInfoByCluster at hget
  cases hfind : fs.itab.findIdx? fun t => t.clusters.head? = some cluster with
  | some i =>
    rw [hfind] at hget
    obtain ⟨-, rfl⟩ := Prod.mk.inj (Option.some.inj hget)
    obtain ⟨hi, hhead, -⟩ := List.findIdx?_eq_some_iff_getElem.1 hfind
    have hknown : fs.Known cluster :=
      List.mem_map.2 ⟨fs.itab[i], List.getElem_mem hi, of_decide_eq_true hhead⟩
    exact ⟨h, h.new cluster hknown⟩
  | none =>
    rw [hfind] at hget
    obtain ⟨clusters, hchain, heq⟩ := Option.map_eq_some_iff.1 hget
    obtain ⟨-, rfl⟩ := Prod.mk.inj heq
    have hsimple : SimpleWay v.link cluster := by
      rw [← h.link]
      exact simple_of_isSome (by rw [hchain]; rfl)
    refine ⟨⟨h.image, fun c hc => List.mem_cons_of_mem _ (h.known c hc), fun c hc => ?_⟩,
      Or.inr hsimple⟩
    rcases List.mem_cons.1 hc with hhead | hold
    · rw [head_readClusterChain hchain hhead.symm]
      exact Or.inr hsimple
    · exact h.new c hold

theorem exists_getInode (h : v.Extends fs) (hc : v.Known cluster ∨ SimpleWay v.link cluster) :
    ∃ k fs', fs.getInodeInfoByCluster rounds cluster = some (k, fs') := by
  unfold getInodeInfoByCluster
  cases hfind : fs.itab.findIdx? fun t => t.clusters.head? = some cluster with
  | some i => exact ⟨i, fs, rfl⟩
  | none =>
    rcases hc with hknown | hsimple
    · obtain ⟨t, ht, hhead⟩ := List.mem_map.1 (h.known cluster hknown)
      have hne := List.findIdx?_eq_none_iff.1 hfind t ht
      exact absurd hhead (of_decide_eq_false hne)
    · rw [← h.link] at hsimple
      obtain ⟨clusters, hchain⟩ := Option.isSome_iff_exists.1 (isSome_of_simple hsimple)
      exact ⟨0, fs.newItab clusters, by rw [hchain, Option.map_some]⟩

end Fatfs

theorem map_modify {α β : Type*} {l : List α} {f : α → α} {g : α → β} (hf : ∀ a, g (f a) = g a) (i : ℕ) :
    (l.modify i f).map g = l.map g := by
  refine List.ext_getElem? fun n => ?_
  rw [List.getElem?_map, List.getElem?_map, List.getElem?_modify]
  cases l[n]? with
  | none => rfl
  | some a =>
    simp only [Option.map_eq_map, Option.map_some]
    split_ifs
    · rw [hf]
    · rfl

section Loop

variable {v : Fatfs} {t : FATInodeTable} {st : LoadState} {pos : UInt64} {ent : List UInt8}
  {fuel i k a m ino : ℕ} {fs : Fatfs}

/-- The chains of clusters in the table stay as they are. -/
theorem append_extends (h : v.Extends fs) : v.Extends (st.append pos ent k fs).fs := by
  have hitab : (st.append pos ent k fs).fs =
      { fs with itab := fs.itab.modify k (FATInodeTable.setEntry pos ent) } := by
    unfold LoadState.append
    dsimp only
    split_ifs <;> rfl
  have hknown (c : UInt32) : (st.append pos ent k fs).fs.Known c ↔ fs.Known c := by
    have hheads : (fs.itab.modify k (FATInodeTable.setEntry pos ent)).map (fun t => t.clusters.head?) =
        fs.itab.map fun t => t.clusters.head? :=
      map_modify (f := FATInodeTable.setEntry pos ent) (fun _ => rfl) k
    rw [hitab]
    unfold Fatfs.Known
    dsimp only
    rw [hheads]
  refine ⟨?_, fun c hc => (hknown c).2 (h.known c hc), fun c hc => h.new c ((hknown c).1 hc)⟩
  rw [hitab]
  exact h.image

theorem takeLong_fs : (st.takeLong ent).fs = st.fs := by
  unfold LoadState.takeLong
  split_ifs <;> rfl

/-- The entry `i` can be read, and is not the end of the directory. -/
def Fatfs.Live (v : Fatfs) (t : FATInodeTable) (i : ℕ) : Prop :=
  ∃ ent ∈ v.readDent (v.dentPos t i), ent.getD 0 0 ≠ 0

/-- An entry that gets an inode: it is not deleted, not hidden, and does not start with a dot. -/
def Opens (ent : List UInt8) : Prop :=
  ent.getD 0 0 ≠ 0xE5 ∧ ent.getD 0 0 ≠ DOT ∧ attrOf ent &&& FAT_ATTR_HIDDEN = 0

/-- The chain of the entry `i` is known, or ends. -/
def Fatfs.ChainEnds (v : Fatfs) (t : FATInodeTable) (i : ℕ) : Prop :=
  ∀ ent ∈ v.readDent (v.dentPos t i), Opens ent →
    v.Known (clusterOf ent) ∨ SimpleWay v.link (clusterOf ent)

/-- The chains of the entries before the end of the directory end, for `m` entries from `a` on. -/
def Fatfs.ChainsEnd (v : Fatfs) (t : FATInodeTable) (a m : ℕ) : Prop :=
  ∀ i, a ≤ i → i < a + m → (∀ j, a ≤ j → j ≤ i → v.Live t j) → v.ChainEnds t i

theorem chainsEnd_of_dead (hdead : ¬ v.Live t a) : v.ChainsEnd t a m :=
  fun _ hi _ hlive => absurd (hlive a le_rfl hi) hdead

theorem chainsEnd_succ (hlive : v.Live t a) :
    v.ChainsEnd t a (m + 1) ↔ v.ChainEnds t a ∧ v.ChainsEnd t (a + 1) m := by
  constructor
  · refine fun h => ⟨h a le_rfl (by omega) fun j hj hj' => ?_, fun i hi hlt hall => ?_⟩
    · obtain rfl := le_antisymm hj' hj
      exact hlive
    · refine h i (by omega) (by omega) fun j hj hj' => ?_
      rcases Nat.eq_or_lt_of_le hj with rfl | hlt'
      · exact hlive
      · exact hall j hlt' hj'
  · rintro ⟨hfirst, hrest⟩ i hi hlt hall
    rcases Nat.eq_or_lt_of_le hi with rfl | hlt'
    · exact hfirst
    · exact hrest i hlt' (by omega) fun j hj hj' => hall j (by omega) hj'

theorem chainEnds_of_not_opens (hread : v.readDent (v.dentPos t a) = some ent) (hopens : ¬ Opens ent) :
    v.ChainEnds t a := by
  intro ent' hent' hopens'
  obtain rfl : ent = ent' := Option.some.inj (hread.symm.trans hent')
  exact absurd hopens' hopens

theorem chainsEnd_of_done (h : v.Extends st.fs) {result : ℤ} {st' : LoadState}
    (hdone : loadLoop fuel t (List.range' a m) st = .done result st') : v.ChainsEnd t a m := by
  induction m generalizing a st with
  | zero => exact fun i hi hlt => absurd hlt (by omega)
  | succ m ih =>
    rw [List.range'_succ, loadLoop, h.readDent, h.dentPos] at hdone
    cases hread : v.readDent (v.dentPos t a) with
    | none => exact chainsEnd_of_dead (by rintro ⟨ent, hent, -⟩; rw [hread] at hent; cases hent)
    | some ent =>
      rw [hread] at hdone
      dsimp only at hdone
      by_cases hend : ent.getD 0 0 = 0
      · refine chainsEnd_of_dead ?_
        rintro ⟨ent', hent', hne⟩
        obtain rfl : ent = ent' := Option.some.inj (hread.symm.trans hent')
        exact hne hend
      rw [if_neg hend] at hdone
      refine (chainsEnd_succ ⟨ent, hread, hend⟩).2 ?_
      by_cases hdeleted : ent.getD 0 0 = 0xE5
      · rw [if_pos hdeleted] at hdone
        refine ⟨chainEnds_of_not_opens hread fun hopens => hopens.1 hdeleted, ih ?_ hdone⟩
        exact h
      rw [if_neg hdeleted] at hdone
      by_cases hdot : ent.getD 0 0 = DOT
      · rw [if_pos hdot] at hdone
        exact ⟨chainEnds_of_not_opens hread fun hopens => hopens.2.1 hdot, ih h hdone⟩
      rw [if_neg hdot] at hdone
      have hlong : v.Extends (st.takeLong ent).fs := by
        rw [takeLong_fs]
        exact h
      by_cases hhidden : attrOf ent &&& FAT_ATTR_HIDDEN = 0
      · rw [if_neg (not_not_intro hhidden)] at hdone
        cases hget : (st.takeLong ent).fs.getInodeInfoByCluster fuel (clusterOf ent) with
        | none =>
          rw [hget] at hdone
          cases hdone
        | some r =>
          rw [hget] at hdone
          obtain ⟨hext, hends⟩ := hlong.getInode hget
          refine ⟨fun ent' hent' _ => ?_, ih (append_extends hext) hdone⟩
          obtain rfl : ent = ent' := Option.some.inj (hread.symm.trans hent')
          exact hends
      · rw [if_pos hhidden] at hdone
        exact ⟨chainEnds_of_not_opens hread fun hopens => hhidden hopens.2.2, ih hlong hdone⟩

theorem exists_done (h : v.Extends st.fs) (hends : v.ChainsEnd t a m) :
    ∃ st', loadLoop Fatfs.rounds t (List.range' a m) st = .done 0 st' := by
  induction m generalizing a st with
  | zero => exact ⟨st, rfl⟩
  | succ m ih =>
    rw [List.range'_succ, loadLoop, h.readDent, h.dentPos]
    cases hread : v.readDent (v.dentPos t a) with
    | none => exact ⟨st, rfl⟩
    | some ent =>
      dsimp only
      by_cases hend : ent.getD 0 0 = 0
      · rw [if_pos hend]
        exact ⟨st, rfl⟩
      obtain ⟨hfirst, hrest⟩ := (chainsEnd_succ ⟨ent, hread, hend⟩).1 hends
      rw [if_neg hend]
      by_cases hdeleted : ent.getD 0 0 = 0xE5
      · rw [if_pos hdeleted]
        apply ih _ hrest
        exact h
      rw [if_neg hdeleted]
      by_cases hdot : ent.getD 0 0 = DOT
      · rw [if_pos hdot]
        exact ih h hrest
      rw [if_neg hdot]
      have hlong : v.Extends (st.takeLong ent).fs := by
        rw [takeLong_fs]
        exact h
      by_cases hhidden : attrOf ent &&& FAT_ATTR_HIDDEN = 0
      · rw [if_neg (not_not_intro hhidden)]
        have hknown := hfirst ent hread ⟨hdeleted, hdot, hhidden⟩
        obtain ⟨k, fs', hget⟩ := Fatfs.exists_getInode hlong hknown
        rw [hget]
        exact ih (append_extends (hlong.getInode hget).1) hrest
      · rw [if_pos hhidden]
        exact ih hlong hrest

/-- A directory can be loaded: its clusters have room for an entry, and the chains of its entries end
unless they are in the table already. -/
def Fatfs.Loadable (v : Fatfs) (ino : ℕ) : Prop :=
  ∀ t ∈ v.itab.find? (fun t => t.ino = ino), v.isDir t = some true →
    v.dentsPerCluster ≠ 0 ∧ v.ChainsEnd t 0 (t.numClusters * v.dentsPerCluster)

theorem loads_iff {garbage : ℕ → UInt8} :
    (∃ fuel result st, v.fatfsLoadInode garbage fuel ino = .done result st) ↔ v.Loadable ino := by
  unfold Fatfs.fatfsLoadInode Fatfs.Loadable
  cases v.itab.find? fun t => t.ino = ino with
  | none => simp
  | some t =>
    cases hdir : v.isDir t with
    | none => simp [hdir]
    | some dir =>
      cases dir with
      | false => simp [hdir]
      | true =>
        simp only [Option.mem_def, Option.some.injEq, forall_eq', hdir, true_implies]
        by_cases hroom : v.dentsPerCluster = 0
        · simp [hroom]
        · rw [List.range_eq_range']
          simp only [if_neg hroom]
          constructor
          · rintro ⟨fuel, result, st, hdone⟩
            exact ⟨hroom, chainsEnd_of_done (.refl v) hdone⟩
          · rintro ⟨-, hends⟩
            have hstart : v.Extends (v.startState garbage).fs := .refl v
            obtain ⟨st, hdone⟩ := exists_done hstart hends
            exact ⟨_, _, st, hdone⟩

end Loop

/-- A chain is read and an inode is loaded, and no byte is stored outside the buffers. -/
structure Right (v : Fatfs) (garbage : ℕ → UInt8) (cluster : UInt32) (ino : ℕ) : Prop where
  chain : ∃ fuel, (v.readClusterChain fuel cluster).isSome
  load : ∃ fuel result st, v.fatfsLoadInode garbage fuel ino = .done result st
  inside : ∀ fuel, ∀ s ∈ (v.fatfsLoadInode garbage fuel ino).state.names.stores, s.2 < s.1.size

/-- Both functions end exactly if the chains that they follow do not come to a cluster twice, and the
clusters of a directory have room for an entry. -/
theorem load_right_iff (v : Fatfs) (garbage : ℕ → UInt8) (cluster : UInt32) (ino : ℕ) :
    Right v garbage cluster ino ↔ SimpleWay v.link cluster ∧ v.Loadable ino := by
  constructor
  · rintro ⟨⟨fuel, hchain⟩, hload, -⟩
    exact ⟨Fatfs.simple_of_isSome hchain, loads_iff.1 hload⟩
  · rintro ⟨hsimple, hloadable⟩
    exact ⟨⟨_, Fatfs.isSome_of_simple hsimple⟩, loads_iff.2 hloadable, fun fuel =>
      load_inside.stores_lt⟩

/-- An image in whose FAT each entry is 5. -/
def circleImage : Fatfs where
  vfsPRead _ size := if size = 4 then leBytes 4 5 else []
  fatpos := 0
  clusterPos := 0
  clusterSize := 512
  nextIno := 3
  itab := []

/-- The chain of cluster 5 is a circle. -/
theorem load_not_right : ¬ ∀ v : Fatfs, v.clusterSize ≠ 0 → ∀ garbage cluster ino,
    Right v garbage cluster ino := by
  intro h
  obtain ⟨fuel, hchain⟩ := (h circleImage (by decide) (fun _ => 0) 5 2).chain
  have hlink : circleImage.link 5 = some 5 := by decide
  exact Fatfs.simple_of_isSome hchain 0 1 5 (by decide) rfl (follow_succ hlink)

end Glidix.Fat.Image
