import Mathlib.Logic.Function.Basic
import Glidix.Fat.LongName

/-!
# Directories on a FAT volume

`fatfsInodeFlush` writes the entries of a directory into its clusters, and `fatfsLoadInode` reads them back.
A cluster is a row of entries of 32 bytes, and positions in a directory are counted in entries.  All reads and
writes succeed here.
-/

namespace Glidix.Fat

open Bytes

/-! ## The volume -/

/-- What the driver knows of an inode.  The attributes come from entries that are not hidden. -/
structure FATInodeTable where
  /-- The cluster and the place in it of the entry of the inode. -/
  dentpos : Option (UInt32 × ℕ)
  /-- No clusters are for a null pointer. -/
  clusters : List UInt32
  csize : ℕ
  cattr : UInt8
  visible : cattr &&& FAT_ATTR_HIDDEN = 0

/-- `itab` is the virtual inode table, by inode numbers, and `order` the order of its list. -/
structure Fatfs where
  dentsPerCluster : ℕ
  numClusters : ℕ
  fat : UInt32 → UInt32
  dents : UInt32 → ℕ → List UInt8
  itab : ℕ → Option FATInodeTable
  order : List ℕ
  nextIno : ℕ

/-- An entry of zeros. -/
def zeroDent : List UInt8 := List.replicate 32 0

/-- How a function fails. -/
inductive FatError where
  | ENOSPC
  /-- A null pointer is followed. -/
  | nullPointer
  /-- There is no inode in the table for an entry. -/
  | assertion
  /-- A buffer for a name is too small. -/
  | overrun
  /-- A cluster chain has no end. -/
  | endless
  /-- The inode is not in the table. -/
  | missing
  deriving DecidableEq

namespace Fatfs

variable (s : Fatfs)

def modifyItab (ino : ℕ) (f : FATInodeTable → FATInodeTable) : Fatfs :=
  { s with itab := Function.update s.itab ino ((s.itab ino).map f) }

/-- The clusters of an inode. -/
def clustersOf (ino : ℕ) : List UInt32 := (s.itab ino).elim [] FATInodeTable.clusters

/-- Write an entry. -/
def pwriteDent (cluster : UInt32) (place : ℕ) (dent : List UInt8) : Fatfs :=
  { s with dents := Function.update s.dents cluster (Function.update (s.dents cluster) place dent) }

/-- The first cluster that is free, 0 if there is none. -/
def getFreeCluster : UInt32 :=
  ((List.range' 2 (s.numClusters - 2)).find? fun i => s.fat (UInt32.ofNat i) = 0).elim 0 UInt32.ofNat

/-- A new cluster behind the last one; with no clusters there is no last one. -/
def expandClusterChain (ino : ℕ) : Except FatError Fatfs :=
  let newCluster := s.getFreeCluster
  if newCluster = 0 then .error .ENOSPC
  else
    match (s.clustersOf ino).getLast? with
    | none => .error .nullPointer
    | some prevCluster =>
      .ok { s.modifyItab ino fun t => { t with clusters := t.clusters ++ [newCluster] } with
        dents := Function.update s.dents newCluster fun _ => zeroDent
        fat := Function.update (Function.update s.fat newCluster 0x0FFFFFFF) prevCluster newCluster }

/-- The chain is expanded until it has a cluster; it lacks `n` clusters at most. -/
def expandTo (ino clusterIndex : ℕ) : (n : ℕ) → Fatfs → Except FatError Fatfs
  | 0, s => .ok s
  | n + 1, s =>
    if (s.clustersOf ino).length ≤ clusterIndex then
      match s.expandClusterChain ino with
      | .error e => .error e
      | .ok s => expandTo ino clusterIndex n s
    else .ok s

/-- Where an entry of a directory is, after its chain was expanded as far as that. -/
def locate (ino pos : ℕ) : Except FatError (Fatfs × UInt32 × ℕ) :=
  let clusterIndex := pos / s.dentsPerCluster
  match expandTo ino clusterIndex (clusterIndex + 1) s with
  | .error e => .error e
  | .ok s =>
    match (s.clustersOf ino)[clusterIndex]? with
    | none => .error .nullPointer
    | some cluster => .ok (s, cluster, pos % s.dentsPerCluster)

def putdent (ino pos : ℕ) (dent : List UInt8) : Except FatError Fatfs :=
  match s.locate ino pos with
  | .error e => .error e
  | .ok (s, cluster, place) => .ok (s.pwriteDent cluster place dent)

end Fatfs

/-! ## Entries -/

/-- An entry without dates. -/
def fatDent (filename : List UInt8) (attr : UInt8) (cluster : UInt32) (size : ℕ) : List UInt8 :=
  filename ++ attr :: pack [(1, 0), (1, 0), (2, 0), (2, 0), (2, 0), (2, cluster.toNat / 2 ^ 16), (2, 0), (2, 0),
    (2, cluster.toNat), (4, size)]

/-- `.` and `..` with blanks. -/
def dotName : List UInt8 := DOT :: List.replicate 10 BLANK
def dotdotName : List UInt8 := DOT :: DOT :: List.replicate 9 BLANK

structure Dentry where
  name : List UInt8
  ino : ℕ
  /-- `VFS_DENTRY_TEMP` is set. -/
  temp : Bool := false
  deriving DecidableEq

/-- An inode of the driver; only files have a tree with a size. -/
structure Inode where
  ino : ℕ
  isDir : Bool
  ft : Option ℕ
  dents : List Dentry

namespace Fatfs

variable (s : Fatfs)

/-! ## Writing a directory -/

/-- Entries one after the other. -/
def putdents (ino : ℕ) : List (List UInt8) → (pos : ℕ) → Fatfs → Except FatError (Fatfs × ℕ)
  | [], pos, s => .ok (s, pos)
  | dent :: dents, pos, s =>
    match s.putdent ino pos dent with
    | .error e => .error e
    | .ok s => putdents ino dents (pos + 1) s

/-- The loop body of `fatfsInodeFlush` for an entry of the directory. -/
def flushDentry (ino pos : ℕ) (dent : Dentry) : Except FatError (Fatfs × ℕ) :=
  match shortName dent.name, longName dent.name with
  | some shortname, some longname =>
    match putdents ino (longEntries longname (checksum shortname)) pos s with
    | .error e => .error e
    | .ok (s, pos) =>
      match s.itab dent.ino with
      | none => .error .assertion
      | some targetItab =>
        match targetItab.clusters.head? with
        | none => .error .nullPointer
        | some cluster =>
          let fent := fatDent shortname targetItab.cattr cluster targetItab.csize
          match s.locate ino pos with
          | .error e => .error e
          | .ok (s, realpos) =>
            let s := s.modifyItab dent.ino fun t => { t with dentpos := some realpos }
            match s.putdent ino pos fent with
            | .error e => .error e
            | .ok s => .ok (s, pos + 1)
  | _, _ => .error .overrun

def flushDentries (ino : ℕ) : List Dentry → (pos : ℕ) → Fatfs → Except FatError (Fatfs × ℕ)
  | [], pos, s => .ok (s, pos)
  | dent :: dents, pos, s =>
    if dent.temp then flushDentries ino dents pos s
    else
      match s.flushDentry ino pos dent with
      | .error e => .error e
      | .ok (s, pos) => flushDentries ino dents pos s

/-- The rest of a cluster is filled with zeros. -/
def padCluster (cluster : UInt32) (place : ℕ) : Fatfs :=
  { s with dents := Function.update s.dents cluster fun k =>
      if place ≤ k ∧ k < s.dentsPerCluster then zeroDent else s.dents cluster k }

/-- The directory part of `fatfsInodeFlush`. -/
def flushDirectory (ino : ℕ) (dents : List Dentry) : Except FatError Fatfs :=
  match (s.clustersOf ino).head? with
  | none => .error .nullPointer
  | some first =>
    let s := s.pwriteDent first 0 (fatDent dotName FAT_ATTR_DIR first 0)
    let s := s.pwriteDent first 1 (fatDent dotdotName FAT_ATTR_DIR first 0)
    match flushDentries ino dents 2 s with
    | .error e => .error e
    | .ok (s, pos) =>
      match s.locate ino pos with
      | .error e => .error e
      | .ok (s, cluster, place) => .ok (s.padCluster cluster place)

/-- The size of an entry is written over. -/
def withSize (dent : List UInt8) (size : ℕ) : List UInt8 := dent.take 28 ++ leBytes 4 size

/-- The entry of a file gets its size, and so does the table. -/
def flushSize (inode : Inode) : Fatfs :=
  match inode.ft with
  | none => s
  | some size =>
    let s :=
      match (s.itab inode.ino).bind FATInodeTable.dentpos with
      | some (cluster, place) => s.pwriteDent cluster place (withSize (s.dents cluster place) size)
      | none => s
    s.modifyItab inode.ino fun t => { t with csize := size }

def fatfsInodeFlush (inode : Inode) : Except FatError Fatfs :=
  let s := s.flushSize inode
  if inode.isDir then s.flushDirectory inode.ino inode.dents else .ok s

/-! ## Reading a directory -/

/-- The chain behind a cluster in the FAT; `none` if it has no end within `fuel` clusters. -/
def readClusterChain : (fuel : ℕ) → UInt32 → Option (List UInt32)
  | 0, _ => none
  | fuel + 1, cluster =>
    if cluster ≠ 0 ∧ cluster < 0x0FFFFFF7 then
      (readClusterChain fuel (s.fat cluster &&& 0x0FFFFFFF)).map (cluster :: ·)
    else some []

/-- The inode whose clusters start with one, or a new one. -/
def getInodeInfoByCluster (fuel : ℕ) (cluster : UInt32) : Except FatError (ℕ × Fatfs) :=
  match s.order.find? fun ino => (s.clustersOf ino).head? = some cluster with
  | some ino => .ok (ino, s)
  | none =>
    match s.readClusterChain fuel cluster with
    | none => .error .endless
    | some clusters =>
      let t : FATInodeTable :=
        { dentpos := none, clusters := clusters, csize := 0, cattr := 0, visible := by decide }
      .ok (s.nextIno, { s with
        itab := Function.update s.itab s.nextIno (some t), order := s.nextIno :: s.order
        nextIno := s.nextIno + 1 })

/-- The state of the loop over the entries. -/
structure LoadState where
  fs : Fatfs
  longname : List UInt8
  dents : List Dentry

def attrOf (ent : List UInt8) : UInt8 := ent.getD 11 0

def clusterOf (ent : List UInt8) : UInt32 := UInt32.ofNat (leAt 20 2 ent * 2 ^ 16 + leAt 26 2 ent)

/-- An entry of an inode. -/
def loadEntry (fuel : ℕ) (pos : UInt32 × ℕ) (ent : List UInt8) (st : LoadState) :
    Except FatError LoadState :=
  if h : attrOf ent &&& FAT_ATTR_HIDDEN = 0 then
    match st.fs.getInodeInfoByCluster fuel (clusterOf ent) with
    | .error e => .error e
    | .ok (ino, fs) =>
      let fs := fs.modifyItab ino fun entInfo => { entInfo with
        dentpos := some pos, csize := leAt 28 4 ent, cattr := attrOf ent, visible := h }
      if st.longname = [] then
        match plainName (ent.take 11) with
        | none => .error .overrun
        | some name => .ok ⟨fs, [], st.dents ++ [{ name := name, ino := ino }]⟩
      else .ok ⟨fs, [], st.dents ++ [{ name := st.longname, ino := ino }]⟩
  else .ok st

/-- The loop over the entries with their places, up to one that starts with 0. -/
def loadLoop (fuel : ℕ) : List ((UInt32 × ℕ) × List UInt8) → LoadState → Except FatError LoadState
  | [], st => .ok st
  | (pos, ent) :: ents, st =>
    let first := ent.getD 0 0
    if first = 0 then .ok st
    else if first = 0xE5 then loadLoop fuel ents { st with longname := [] }
    else if first = DOT then loadLoop fuel ents st
    else
      let st := if attrOf ent = FAT_ATTR_LFN then { st with longname := addPiece st.longname ent } else st
      match loadEntry fuel pos ent st with
      | .error e => .error e
      | .ok st => loadLoop fuel ents st

/-- The entries of a chain with their places. -/
def chainDents (clusters : List UInt32) : List ((UInt32 × ℕ) × List UInt8) :=
  clusters.flatMap fun c => (List.range s.dentsPerCluster).map fun k => ((c, k), s.dents c k)

def fatfsLoadInode (fuel ino : ℕ) : Except FatError (Inode × Fatfs) :=
  match s.itab ino with
  | none => .error .missing
  | some t =>
    let info := t.dentpos.map fun p => s.dents p.1 p.2
    if info.all fun ent => attrOf ent &&& FAT_ATTR_DIR ≠ 0 then
      match loadLoop fuel (s.chainDents t.clusters) ⟨s, [], []⟩ with
      | .error e => .error e
      | .ok st => .ok (⟨ino, true, none, st.dents⟩, st.fs)
    else .ok (⟨ino, false, info.map (leAt 28 4), []⟩, s)

end Fatfs

end Glidix.Fat
