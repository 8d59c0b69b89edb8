import Glidix.Lib.Packed

/-!
# Reading an ISO image

`isoLoadInode` goes through the extent of a directory from record to record, and through the system use
area of a record from entry to entry; the steps are lengths that the image gives.  The sizes that are
asked for are recorded with the buffers they are for.
-/

namespace Glidix.Iso

open Bytes

/-! ## The image -/

/-- `bytesSkipped` is there if `foundSP` is set. -/
structure Isofs where
  image : List UInt8
  image_lt : image.length < 2 ^ 63
  blockSize : UInt16
  bytesSkipped : Option UInt8

/-- `sizeof(ISODirentHeader)`. -/
def sizeofHeader : ℕ := 33

/-- `sizeof(SUSPHeader)`. -/
def sizeofSUSP : ℕ := 4

/-- `sizeof(SUSP_SP)`. -/
def sizeofSP : ℕ := 7

def SEMICOLON : UInt8 := 0x3B

/-- `"SP"`, `"ST"` and `"NM"` as numbers. -/
def SP : ℕ := 0x5053
def ST : ℕ := 0x5453
def NM : ℕ := 0x4D4E

structure ISODirentHeader where
  size : UInt8
  startLBA : UInt32
  fileSize : UInt32
  flags : UInt8
  filenameLen : UInt8
  deriving DecidableEq

structure SUSPHeader where
  type : ℕ
  len : UInt8
  deriving DecidableEq

def ISODirentHeader.ofBytes (data : List UInt8) : ISODirentHeader where
  size := data.getD 0 0
  startLBA := UInt32.ofNat (leAt 2 4 data)
  fileSize := UInt32.ofNat (leAt 10 4 data)
  flags := data.getD 25 0
  filenameLen := data.getD 32 0

def SUSPHeader.ofBytes (data : List UInt8) : SUSPHeader := ⟨leAt 0 2 data, data.getD 2 0⟩

/-- A number is rounded up to an even one. -/
def even (n : ℕ) : ℕ := (n + 1) / 2 * 2

namespace Isofs

variable (v : Isofs)

/-- The result of reading from the image, and what is read. -/
def vfsPRead (size pos : ℕ) : ℤ × List UInt8 :=
  if 2 ^ 64 - 1 - size < pos then (-1, [])
  else
    let data := (v.image.drop pos).take size
    (data.length, data)

/-- A read that has to return all that was asked for. -/
def readAll (size pos : ℕ) : Option (List UInt8) :=
  let (n, data) := v.vfsPRead size pos
  if n = size then some data else none

def readHeader (pos : ℕ) : Option ISODirentHeader := (v.readAll sizeofHeader pos).map .ofBytes

def readSUSP (pos : ℕ) : Option SUSPHeader := (v.readAll sizeofSUSP pos).map .ofBytes

/-- `bskip`, if there is an SP entry. -/
def readSP (pos : ℕ) : Option UInt8 :=
  match v.readAll sizeofSP pos with
  | none => none
  | some sp =>
    if leAt 0 2 sp = SP ∧ sp.getD 2 0 = 7 ∧ sp.getD 3 0 = 1 ∧ leAt 4 2 sp = 0xEFBE then some (sp.getD 6 0)
    else none

end Isofs

/-! ## Directories -/

/-- The name of an entry so far, and the sizes that were asked for into `namebuf`. -/
structure NameState where
  name : List UInt8
  requests : List ℕ

/-- `susp.len - 5` as a size. -/
def nameSize (len : UInt8) : ℕ := (len.toUInt64 - 5).toNat

/-- The name of an NM entry is read. -/
def NameState.readName (st : NameState) (v : Isofs) (len : UInt8) (headpos : ℕ) : NameState :=
  ⟨(v.vfsPRead (nameSize len) (headpos + 5)).2.takeWhile (· ≠ 0), st.requests ++ [nameSize len]⟩

/-- The result of that is `susp.len - 5`. -/
def nameRead (v : Isofs) (len : UInt8) (headpos : ℕ) : Bool :=
  (v.vfsPRead (nameSize len) (headpos + 5)).1 = (len.toNat : ℤ) - 5

theorem step_lt {pos stop : ℕ} {len : UInt8} (hlt : pos < stop) (hlen : ¬ len = 0) :
    stop - (pos + len.toNat) < stop - pos := by
  have hpos : len.toNat ≠ 0 := fun h => hlen (UInt8.toNat_inj.1 h)
  omega

/-- The loop over the system use area. -/
def suspLoop (v : Isofs) (stop headpos : ℕ) (st : NameState) : NameState :=
  if hlt : headpos < stop then
    match v.readSUSP headpos with
    | none => st
    | some susp =>
      if hlen : susp.len = 0 then st
      else if susp.type = ST then st
      else if susp.type = NM then
        if nameRead v susp.len headpos then
          suspLoop v stop (headpos + susp.len.toNat) (st.readName v susp.len headpos)
        else st.readName v susp.len headpos
      else suspLoop v stop (headpos + susp.len.toNat) st
  else st
termination_by stop - headpos
decreasing_by all_goals exact step_lt hlt hlen

/-- What `isoLoadInode` has so far; the name of a directory entry comes with its inode number. -/
structure DirState where
  bytesSkipped : Option UInt8
  dents : List (List UInt8 × ℕ)
  requests : List ℕ

/-- Where the system use area of a record begins. -/
def areaPos (pos : ℕ) (ent : ISODirentHeader) : ℕ := even (pos + sizeofHeader + ent.filenameLen.toNat)

/-- The string in `namebuf`, without the version. -/
def plainName (name : List UInt8) : List UInt8 := name.takeWhile fun c => c ≠ 0 ∧ c ≠ SEMICOLON

/-- The name of the entry is looked for in the system use area. -/
def entryName (v : Isofs) (st : DirState) (pos : ℕ) (ent : ISODirentHeader) (name : List UInt8) :
    NameState :=
  match st.bytesSkipped with
  | none => ⟨name, st.requests⟩
  | some skip =>
    suspLoop v (pos + ent.size.toNat) (areaPos pos ent + skip.toNat) ⟨name, st.requests⟩

/-- The loop body for a record whose name could be read. -/
def addRecord (v : Isofs) (pos : ℕ) (ent : ISODirentHeader) (namebuf : List UInt8) (st : DirState) :
    DirState :=
  let name := plainName namebuf
  let st :=
    if name = [] then { st with bytesSkipped := (v.readSP (areaPos pos ent)).or st.bytesSkipped } else st
  if ent.flags &&& 1 = 0 ∧ name ≠ [] ∧ name.head? ≠ some 1 then
    let named := entryName v st pos ent name
    { st with dents := st.dents ++ [(named.name, pos)], requests := named.requests }
  else st

/-- The loop over the extent of a directory. -/
def extentLoop (v : Isofs) (stop pos : ℕ) (st : DirState) : DirState :=
  if hlt : pos < stop then
    match v.readHeader pos with
    | none => st
    | some ent =>
      if hsize : ent.size = 0 then extentLoop v stop (pos + 1) st
      else
        let st := { st with requests := st.requests ++ [ent.filenameLen.toNat] }
        match v.readAll ent.filenameLen.toNat (pos + sizeofHeader) with
        | none => st
        | some namebuf => extentLoop v stop (pos + ent.size.toNat) (addRecord v pos ent namebuf st)
  else st
termination_by stop - pos
decreasing_by
  · exact Nat.sub_lt_sub_left hlt (Nat.lt_succ_self pos)
  · exact step_lt hlt hsize

/-- The start of an extent. -/
def startPos (v : Isofs) (head : ISODirentHeader) : ℕ := head.startLBA.toNat * v.blockSize.toNat

/-- `isoLoadInode`: its result, and the state after it; a file has no entries. -/
def isoLoadInode (v : Isofs) (ino : ℕ) : ℤ × DirState :=
  let st : DirState := ⟨v.bytesSkipped, [], []⟩
  match v.readHeader ino with
  | none => (-1, st)
  | some head =>
    if head.flags &&& 2 ≠ 0 then
      (0, extentLoop v (startPos v head + head.fileSize.toNat) (startPos v head) st)
    else (0, st)

/-! ## Pages of files -/

/-- The size that `isoLoad` asks for, for the page at `pos`. -/
def pageSize (head : ISODirentHeader) (pos : UInt64) : UInt64 :=
  if pos + 0x1000 > head.fileSize.toUInt64 then head.fileSize.toUInt64 - pos else 0x1000

/-- `isoLoad`: its result, what it stores in the page, and the size that it asks for. -/
def isoLoad (v : Isofs) (ino : ℕ) (pos : UInt64) : ℤ × List UInt8 × Option UInt64 :=
  match v.readHeader ino with
  | none => (-1, [], none)
  | some head =>
    let size := pageSize head pos
    let (n, data) := v.vfsPRead size.toNat (startPos v head + pos.toNat)
    (if n = size.toNat then 0 else -1, data, some size)

end Glidix.Iso
