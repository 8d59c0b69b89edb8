import Glidix.Lib.Packed

/-!
# Names in a FAT directory

An entry of a directory has 32 bytes.  A name stands in front of its entry, cut into pieces of 13 characters, the
last piece first; the entry itself has a short name.  Where a function of the driver would write behind one of
its buffers, the model says so.
-/

namespace Glidix.Fat

open Bytes

def FAT_ATTR_HIDDEN : UInt8 := 0x02
def FAT_ATTR_DIR : UInt8 := 0x10
def FAT_ATTR_LFN : UInt8 := 0x0F

/-! ## Short names -/

def BLANK : UInt8 := 0x20
def DOT : UInt8 := 0x2E

/-- `UNKNOWN DAT` -/
def UNKNOWN_DAT : List UInt8 := [0x55, 0x4E, 0x4B, 0x4E, 0x4F, 0x57, 0x4E, 0x20, 0x44, 0x41, 0x54]

/-- A small letter becomes a capital one. -/
def upper (c : UInt8) : UInt8 := if 0x61 ≤ c ∧ c ≤ 0x7A then c - 0x20 else c

/-- A letter, a digit, `_` or `-`. -/
def inShortname (c : UInt8) : Bool :=
  (0x41 ≤ c && c ≤ 0x5A) || (0x30 ≤ c && c ≤ 0x39) || c = 0x5F || c = 0x2D

/-- The loop that fills the short name; `none` if it writes behind the 11 bytes. -/
def shortLoop : (name : List UInt8) → (putidx : ℕ) → (seenDot : Bool) → (shortname : List UInt8) →
    Option (List UInt8)
  | [], _, _, shortname => some shortname
  | c :: name, putidx, seenDot, shortname =>
    if c = DOT then
      if seenDot then shortLoop name putidx seenDot shortname else shortLoop name 8 true shortname
    else
      let c := upper c
      if !inShortname c then shortLoop name putidx seenDot shortname
      else if putidx = 8 ∧ seenDot = false then shortLoop name putidx seenDot shortname
      else if putidx = 11 then some shortname
      else if putidx < shortname.length then shortLoop name (putidx + 1) seenDot (shortname.set putidx c)
      else none

/-- The 8.3 name of an entry. -/
def shortName (name : List UInt8) : Option (List UInt8) :=
  (shortLoop name 0 false (List.replicate 11 BLANK)).map fun shortname =>
    if shortname.head? = some BLANK then UNKNOWN_DAT else shortname

/-- The checksum of a short name. -/
def checksum (shortname : List UInt8) : UInt8 :=
  shortname.foldl (fun sum c => ((sum &&& 1) <<< 7) + (sum >>> 1) + c) 0

/-! ## Long names -/

/-- The size of the buffers for long names. -/
def LONGNAME_SIZE : ℕ := 256

/-- The characters with their end marks; `none` if they do not fit into the buffer. -/
def longName (name : List UInt8) : Option (List ℕ) :=
  let longname := ((name.take 253).map fun c => if 0x80 ≤ c then 0x3F else c.toNat) ++ [0, 0xFFFF]
  if longname.length ≤ LONGNAME_SIZE then some longname else none

/-- An entry for a bunch of 13 characters. -/
def longEntry (seqno : ℕ) (bunch : List ℕ) (sum : UInt8) : List UInt8 :=
  pack ((1, seqno) :: (bunch.take 5).map (2, ·) ++
    [(1, FAT_ATTR_LFN.toNat), (1, 0), (1, sum.toNat)] ++ ((bunch.drop 5).take 6).map (2, ·) ++
    [(2, 0)] ++ (bunch.drop 11).map (2, ·))

/-- The entries for the full bunches, the last one first. -/
def fullEntries (longname : List ℕ) (sum : UInt8) : (numFullEnts : ℕ) → (isFirst : Bool) → List (List UInt8)
  | 0, _ => []
  | n + 1, isFirst =>
    longEntry (if isFirst then 0x40 ||| (n + 1) else n + 1) ((longname.drop (n * 13)).take 13) sum ::
      fullEntries longname sum n false

/-- The entries for a long name: what is left over is filled up with `0xFFFF`. -/
def longEntries (longname : List ℕ) (sum : UInt8) : List (List UInt8) :=
  let numFullEnts := longname.length / 13
  let leftover := longname.length % 13
  if leftover ≠ 0 then
    longEntry (0x40 ||| (numFullEnts + 1))
        (longname.drop (numFullEnts * 13) ++ List.replicate (13 - leftover) 0xFFFF) sum ::
      fullEntries longname sum numFullEnts false
  else fullEntries longname sum numFullEnts true

/-! ## Reading names -/

/-- How a character is read. -/
def convChar (c : ℕ) : UInt8 :=
  if c = 0xFFFF then 0 else if 127 < c then 0x3F else UInt8.ofNat c

/-- The characters of an entry for a long name. -/
def longChars (ent : List UInt8) : List ℕ :=
  (List.range 5).map (fun j => leAt (1 + 2 * j) 2 ent) ++
    (List.range 6).map (fun j => leAt (14 + 2 * j) 2 ent) ++ (List.range 2).map fun j => leAt (28 + 2 * j) 2 ent

/-- `convbuf` up to its first terminator. -/
def convName (ent : List UInt8) : List UInt8 := ((longChars ent).map convChar).takeWhile (· ≠ 0)

/-- The long name, which grows towards the start of its buffer, after an entry. -/
def addPiece (longname : List UInt8) (ent : List UInt8) : List UInt8 :=
  let longname := if leAt 0 1 ent &&& 0x40 ≠ 0 then [] else longname
  if longname.length + (convName ent).length ≤ 255 then convName ent ++ longname else longname

/-- The loop that makes a name of a short name; `j` is the place in it. -/
def plainLoop : (filename : List UInt8) → (j : ℕ) → (dotPending : Bool) → List UInt8
  | [], _, _ => []
  | c :: filename, j, dotPending =>
    if c = BLANK then plainLoop filename (j + 1) dotPending
    else if 8 ≤ j ∧ dotPending then DOT :: c :: plainLoop filename (j + 1) false
    else c :: plainLoop filename (j + 1) dotPending

/-- The name of an entry without a long name; `none` if it does not fit into `namebuf`. -/
def plainName (filename : List UInt8) : Option (List UInt8) :=
  let name := plainLoop filename 0 true
  if name.length + 1 ≤ 13 then some name else none

end Glidix.Fat
