import Mathlib.Data.UInt
import Glidix.Lib.Memory

/-!
# Partition tables

How the partitions of a storage device are found when its table is reloaded.  What a read puts into a
buffer is a parameter, so it may also fall short; the rest of a buffer is what was in its memory before.
Of a GPT the loop must not look at entries outside the table that was read (`reloadGPT_inside_iff`): the
size of the table is a product of 32 bits.
-/

namespace Glidix.Storage

open Bytes

/-! ## Checksums -/

/-- One bit of the checksum, with the polynomial `CRCPOLY2`. -/
def crc32Bit (r : UInt32) : UInt32 :=
  if r &&& 1 ≠ 0 then (r >>> 1) ^^^ 0xEDB88320 else r >>> 1

def crc32 (data : List UInt8) : UInt32 :=
  data.foldl (fun r c => crc32Bit^[8] (r ^^^ c.toUInt32)) 0xFFFFFFFF ^^^ 0xFFFFFFFF

/-! ## The tables -/

structure MBRPartition where
  systemID : UInt8
  lbaStart : UInt32
  numSectors : UInt32
  deriving DecidableEq

/-- `sizeof(GPTHeader)`. -/
def sizeofGPTHeader : ℕ := 96

structure GPTHeader where
  sig : UInt64
  headerSize : UInt32
  headerCRC32 : UInt32
  partListLBA : UInt64
  numPartEnts : UInt32
  partEntSize : UInt32
  partArrayCRC32 : UInt32
  deriving DecidableEq

/-- `sizeof(GPTPartition)`. -/
def sizeofGPTPartition : ℕ := 128

structure GPTPartition where
  type : List UInt8
  startLBA : UInt64
  endLBA : UInt64
  deriving DecidableEq

/-- `EFI PART`. -/
def GPT_SIGNATURE : UInt64 := 0x5452415020494645

/-- The type of an entry that is not used. -/
def typeNone : List UInt8 := List.replicate 16 0

/-- Entry `i` of the table of an MBR. -/
def MBRPartition.read (b : Bytes) (i : ℕ) : MBRPartition where
  systemID := b (16 * i + 4)
  lbaStart := UInt32.ofNat (load 4 b (16 * i + 8))
  numSectors := UInt32.ofNat (load 4 b (16 * i + 12))

def GPTHeader.read (b : Bytes) : GPTHeader where
  sig := UInt64.ofNat (load 8 b 0)
  headerSize := UInt32.ofNat (load 4 b 12)
  headerCRC32 := UInt32.ofNat (load 4 b 16)
  partListLBA := UInt64.ofNat (load 8 b 72)
  numPartEnts := UInt32.ofNat (load 4 b 80)
  partEntSize := UInt32.ofNat (load 4 b 84)
  partArrayCRC32 := UInt32.ofNat (load 4 b 88)

/-- Entry `i` of the table of a GPT. -/
def GPTPartition.read (b : Bytes) (i : ℕ) : GPTPartition where
  type := slice b (sizeofGPTPartition * i) 16
  startLBA := UInt64.ofNat (load 8 b (sizeofGPTPartition * i + 32))
  endLBA := UInt64.ofNat (load 8 b (sizeofGPTPartition * i + 40))

/-- The size of the table of a GPT, computed in 32 bits. -/
def GPTHeader.tableSize (header : GPTHeader) : ℕ := (header.partEntSize * header.numPartEnts).toNat

/-- A device whose table is reloaded. -/
structure Device where
  /-- The bytes that `sdRead` puts into a buffer, at a position and for a size. -/
  sdRead : ℕ → ℕ → List UInt8
  sdRead_length_le : ∀ pos size, (sdRead pos size).length ≤ size
  /-- What was on the stack where a buffer is put, by the position that is read into it. -/
  stack : ℕ → Bytes
  /-- What was in the memory that is allocated for the table, and what follows it. -/
  heap : Bytes
  /-- Whether the device file for an entry can be added. -/
  devfsAdd : ℕ → Bool

/-- What `reloadGPT` does. -/
inductive GPTReload where
  /-- It returns before it looks at any entry. -/
  | rejected
  /-- The table could not be allocated, and `NULL` is used. -/
  | faults
  /-- It has read `read` bytes of the table, and visits the entries with these numbers; a partition is
  what a device file was added for. -/
  | loaded (tableSize read : ℕ) (visits : List (ℕ × Option GPTPartition))

namespace Device

variable (dev : Device)

/-- The header, if it passes the checks. -/
def gptHeader : Option GPTHeader :=
  let buffer := (dev.stack 0x200).setRange 0 (dev.sdRead 0x200 sizeofGPTHeader)
  let header := GPTHeader.read buffer
  if header.sig ≠ GPT_SIGNATURE then none
  else if header.headerSize ≠ 92 then none
  else if header.headerCRC32 ≠ crc32 (slice (store 4 buffer 16 0) 0 header.headerSize.toNat) then none
  else if header.partEntSize ≠ 128 then none
  else some header

/-- What is read of the table. -/
def tableData (header : GPTHeader) : List UInt8 :=
  dev.sdRead (512 * header.partListLBA).toNat header.tableSize

/-- The memory from the table on. -/
def table (header : GPTHeader) : Bytes := dev.heap.setRange 0 (dev.tableData header)

/-- Whether the table passes the check. -/
def TableChecked (header : GPTHeader) : Prop :=
  crc32 (slice (dev.table header) 0 header.tableSize) = header.partArrayCRC32

instance (header : GPTHeader) : Decidable (dev.TableChecked header) :=
  inferInstanceAs (Decidable (_ = _))

/-- An entry is used, and its device file can be added. -/
def opens (table : Bytes) (i : ℕ) : Bool :=
  (GPTPartition.read table i).type ≠ typeNone && dev.devfsAdd i

/-- The loop over the entries, of which `left` are left. -/
def gptLoop (table : Bytes) : (left i nextPartIndex : ℕ) → List (ℕ × Option GPTPartition)
  | 0, _, _ => []
  | left + 1, i, nextPartIndex =>
    if nextPartIndex = 32 then []
    else if dev.opens table i then
      (i, some (GPTPartition.read table i)) :: gptLoop table left (i + 1) (nextPartIndex + 1)
    else (i, none) :: gptLoop table left (i + 1) nextPartIndex

def reloadGPT : GPTReload :=
  match dev.gptHeader with
  | none => .rejected
  | some header =>
    -- `kmalloc` returns `NULL` for 1 GB or more
    if header.tableSize ≥ 0x40000000 then .faults
    else if ¬ dev.TableChecked header then .rejected
    else .loaded header.tableSize (dev.tableData header).length
      (dev.gptLoop (dev.table header) header.numPartEnts.toNat 0 0)

end Device

/-! ## Entries inside the table -/

/-- Every entry that is visited lies in what was allocated and read. -/
def GPTReload.Inside : GPTReload → Prop
  | .rejected => True
  | .faults => False
  | .loaded tableSize read visits =>
    ∀ v ∈ visits, sizeofGPTPartition * (v.1 + 1) ≤ min tableSize read

namespace Device

variable (dev : Device)

/-- The number of entries that are read. -/
def entriesRead (header : GPTHeader) : ℕ := (dev.tableData header).length / sizeofGPTPartition

/-- The table of a valid header can be allocated; and if it passes the check, all its entries are read,
or enough of them to have no more than 32 partitions. -/
def TableFits : Prop :=
  ∀ header ∈ dev.gptHeader, header.tableSize < 0x40000000 ∧
    (dev.TableChecked header → header.numPartEnts.toNat ≤ dev.entriesRead header ∨
      32 ≤ (List.range (dev.entriesRead header)).countP (dev.opens (dev.table header)))

variable {dev} {table : Bytes} {left i n nextPartIndex : ℕ}

theorem visits_lt_iff (hnext : nextPartIndex ≤ 32) (hi : i ≤ n) :
    (∀ v ∈ dev.gptLoop table left i nextPartIndex, v.1 < n) ↔
      i + left ≤ n ∨ 32 ≤ nextPartIndex + (List.range' i (n - i)).countP (dev.opens table) := by
  induction left generalizing i nextPartIndex with
  | zero => simp [gptLoop, hi]
  | succ left ih =>
    rw [gptLoop]
    by_cases hfull : nextPartIndex = 32
    · simp [hfull]
    rw [if_neg hfull]
    rcases Nat.lt_or_eq_of_le hi with hlt | rfl
    · have hrange : List.range' i (n - i) = i :: List.range' (i + 1) (n - (i + 1)) := by
        rw [← List.range'_succ]
        congr 1
        omega
      rw [hrange, List.countP_cons]
      split_ifs with hopens
      · rw [List.forall_mem_cons, ih (i := i + 1) (by omega) hlt]
        constructor
        · rintro ⟨-, h⟩
          omega
        · intro h
          exact ⟨hlt, by omega⟩
      · rw [List.forall_mem_cons, ih (i := i + 1) hnext hlt]
        constructor
        · rintro ⟨-, h⟩
          omega
        · intro h
          exact ⟨hlt, by omega⟩
    · -- the entry `i` is the first one outside
      have hvisited : ∃ v ∈ (if dev.opens table i = true then
          (i, some (GPTPartition.read table i)) :: dev.gptLoop table left (i + 1) (nextPartIndex + 1)
          else (i, none) :: dev.gptLoop table left (i + 1) nextPartIndex), v.1 = i := by
        split_ifs
        · exact ⟨_, List.mem_cons_self, rfl⟩
        · exact ⟨_, List.mem_cons_self, rfl⟩
      obtain ⟨v, hv, hvi⟩ := hvisited
      constructor
      · intro h
        have := h v hv
        omega
      · intro h
        rw [Nat.sub_self, List.range'_zero, List.countP_nil] at h
        omega

/-- The loop over the entries stays in the table exactly if the table fits. -/
theorem reloadGPT_inside_iff (dev : Device) : dev.reloadGPT.Inside ↔ dev.TableFits := by
  unfold reloadGPT TableFits
  cases hheader : dev.gptHeader with
  | none => simp [GPTReload.Inside]
  | some header =>
    simp only [Option.mem_def, Option.some.injEq, forall_eq']
    by_cases hsize : header.tableSize ≥ 0x40000000
    · rw [if_pos hsize]
      exact ⟨False.elim, fun h => absurd h.1 (by omega)⟩
    · rw [if_neg hsize]
      by_cases hcheck : dev.TableChecked header
      · rw [if_neg (not_not_intro hcheck)]
        have hread : (dev.tableData header).length ≤ header.tableSize := dev.sdRead_length_le _ _
        have hloop : (∀ v ∈ dev.gptLoop (dev.table header) header.numPartEnts.toNat 0 0,
            v.1 < dev.entriesRead header) ↔ _ :=
          visits_lt_iff (Nat.zero_le 32) (Nat.zero_le (dev.entriesRead header))
        rw [Nat.sub_zero, ← List.range_eq_range', Nat.zero_add, Nat.zero_add] at hloop
        have hinside (v : ℕ × Option GPTPartition) :
            sizeofGPTPartition * (v.1 + 1) ≤ min header.tableSize (dev.tableData header).length ↔
              v.1 < dev.entriesRead header := by
          unfold entriesRead sizeofGPTPartition
          omega
        simp only [GPTReload.Inside, hinside, hloop]
        exact ⟨fun h => ⟨by omega, fun _ => h⟩, fun h => h.2 hcheck⟩
      · rw [if_pos hcheck]
        exact ⟨fun _ => ⟨by omega, fun h => absurd h hcheck⟩, fun _ => trivial⟩

end Device

/-! ## A table of no bytes -/

/-- The header of a table with `2 ^ 25` entries, whose size is 0 in 32 bits, without its checksum. -/
def wrappedHeader : Bytes := setRange (fun _ => 0) 0 (pack
  [(8, 0x5452415020494645), (4, 0x10000), (4, 92), (4, 0), (4, 0), (8, 1), (8, 0), (8, 0),
    (8, 0), (16, 0), (8, 2), (4, 2 ^ 25), (4, 128), (4, 0), (4, 0)])

/-- The checksum of that header. -/
@[irreducible] def wrappedSum : UInt32 := crc32 (slice wrappedHeader 0 92)

/-- The header with its checksum. -/
def wrappedBuffer : Bytes := store 4 wrappedHeader 16 wrappedSum.toNat

/-- A device with that header. -/
def wrappedDevice : Device where
  sdRead pos size := if pos = 0x200 then slice wrappedBuffer 0 size else []
  sdRead_length_le pos size := by
    split_ifs
    · exact (length_slice _ _ _).le
    · exact Nat.zero_le size
  stack _ := wrappedBuffer
  heap _ := 0
  devfsAdd _ := true

theorem clear_wrappedSum : store 4 wrappedBuffer 16 0 = wrappedHeader := by
  funext o
  by_cases ho : o < 16 ∨ 16 + 4 ≤ o
  · rw [store_of_notMem ho, wrappedBuffer, store_of_notMem ho]
  · have hcases : o = 16 ∨ o = 17 ∨ o = 18 ∨ o = 19 := by omega
    rcases hcases with rfl | rfl | rfl | rfl
    · decide
    · decide
    · decide
    · decide

theorem read_wrappedBuffer :
    GPTHeader.read wrappedBuffer = ⟨GPT_SIGNATURE, 92, wrappedSum, 2, 2 ^ 25, 128, 0⟩ := by
  have hsum : UInt32.ofNat (load 4 wrappedBuffer 16) = wrappedSum := by
    have hlt : wrappedSum.toNat < 256 ^ 4 := wrappedSum.toNat_lt
    rw [wrappedBuffer, load_store_self, Nat.mod_eq_of_lt hlt, UInt32.ofNat_toNat]
  have hload {k b : ℕ} (h : b + k ≤ 16 ∨ 16 + 4 ≤ b) :
      load k wrappedBuffer b = load k wrappedHeader b := load_store_ne h
  have hsig : UInt64.ofNat (load 8 wrappedHeader 0) = GPT_SIGNATURE := by decide
  have hsize : UInt32.ofNat (load 4 wrappedHeader 12) = 92 := by decide
  have hlist : UInt64.ofNat (load 8 wrappedHeader 72) = 2 := by decide
  have hents : UInt32.ofNat (load 4 wrappedHeader 80) = 2 ^ 25 := by decide
  have hent : UInt32.ofNat (load 4 wrappedHeader 84) = 128 := by decide
  have harray : UInt32.ofNat (load 4 wrappedHeader 88) = 0 := by decide
  rw [GPTHeader.read, hsum, hload (by decide), hload (by decide), hload (by decide),
    hload (by decide), hload (by decide), hload (by decide), hsig, hsize, hlist, hents, hent, harray]

theorem gptHeader_wrapped : wrappedDevice.gptHeader =
    some ⟨GPT_SIGNATURE, 92, wrappedSum, 2, 2 ^ 25, 128, 0⟩ := by
  have hbuffer : (wrappedDevice.stack 0x200).setRange 0 (wrappedDevice.sdRead 0x200 sizeofGPTHeader) =
      wrappedBuffer := by
    have hread : wrappedDevice.sdRead 0x200 sizeofGPTHeader = slice wrappedBuffer 0 sizeofGPTHeader := by
      simp only [wrappedDevice, if_true]
    rw [hread]
    exact setRange_slice wrappedBuffer 0 sizeofGPTHeader
  have hsum : crc32 (slice wrappedHeader 0 (92 : UInt32).toNat) = wrappedSum := by
    rw [show (92 : UInt32).toNat = 92 by decide]
    unfold wrappedSum
    exact Eq.refl _
  unfold Device.gptHeader
  simp only [hbuffer, read_wrappedBuffer, clear_wrappedSum, hsum, ne_eq, not_true_eq_false, if_false]

theorem reloadGPT_wrapped : ∃ table : Bytes, wrappedDevice.reloadGPT =
    .loaded 0 0 (wrappedDevice.gptLoop table (2 ^ 25) 0 0) := by
  set header : GPTHeader := ⟨GPT_SIGNATURE, 92, wrappedSum, 2, 2 ^ 25, 128, 0⟩ with hheader
  have hsize : header.tableSize = 0 := by
    rw [hheader, GPTHeader.tableSize]
    decide
  have hents : header.numPartEnts.toNat = 2 ^ 25 := by
    rw [hheader]
    decide
  have hdata : (wrappedDevice.tableData header).length = 0 := by
    refine Nat.le_zero.1 (le_trans (wrappedDevice.sdRead_length_le _ _) ?_)
    rw [hsize]
  have hcheck : wrappedDevice.TableChecked header := by
    rw [Device.TableChecked, hsize]
    decide
  refine ⟨wrappedDevice.table header, ?_⟩
  rw [Device.reloadGPT, gptHeader_wrapped]
  simp only [← hheader, if_neg (not_not_intro hcheck)]
  rw [hsize, hdata, hents, if_neg (by decide)]

/-- The loop goes on behind the table. -/
theorem reloadGPT_not_inside : ¬ ∀ dev : Device, dev.reloadGPT.Inside := by
  intro h
  have hinside := h wrappedDevice
  obtain ⟨table, hreload⟩ := reloadGPT_wrapped
  rw [hreload] at hinside
  have hnone (v) (hv : v ∈ wrappedDevice.gptLoop table (2 ^ 25) 0 0) : v.1 < 0 := by
    have hv := hinside v hv
    unfold sizeofGPTPartition at hv
    omega
  have hleft := (Device.visits_lt_iff (Nat.zero_le 32) le_rfl).1 hnone
  rw [Nat.sub_zero, List.range'_zero, List.countP_nil] at hleft
  omega

end Glidix.Storage
