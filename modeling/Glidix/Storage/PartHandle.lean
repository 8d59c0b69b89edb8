import Glidix.Storage.PartTable

/-!
# Access through partitions

A partition is a device file with an offset and a size; a size of 0 means that there is no limit.  Both
are computed from the entry of the table in 64 bits.  A handle keeps to the bytes that its entry
describes exactly if the entry is `Sane`: then the size is not 0, unless the partition is the whole
device, and the end is not past `2 ^ 64`.
-/

namespace Glidix.Storage

open Bytes

/-! ## Opening partitions -/

/-- An entry of a partition table. -/
inductive PartEntry where
  | mbr (entry : MBRPartition)
  | gpt (entry : GPTPartition)
  deriving DecidableEq

structure SDDeviceFile where
  offset : UInt64
  size : UInt64
  deriving DecidableEq

structure SDHandle where
  offset : UInt64
  size : UInt64
  deriving DecidableEq

/-- The device file for an entry. -/
def PartEntry.deviceFile : PartEntry → SDDeviceFile
  | .mbr entry => ⟨entry.lbaStart.toUInt64 * 512, entry.numSectors.toUInt64 * 512⟩
  | .gpt entry => ⟨entry.startLBA * 512, (entry.endLBA - entry.startLBA + 1) * 512⟩

def sdfile_open (fdev : SDDeviceFile) : SDHandle := ⟨fdev.offset, fdev.size⟩

/-- The entries for which there are device files after the table was reloaded. -/
def Device.reloadPartTable (dev : Device) : List PartEntry :=
  let mbrParts := (dev.stack 0x1BE).setRange 0 (dev.sdRead 0x1BE 64)
  let sig := load 2 ((dev.stack 0x1FE).setRange 0 (dev.sdRead 0x1FE 2)) 0
  if sig ≠ 0xAA55 then []
  else if (List.range 4).any fun i => (MBRPartition.read mbrParts i).systemID = 0xEE then
    match dev.reloadGPT with
    | .loaded _ _ visits => (visits.filterMap Prod.snd).map .gpt
    | _ => []
  else
    ((List.range 4).filter fun i =>
      (MBRPartition.read mbrParts i).systemID ≠ 0 && dev.devfsAdd i).map fun i =>
        .mbr (MBRPartition.read mbrParts i)

/-! ## Reading and writing -/

/-- Where a request of `size` bytes begins on the device, and what is left of it; nothing if it begins
at the end of the partition. -/
def SDHandle.clip (handle : SDHandle) (size offset : UInt64) : Option (UInt64 × UInt64) :=
  let actualStart := handle.offset + offset
  if handle.size ≠ 0 then
    if offset ≥ handle.size then none
    else if offset + size > handle.size then some (actualStart, handle.size - offset)
    else some (actualStart, size)
  else some (actualStart, size)

/-- What `sdRead` is called with. -/
def sdfile_pread (handle : SDHandle) (size offset : UInt64) : Option (UInt64 × UInt64) :=
  handle.clip size offset

/-- What `sdWrite` is called with. -/
def sdfile_pwrite (handle : SDHandle) (size offset : UInt64) : Option (UInt64 × UInt64) :=
  handle.clip size offset

/-- `vfsReadUnlocked` and `vfsWriteUnlocked`, the callers of both, refuse a negative offset and a request
that ends past `2 ^ 64`. -/
def vfsUnlocked (transfer : UInt64 → UInt64 → Option (UInt64 × UInt64)) (size : UInt64)
    (offset : Int64) : Option (UInt64 × UInt64) :=
  if offset < 0 then none
  else if ~~~size < offset.toUInt64 then none
  else transfer size offset.toUInt64

/-- The byte `p` of the device is read or written. -/
def Touches (request : Option (UInt64 × UInt64)) (p : ℕ) : Prop :=
  ∃ r ∈ request, ∃ k < r.2.toNat, p = (r.1.toNat + k) % 2 ^ 64

/-! ## Staying inside a partition -/

namespace PartEntry

/-- The first byte of what an entry describes. -/
def start : PartEntry → ℕ
  | .mbr entry => entry.lbaStart.toNat * 512
  | .gpt entry => entry.startLBA.toNat * 512

/-- The end of what an entry describes; the last block of a GPT entry belongs to it. -/
def stop : PartEntry → ℕ
  | .mbr entry => (entry.lbaStart.toNat + entry.numSectors.toNat) * 512
  | .gpt entry => (entry.endLBA.toNat + 1) * 512

def handle (e : PartEntry) : SDHandle := sdfile_open e.deviceFile

/-- Whatever is asked for, only bytes are read or written that the entry describes. -/
def Confined (e : PartEntry) : Prop :=
  ∀ (size : UInt64) (offset : Int64) (p : ℕ),
    Touches (vfsUnlocked (sdfile_pread e.handle) size offset) p ∨
      Touches (vfsUnlocked (sdfile_pwrite e.handle) size offset) p →
    e.start ≤ p ∧ p < e.stop

/-- The size of the partition is not 0 and does not go past `2 ^ 64`; it may be 0 for a partition that
begins at 0 and goes on to `2 ^ 64` at least. -/
def Sane : PartEntry → Prop
  | .mbr entry => entry.numSectors ≠ 0
  | .gpt entry =>
    let first := entry.startLBA.toNat
    let size := 512 * (entry.endLBA.toNat + 1 - first) % 2 ^ 64
    first ≤ entry.endLBA.toNat ∧ first < 2 ^ 55 ∧
      if size = 0 then first = 0 else 512 * first + size ≤ 2 ^ 64

end PartEntry

section Clip

variable {handle : SDHandle} {size offset : UInt64} {r : UInt64 × UInt64} {p : ℕ}

/-- How many bytes of the device can be reached, from the offset of the handle on. -/
def SDHandle.reach (handle : SDHandle) : ℕ :=
  if handle.size = 0 then 2 ^ 64 - 1 else handle.size.toNat

theorem SDHandle.reach_pos (handle : SDHandle) : 0 < handle.reach := by
  unfold reach
  split_ifs with hsize
  · decide
  · exact Nat.pos_of_ne_zero fun h => hsize (UInt64.toNat_inj.1 h)

theorem clip_reach (hfit : offset.toNat + size.toNat < 2 ^ 64) (hr : handle.clip size offset = some r) :
    r.1 = handle.offset + offset ∧ offset.toNat + r.2.toNat ≤ handle.reach := by
  have hsum : (offset + size).toNat = offset.toNat + size.toNat := by
    rw [UInt64.toNat_add, Nat.mod_eq_of_lt hfit]
  by_cases hzero : handle.size = 0
  · simp only [SDHandle.clip, ne_eq, hzero, not_true_eq_false, if_false, Option.some.injEq] at hr
    subst hr
    rw [SDHandle.reach, if_pos hzero]
    exact ⟨rfl, by simp only; omega⟩
  · simp only [SDHandle.clip, ne_eq, hzero, not_false_eq_true, if_true, ge_iff_le, gt_iff_lt,
      UInt64.le_iff_toNat_le, UInt64.lt_iff_toNat_lt, hsum] at hr
    rw [SDHandle.reach, if_neg hzero]
    split_ifs at hr with hend hlong
    · obtain rfl := Option.some.inj hr
      have hle : offset ≤ handle.size := UInt64.le_iff_toNat_le.2 (by omega)
      refine ⟨rfl, ?_⟩
      rw [UInt64.toNat_sub_of_le _ _ hle]
      omega
    · obtain rfl := Option.some.inj hr
      exact ⟨rfl, not_lt.1 hlong⟩

/-- A request from the offset of the handle up to a byte that can be reached. -/
theorem clip_zero {j : ℕ} (hj : j < handle.reach) :
    handle.clip (UInt64.ofNat (j + 1)) 0 = some (handle.offset, UInt64.ofNat (j + 1)) := by
  have hlt : j + 1 < 2 ^ 64 := by
    have := handle.size.toNat_lt
    unfold SDHandle.reach at hj
    split_ifs at hj <;> omega
  by_cases hzero : handle.size = 0
  · simp only [SDHandle.clip, ne_eq, hzero, not_true_eq_false, if_false, UInt64.add_zero]
  · rw [SDHandle.reach, if_neg hzero] at hj
    have hpos : ¬ handle.size.toNat ≤ 0 := by omega
    have hle : ¬ handle.size.toNat < j + 1 := by omega
    simp only [SDHandle.clip, ne_eq, hzero, not_false_eq_true, if_true, ge_iff_le, gt_iff_lt,
      UInt64.le_iff_toNat_le, UInt64.lt_iff_toNat_lt, UInt64.zero_add, UInt64.add_zero,
      UInt64.toNat_ofNat_of_lt' hlt, UInt64.toNat_zero, hpos, hle, if_false]

/-- The bytes that requests of any size and offset reach. -/
theorem touches_iff : (∃ (size : UInt64) (offset : Int64),
    Touches (vfsUnlocked handle.clip size offset) p) ↔
      ∃ j < handle.reach, p = (handle.offset.toNat + j) % 2 ^ 64 := by
  constructor
  · rintro ⟨size, offset, r, hr, k, hk, rfl⟩
    have hr : vfsUnlocked handle.clip size offset = some r := hr
    rw [vfsUnlocked] at hr
    by_cases hneg : offset < 0
    · rw [if_pos hneg] at hr
      contradiction
    rw [if_neg hneg] at hr
    by_cases hover : ~~~size < offset.toUInt64
    · rw [if_pos hover] at hr
      contradiction
    rw [if_neg hover] at hr
    have hfit : offset.toUInt64.toNat + size.toNat < 2 ^ 64 := by
      rw [UInt64.lt_iff_toNat_lt, UInt64.toNat_not] at hover
      have hlt := size.toNat_lt
      unfold UInt64.size at hover
      omega
    obtain ⟨hstart, hreach⟩ := clip_reach hfit hr
    refine ⟨offset.toUInt64.toNat + k, by omega, ?_⟩
    rw [hstart, UInt64.toNat_add]
    omega
  · rintro ⟨j, hj, rfl⟩
    have hlt : j + 1 < 2 ^ 64 := by
      have := handle.size.toNat_lt
      unfold SDHandle.reach at hj
      split_ifs at hj <;> omega
    refine ⟨UInt64.ofNat (j + 1), 0, (handle.offset, UInt64.ofNat (j + 1)), ?_, j, ?_, rfl⟩
    · have hover : ¬ ~~~UInt64.ofNat (j + 1) < (0 : Int64).toUInt64 := by
        rw [UInt64.lt_iff_toNat_lt]
        exact Nat.not_lt_zero _
      rw [vfsUnlocked, if_neg (by decide), if_neg hover]
      exact clip_zero hj
    · rw [UInt64.toNat_ofNat_of_lt' hlt]
      exact Nat.lt_succ_self j

end Clip

namespace PartEntry

variable {e : PartEntry}

theorem confined_iff_reach : e.Confined ↔ ∀ j < e.handle.reach,
    e.start ≤ (e.handle.offset.toNat + j) % 2 ^ 64 ∧ (e.handle.offset.toNat + j) % 2 ^ 64 < e.stop := by
  constructor
  · intro h j hj
    obtain ⟨size, offset, htouch⟩ := touches_iff.2 ⟨j, hj, rfl⟩
    exact h size offset _ (Or.inl htouch)
  · intro h size offset p hp
    have htouch : Touches (vfsUnlocked e.handle.clip size offset) p := hp.elim id id
    obtain ⟨j, hj, rfl⟩ := touches_iff.1 ⟨size, offset, htouch⟩
    exact h j hj

theorem confined_mbr_iff (entry : MBRPartition) : (mbr entry).Confined ↔ (mbr entry).Sane := by
  have hlba := entry.lbaStart.toNat_lt
  have hnum := entry.numSectors.toNat_lt
  have hoffset : (mbr entry).handle.offset.toNat = entry.lbaStart.toNat * 512 := by
    change (entry.lbaStart.toUInt64 * 512).toNat = _
    rw [UInt64.toNat_mul, UInt32.toNat_toUInt64, show (512 : UInt64).toNat = 512 by decide]
    exact Nat.mod_eq_of_lt (by omega)
  have hsize : (mbr entry).handle.size.toNat = entry.numSectors.toNat * 512 := by
    change (entry.numSectors.toUInt64 * 512).toNat = _
    rw [UInt64.toNat_mul, UInt32.toNat_toUInt64, show (512 : UInt64).toNat = 512 by decide]
    exact Nat.mod_eq_of_lt (by omega)
  have hzero : entry.numSectors = 0 ↔ entry.numSectors.toNat = 0 :=
    ⟨fun h => by rw [h]; decide, fun h => UInt32.toNat_inj.1 h⟩
  rw [confined_iff_reach, hoffset]
  constructor
  · intro h hsec
    obtain ⟨-, hlt⟩ := h 0 (SDHandle.reach_pos _)
    rw [Nat.add_zero, Nat.mod_eq_of_lt (by omega), stop, hzero.1 hsec, Nat.add_zero] at hlt
    exact lt_irrefl _ hlt
  · intro h j hj
    have hne : entry.numSectors.toNat ≠ 0 := fun h0 => h (hzero.2 h0)
    have hsome : (mbr entry).handle.size ≠ 0 := by
      intro h0
      rw [h0] at hsize
      change 0 = _ at hsize
      omega
    rw [SDHandle.reach, if_neg hsome, hsize] at hj
    rw [Nat.mod_eq_of_lt (by omega), start, stop]
    omega

/-- The size of a partition of a GPT, in 64 bits. -/
theorem gpt_size (entry : GPTPartition) : (gpt entry).handle.size.toNat =
    (512 * (entry.endLBA.toNat + 1) + (2 ^ 64 - 512 * entry.startLBA.toNat % 2 ^ 64)) % 2 ^ 64 := by
  have hstart := entry.startLBA.toNat_lt
  change ((entry.endLBA - entry.startLBA + 1) * 512).toNat = _
  rw [UInt64.toNat_mul, UInt64.toNat_add, UInt64.toNat_sub]
  change ((2 ^ 64 - entry.startLBA.toNat + entry.endLBA.toNat) % 2 ^ 64 + 1) % 2 ^ 64 * 512 % 2 ^ 64 = _
  omega

theorem confined_gpt_iff (entry : GPTPartition) : (gpt entry).Confined ↔ (gpt entry).Sane := by
  have hstart := entry.startLBA.toNat_lt
  have hend := entry.endLBA.toNat_lt
  have hoffset : (gpt entry).handle.offset.toNat = entry.startLBA.toNat * 512 % 2 ^ 64 :=
    UInt64.toNat_mul _ _
  have hsize := gpt_size entry
  have hzero : (gpt entry).handle.size = 0 ↔ (gpt entry).handle.size.toNat = 0 :=
    ⟨fun h => by rw [h]; exact UInt64.toNat_zero, fun h => UInt64.toNat_inj.1 h⟩
  rw [confined_iff_reach, hoffset]
  constructor
  · intro h
    obtain ⟨hle, hlt⟩ := h 0 (SDHandle.reach_pos _)
    simp only [start, stop] at hle hlt
    have hfirst : entry.startLBA.toNat ≤ entry.endLBA.toNat ∧ entry.startLBA.toNat < 2 ^ 55 := by omega
    refine ⟨hfirst.1, hfirst.2, ?_⟩
    -- past the end the first byte of the device is reached
    have hwrap (hpos : 0 < entry.startLBA.toNat) :
        (gpt entry).handle.reach ≤ 2 ^ 64 - 512 * entry.startLBA.toNat := by
      by_contra hmore
      obtain ⟨hbelow, -⟩ := h (2 ^ 64 - 512 * entry.startLBA.toNat) (not_le.1 hmore)
      rw [start] at hbelow
      omega
    split_ifs with hz
    · by_contra hne
      have hreach := hwrap (Nat.pos_of_ne_zero hne)
      rw [SDHandle.reach, if_pos (hzero.2 (by omega))] at hreach
      omega
    · by_contra hmore
      have hreach := hwrap (by omega)
      have hsome : (gpt entry).handle.size ≠ 0 := fun h0 => hz (by have := hzero.1 h0; omega)
      rw [SDHandle.reach, if_neg hsome] at hreach
      omega
  · rintro ⟨hle, hlt, hfits⟩ j hj
    rw [start, stop]
    unfold SDHandle.reach at hj
    by_cases hz : 512 * (entry.endLBA.toNat + 1 - entry.startLBA.toNat) % 2 ^ 64 = 0
    · rw [if_pos hz] at hfits
      rw [if_pos (hzero.2 (by omega))] at hj
      omega
    · rw [if_neg hz] at hfits
      have hsome : (gpt entry).handle.size ≠ 0 := fun h0 => hz (by have := hzero.1 h0; omega)
      rw [if_neg hsome] at hj
      omega

end PartEntry

/-- The handles of the partitions keep to their entries exactly if all the entries are sane. -/
theorem handles_confined_iff (dev : Device) :
    (∀ e ∈ dev.reloadPartTable, e.Confined) ↔ ∀ e ∈ dev.reloadPartTable, e.Sane := by
  have hentry (e : PartEntry) : e.Confined ↔ e.Sane := by
    cases e with
    | mbr entry => exact PartEntry.confined_mbr_iff entry
    | gpt entry => exact PartEntry.confined_gpt_iff entry
  simp only [hentry]

/-- A device with an MBR whose first entry has a type and a first sector, but no sectors. -/
def emptyPartDevice : Device where
  sdRead _ _ := []
  sdRead_length_le _ size := Nat.zero_le size
  stack pos := setRange (fun _ => 0) 0
    (pack (if pos = 0x1FE then [(2, 0xAA55)] else [(4, 0), (4, 0x83), (4, 1), (4, 0)]))
  heap _ := 0
  devfsAdd _ := true

theorem reloadPartTable_emptyPart :
    .mbr ⟨0x83, 1, 0⟩ ∈ emptyPartDevice.reloadPartTable := by
  decide

/-- The handle of a partition without sectors has no limit. -/
theorem handles_not_confined : ¬ ∀ dev : Device, ∀ e ∈ dev.reloadPartTable, e.Confined := by
  intro h
  have hsane := (PartEntry.confined_mbr_iff ⟨0x83, 1, 0⟩).1 (h _ _ reloadPartTable_emptyPart)
  exact hsane rfl

end Glidix.Storage
