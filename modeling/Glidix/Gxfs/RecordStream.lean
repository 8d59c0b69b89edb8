import Glidix.Gxfs.InodeChain

/-!
# The stream of records of an inode

The blocks of an inode are found by following `ihNext`, as far as they can be read; on a damaged volume they
may go round in a circle.  Their contents without the links make up a stream of bytes, which the records divide.
A reader is at a position of the stream (`InodeReader.At`), and the two loops of `gxfsLoadInode` that go on in a
follow-up block read the stream from there.
-/

namespace Glidix.Gxfs

open Bytes

/-- Block `k` of the chain from `ino` on, as far as the blocks can be read. -/
def chainBlock (v : Volume) (ino : ℕ) : ℕ → Option ℕ
  | 0 => if v.ioOk ino then some ino else none
  | k + 1 =>
    (chainBlock v ino k).bind fun b =>
      if blockNext v b ≠ 0 ∧ v.ioOk (blockNext v b) then some (blockNext v b) else none

/-- The bytes of the chain. -/
def stream (v : Volume) (ino : ℕ) : Bytes := fun p =>
  match chainBlock v ino (p / 4088) with
  | some b => v.disk b (8 + p % 4088)
  | none => 0

/-- All bytes from `p` on up to `p + n` are there. -/
def Readable (v : Volume) (ino p n : ℕ) : Prop :=
  ∀ q, p ≤ q → q < p + n → chainBlock v ino (q / 4088) ≠ none

/-- The last block of the chain ends at `p`. -/
def ChainEnds (v : Volume) (ino p : ℕ) : Prop :=
  ∃ k b, chainBlock v ino k = some b ∧ blockNext v b = 0 ∧ p = 4088 * (k + 1)

def streamType (v : Volume) (ino p : ℕ) : UInt32 := UInt32.ofNat (leNat 4 fun k => stream v ino (p + k))

def streamSize (v : Volume) (ino p : ℕ) : ℕ := leNat 4 fun k => stream v ino (p + 4 + k)

/-- The position of the `n`-th record. -/
def recordPos (v : Volume) (ino : ℕ) : ℕ → ℕ
  | 0 => 0
  | n + 1 => recordPos v ino n + streamSize v ino (recordPos v ino n)

def recordType (v : Volume) (ino n : ℕ) : UInt32 := streamType v ino (recordPos v ino n)

def recordSize (v : Volume) (ino n : ℕ) : ℕ := streamSize v ino (recordPos v ino n)

/-- The reader is at position `p` of the stream. -/
def InodeReader.At (v : Volume) (ino : ℕ) (r : InodeReader) (p : ℕ) : Prop :=
  ∃ k b, chainBlock v ino k = some b ∧ r.blockbuf = v.disk b ∧ 8 ≤ r.readpos ∧ r.readpos ≤ 4096 ∧
    p + 8 = 4088 * k + r.readpos

section

variable {v : Volume} {ino p q n k b rounds : ℕ} {r r' : InodeReader}

theorem stream_eq (h : chainBlock v ino (p / 4088) = some b) : stream v ino p = v.disk b (8 + p % 4088) := by
  unfold stream
  rw [h]

theorem chainBlock_succ (h : chainBlock v ino k = some b) : chainBlock v ino (k + 1) =
    if blockNext v b ≠ 0 ∧ v.ioOk (blockNext v b) then some (blockNext v b) else none := by
  rw [chainBlock, h, Option.bind_some]

/-- Behind the end of the chain there is no block. -/
theorem ChainEnds.block_eq (h : ChainEnds v ino p) : chainBlock v ino (p / 4088) = none := by
  obtain ⟨k, b, hb, hnext, rfl⟩ := h
  rw [Nat.mul_div_cancel_left _ (by decide), chainBlock_succ hb, if_neg (fun h => h.1 hnext)]

theorem readable_zero : Readable v ino p 0 := fun _ hle hlt => absurd hlt (Nat.not_lt.2 hle)

/-- A part of a block, and what comes behind it. -/
theorem readable_iff (v : Volume) (ino : ℕ) {now : ℕ} (hnow : 0 < now) (hle : now ≤ n) (hin : p % 4088 + now ≤ 4088) :
    Readable v ino p n ↔ chainBlock v ino (p / 4088) ≠ none ∧ Readable v ino (p + now) (n - now) := by
  constructor
  · intro h
    refine ⟨h p le_rfl (by omega), fun q hq hlt => h q (by omega) (by omega)⟩
  · rintro ⟨hhere, hrest⟩ q hq hlt
    by_cases hpart : q < p + now
    · have hsame : q / 4088 = p / 4088 := by omega
      rwa [hsame]
    · exact hrest q (Nat.le_of_not_lt hpart) (by omega)

/-- Between two records, the reader is at the end of the chain or goes on. -/
theorem InodeReader.At.ends_iff (h : r.At v ino p) :
    (r.readpos = 4096 ∧ r.ihNext = 0) ↔ ChainEnds v ino p := by
  obtain ⟨k, b, hb, hbuf, hmin, hmax, hp⟩ := h
  have hnext : r.ihNext = blockNext v b := by rw [InodeReader.ihNext, hbuf, blockNext]
  rw [hnext]
  constructor
  · rintro ⟨hfull, hzero⟩
    exact ⟨k, b, hb, hzero, by omega⟩
  · rintro ⟨k', b', hb', hzero, hp'⟩
    -- the reader is not at the beginning of the block behind the last one
    have hk : k ≠ k' + 1 := by
      rintro rfl
      rw [chainBlock_succ hb', if_neg (fun h => h.1 hzero)] at hb
      cases hb
    obtain rfl : k = k' := by omega
    obtain rfl := Option.some.inj (hb.symm.trans hb')
    exact ⟨by omega, hzero⟩

theorem InodeReader.At.moveOn (h : r.At v ino p) :
    (∃ b r', chainBlock v ino (p / 4088) = some b ∧ r.moveOn v = some r' ∧ r'.At v ino p ∧
      r'.blockbuf = v.disk b ∧ r'.readpos = 8 + p % 4088) ∨
        chainBlock v ino (p / 4088) = none ∧ r.moveOn v = none := by
  obtain ⟨k, b, hb, hbuf, hmin, hmax, hp⟩ := h
  by_cases hfull : r.readpos = 4096
  · have hk : p / 4088 = k + 1 := by omega
    have hnext : r.ihNext = blockNext v b := by rw [InodeReader.ihNext, hbuf, blockNext]
    rw [hk, chainBlock_succ hb, InodeReader.moveOn, if_pos hfull, InodeReader.followUp, gxfsReadBlock, hnext]
    by_cases hzero : blockNext v b = 0
    · right
      rw [if_pos hzero, if_neg (fun h => h.1 hzero)]
      exact ⟨rfl, rfl⟩
    · cases hio : v.ioOk (blockNext v b) with
      | false =>
        right
        rw [if_neg hzero, if_neg (fun h => by cases h.2)]
        exact ⟨rfl, rfl⟩
      | true =>
        left
        have hnew : chainBlock v ino (k + 1) = some (blockNext v b) := by
          rw [chainBlock_succ hb, if_pos ⟨hzero, hio⟩]
        rw [if_neg hzero, if_pos ⟨hzero, rfl⟩]
        refine ⟨_, _, rfl, rfl, ⟨k + 1, _, hnew, rfl, le_rfl, ?_, ?_⟩, rfl, ?_⟩
        · show 8 ≤ 4096
          decide
        · show p + 8 = 4088 * (k + 1) + 8
          omega
        · show 8 = 8 + p % 4088
          omega
  · left
    have hk : p / 4088 = k := by omega
    rw [hk, InodeReader.moveOn, if_neg hfull]
    exact ⟨b, r, hb, rfl, ⟨k, b, hb, hbuf, hmin, hmax, hp⟩, hbuf, by omega⟩

/-- A part of a block that is read is a part of the stream. -/
theorem slice_block {m : ℕ} (hb : chainBlock v ino (p / 4088) = some b) (hin : p % 4088 + m ≤ 4088) :
    (v.disk b).slice (8 + p % 4088) m = (stream v ino).slice p m := by
  apply List.map_congr_left
  intro j hj
  have hj := List.mem_range.1 hj
  have hsame : (p + j) / 4088 = p / 4088 := by omega
  rw [stream_eq (by rw [hsame]; exact hb)]
  congr 1
  omega

/-- The loop that reads a record gives the bytes of the stream, if they are there. -/
theorem InodeReader.At.readInodeChunks (h : r.At v ino p) (hrounds : n ≤ rounds) :
    (Readable v ino p n ∧ ∃ r', readInodeChunks v rounds r n = some ((stream v ino).slice p n, r') ∧
      r'.At v ino (p + n)) ∨ ¬ Readable v ino p n ∧ readInodeChunks v rounds r n = none := by
  induction rounds generalizing r p n with
  | zero =>
    obtain rfl := Nat.le_zero.1 hrounds
    exact Or.inl ⟨readable_zero, r, rfl, h⟩
  | succ rounds ih =>
    rw [Gxfs.readInodeChunks]
    by_cases hn : n = 0
    · subst hn
      rw [if_pos rfl]
      exact Or.inl ⟨readable_zero, r, rfl, h⟩
    rw [if_neg hn]
    rcases h.moveOn with ⟨b, r₁, hb, hmove, hat, hbuf, hpos⟩ | ⟨hnone, hmove⟩
    · have hmod := Nat.mod_lt p (show 4088 > 0 by decide)
      obtain ⟨now, hnow⟩ : ∃ now, now = min n (4096 - r₁.readpos) := ⟨_, rfl⟩
      have hin : p % 4088 + now ≤ 4088 := by omega
      have hiff := readable_iff v ino (show 0 < now by omega) (show now ≤ n by omega) hin
      have hat₂ : ({ r₁ with readpos := r₁.readpos + now } : InodeReader).At v ino (p + now) := by
        obtain ⟨k, b', hb', hbuf', hmin, hmax, hp⟩ := hat
        refine ⟨k, b', hb', hbuf', ?_, ?_, ?_⟩
        · show 8 ≤ r₁.readpos + now
          omega
        · show r₁.readpos + now ≤ 4096
          omega
        · show p + now + 8 = 4088 * k + (r₁.readpos + now)
          omega
      have hblock : chainBlock v ino (p / 4088) ≠ none := by
        rw [hb]
        exact Option.some_ne_none b
      simp only [hmove, Option.bind_eq_bind, Option.bind_some, ← hnow]
      rcases ih hat₂ (show n - now ≤ rounds by omega) with ⟨hread, r', heq, hat'⟩ | ⟨hread, heq⟩
      · left
        refine ⟨hiff.2 ⟨hblock, hread⟩, r', ?_, ?_⟩
        · have hsum : now + (n - now) = n := by omega
          have hslice := slice_add (stream v ino) p now (n - now)
          rw [hsum] at hslice
          rw [heq, Option.bind_some, hbuf, hpos, slice_block hb hin, hslice]
        · have hsum : p + now + (n - now) = p + n := by omega
          rwa [hsum] at hat'
      · right
        rw [heq, Option.bind_none]
        exact ⟨fun hall => hread (hiff.1 hall).2, rfl⟩
    · right
      rw [hmove]
      refine ⟨fun hall => hall p le_rfl (by omega) hnone, rfl⟩

/-- The header of a record is read from the block in which the record begins. -/
theorem InodeReader.At.header (hb : chainBlock v ino (p / 4088) = some b) (hbuf : r.blockbuf = v.disk b)
    (hpos : r.readpos = 8 + p % 4088) (h8 : p % 8 = 0) :
    r.rhType = streamType v ino p ∧ r.rhSize = streamSize v ino p := by
  have hbyte : ∀ j < 8, r.blockbuf (r.readpos + j) = stream v ino (p + j) := by
    intro j hj
    have hsame : (p + j) / 4088 = p / 4088 := by omega
    rw [hbuf, hpos, stream_eq (by rw [hsame]; exact hb)]
    congr 1
    omega
  rw [InodeReader.rhType, InodeReader.rhSize, streamType, streamSize]
  constructor
  · congr 1
    exact leNat_congr fun j hj => hbyte j (by omega)
  · refine leNat_congr fun j hj => ?_
    rw [Nat.add_assoc, Nat.add_assoc]
    exact hbyte (4 + j) (by omega)

end

end Glidix.Gxfs
