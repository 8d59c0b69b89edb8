import Mathlib.Data.Nat.Bitwise
import Mathlib.Data.Nat.ModEq
import Mathlib.Tactic.NormNum

/-!
# IPv4 and IPv6 headers

The functions that write a `PacketInfo` as a packet header and read it back.  Packets are lists of
bytes; the integer fields of a `PacketInfo` are natural numbers, and what is cut off when they are
stored in a field of the header is written out.  The machine is little-endian, so `be16` is the
store of a field after `__builtin_bswap16`, and `le16`, `le32` are plain stores.
-/

namespace Glidix.Net

/-! ## Fields -/

/-- The bytes of a 16-bit field stored after `__builtin_bswap16`. -/
def be16 (n : ℕ) : List UInt8 := [.ofNat (n / 256), .ofNat n]

/-- A 16-bit field read before `__builtin_bswap16`. -/
def getBe16 (b₀ b₁ : UInt8) : ℕ := b₀.toNat * 256 + b₁.toNat

def le16 (n : ℕ) : List UInt8 := [.ofNat n, .ofNat (n / 256)]

def getLe16 (b₀ b₁ : UInt8) : ℕ := b₀.toNat + b₁.toNat * 256

def le32 (n : ℕ) : List UInt8 := le16 n ++ le16 (n / 65536)

def getLe32 (b₀ b₁ b₂ b₃ : UInt8) : ℕ := getLe16 b₀ b₁ + getLe16 b₂ b₃ * 65536

theorem getBe16_be16 (n : ℕ) :
    getBe16 (.ofNat (n / 256)) (.ofNat n) = n % 65536 := by
  simp only [getBe16, UInt8.toNat_ofNat']
  omega

theorem getLe16_le16 (n : ℕ) :
    getLe16 (.ofNat n) (.ofNat (n / 256)) = n % 65536 := by
  simp only [getLe16, UInt8.toNat_ofNat']
  omega

/-! ## The header checksum -/

/-- One step of the accumulator of `ipv4_checksum`. -/
def checksumAdd (acc word : ℕ) : ℕ := if acc + word > 0xffff then acc + word - 0xffff else acc + word

/-- The accumulator of `ipv4_checksum` after some bytes. -/
def checksumAcc : ℕ → List UInt8 → ℕ
  | acc, [] => acc
  | acc, [b] => checksumAdd acc (getBe16 b 0)
  | acc, b₀ :: b₁ :: data => checksumAcc (checksumAdd acc (getBe16 b₀ b₁)) data

/-- `ipv4_checksum`, before the final `__builtin_bswap16`. -/
def ipv4_checksum (data : List UInt8) : ℕ := 0xffff - checksumAcc 0xffff data

theorem checksumAdd_spec {acc word : ℕ} (h₀ : 0 < acc) (h₁ : acc ≤ 0xffff) (hw : word ≤ 0xffff) :
    0 < checksumAdd acc word ∧ checksumAdd acc word ≤ 0xffff ∧
      checksumAdd acc word ≡ acc + word [MOD 0xffff] := by
  unfold checksumAdd
  split_ifs with h
  · refine ⟨by omega, by omega, ?_⟩
    rw [Nat.ModEq]
    omega
  · exact ⟨by omega, by omega, rfl⟩

theorem getBe16_le (b₀ b₁ : UInt8) : getBe16 b₀ b₁ ≤ 0xffff := by
  have h₀ := b₀.toNat_lt
  have h₁ := b₁.toNat_lt
  rw [getBe16]
  omega

/-- The bytes of a list of big-endian words. -/
def wordBytes (words : List (UInt8 × UInt8)) : List UInt8 := words.flatMap fun w => [w.1, w.2]

/-- The accumulator is never zero: it stands for a sum modulo `0xffff`. -/
theorem checksumAcc_spec (words : List (UInt8 × UInt8)) {acc : ℕ} (h₀ : 0 < acc)
    (h₁ : acc ≤ 0xffff) :
    let r := checksumAcc acc (wordBytes words)
    0 < r ∧ r ≤ 0xffff ∧ r ≡ acc + (words.map fun w => getBe16 w.1 w.2).sum [MOD 0xffff] := by
  induction words generalizing acc with
  | nil => exact ⟨h₀, h₁, rfl⟩
  | cons w words ih =>
    obtain ⟨p₀, p₁, p₂⟩ := checksumAdd_spec h₀ h₁ (getBe16_le w.1 w.2)
    obtain ⟨q₀, q₁, q₂⟩ := ih p₀ p₁
    refine ⟨q₀, q₁, q₂.trans ?_⟩
    rw [List.map_cons, List.sum_cons, ← Nat.add_assoc]
    exact p₂.add_right _

/-! ## IPv4 -/

/-- A decomposed IPv4 packet header. -/
structure PacketInfo4 where
  saddr : List UInt8
  daddr : List UInt8
  proto : ℕ
  dataOffset : ℕ
  size : ℕ
  id : ℕ
  fragOff : ℕ
  hop : UInt8
  moreFrags : Bool
  deriving DecidableEq

/-- The `flagsFragOff` field: the flags "don't fragment" and "more fragments" over the offset. -/
def flagsFragOff4 (fragOff : ℕ) (moreFrags : Bool) : ℕ :=
  let flags := if moreFrags then (1 <<< 14) ||| (1 <<< 13) else 1 <<< 14
  (fragOff % 65536) ||| flags

def ipv4_info2header (info : PacketInfo4) : List UInt8 :=
  let front := [0x45, 0] ++ be16 (20 + info.size) ++ le16 info.id ++
    be16 (flagsFragOff4 info.fragOff info.moreFrags) ++ [info.hop, .ofNat info.proto]
  let addrs := info.saddr ++ info.daddr
  front ++ be16 (ipv4_checksum (front ++ [0, 0] ++ addrs)) ++ addrs

def ipv4_header2info (head : List UInt8) : Option PacketInfo4 :=
  match head with
  | versionIHL :: _ :: len₀ :: len₁ :: id₀ :: id₁ :: frag₀ :: frag₁ :: hop :: proto :: _ :: _ ::
      addrs =>
    if versionIHL ≠ 0x45 then none
    else if ipv4_checksum (head.take 20) ≠ 0 then none
    else
      let flagsFragOff := getBe16 frag₀ frag₁
      let flags := (flagsFragOff >>> 13) &&& 0x7
      some
        { size := (getBe16 len₀ len₁ + (2 ^ 64 - 20)) % 2 ^ 64
          id := getLe16 id₀ id₁
          fragOff := flagsFragOff &&& ((1 <<< 13) - 1)
          moreFrags := (flags &&& 1) != 0
          dataOffset := 20
          hop := hop
          proto := proto.toNat
          saddr := addrs.take 4
          daddr := (addrs.drop 4).take 4 }
  | _ => none

theorem flagsFragOff4_and (fragOff : ℕ) (moreFrags : Bool) :
    flagsFragOff4 fragOff moreFrags &&& ((1 <<< 13) - 1) = fragOff % 8192 := by
  have hflags : (if moreFrags then (1 <<< 14) ||| (1 <<< 13) else 1 <<< 14) % 2 ^ 13 = 0 := by
    cases moreFrags <;> rfl
  rw [flagsFragOff4, show (1 <<< 13) - 1 = 2 ^ 13 - 1 from rfl, Nat.and_two_pow_sub_one_eq_mod,
    Nat.or_mod_two_pow, hflags, Nat.or_zero]
  omega

theorem flagsFragOff4_lt (fragOff : ℕ) (moreFrags : Bool) :
    flagsFragOff4 fragOff moreFrags < 65536 := by
  have hflags : (if moreFrags then (1 <<< 14) ||| (1 <<< 13) else 1 <<< 14) < 2 ^ 16 := by
    cases moreFrags <;> decide
  exact Nat.or_lt_two_pow (Nat.mod_lt _ (by norm_num)) hflags

/-- "More fragments" is read from bit 13, where the offset may have put a bit of its own. -/
theorem flagsFragOff4_more (fragOff : ℕ) (moreFrags : Bool) :
    ((flagsFragOff4 fragOff moreFrags >>> 13 &&& 0x7) &&& 1 != 0) =
      (moreFrags || (fragOff % 65536).testBit 13) := by
  have hbit : ∀ n : ℕ, ((n >>> 13 &&& 0x7) &&& 1 != 0) = n.testBit 13 := fun n => by
    rw [Nat.and_assoc, Nat.testBit, Nat.and_comm (n >>> 13) _]
    rfl
  have hflags : (if moreFrags then (1 <<< 14) ||| (1 <<< 13) else 1 <<< 14).testBit 13 =
      moreFrags := by
    cases moreFrags <;> decide
  rw [hbit, flagsFragOff4, Nat.testBit_or, hflags, Bool.or_comm]

/-- A header with its own checksum in place has the checksum zero. -/
theorem ipv4_checksum_valid (front back : List (UInt8 × UInt8)) :
    ipv4_checksum (wordBytes front ++
      be16 (ipv4_checksum (wordBytes front ++ [0, 0] ++ wordBytes back)) ++ wordBytes back) = 0 := by
  set c := ipv4_checksum (wordBytes front ++ [0, 0] ++ wordBytes back) with hc
  have hbytes : ∀ b₀ b₁ : UInt8, wordBytes front ++ [b₀, b₁] ++ wordBytes back =
      wordBytes (front ++ (b₀, b₁) :: back) := fun b₀ b₁ => by simp [wordBytes]
  obtain ⟨p₀, p₁, p₂⟩ := checksumAcc_spec (front ++ ((0 : UInt8), (0 : UInt8)) :: back)
    (show 0 < 0xffff by norm_num) le_rfl
  obtain ⟨q₀, q₁, q₂⟩ := checksumAcc_spec (front ++ (UInt8.ofNat (c / 256), UInt8.ofNat c) :: back)
    (show 0 < 0xffff by norm_num) le_rfl
  have hcval : c = 0xffff - checksumAcc 0xffff (wordBytes (front ++ (0, 0) :: back)) := by
    rw [hc, hbytes]
    rfl
  have hzero : getBe16 (0 : UInt8) (0 : UInt8) = 0 := rfl
  have hword : getBe16 (.ofNat (c / 256)) (.ofNat c) = c := by
    rw [getBe16_be16, Nat.mod_eq_of_lt (by omega)]
  rw [be16, hbytes, ipv4_checksum]
  simp only [List.map_append, List.map_cons, List.sum_append, List.sum_cons, hword, hzero] at p₂ q₂
  simp only [Nat.ModEq] at p₂ q₂
  omega

/-- What a written IPv4 header is read back as. -/
theorem ipv4_header2info_info2header (info : PacketInfo4) (data : List UInt8)
    (hs : info.saddr.length = 4) (hd : info.daddr.length = 4) :
    ipv4_header2info (ipv4_info2header info ++ data) = some
      { info with
        size := ((20 + info.size) % 65536 + (2 ^ 64 - 20)) % 2 ^ 64
        id := info.id % 65536
        fragOff := info.fragOff % 8192
        moreFrags := info.moreFrags || (info.fragOff % 65536).testBit 13
        dataOffset := 20
        proto := info.proto % 256 } := by
  obtain ⟨saddr, daddr, proto, dataOffset, size, id, fragOff, hop, moreFrags⟩ := info
  obtain ⟨s₀, s₁, s₂, s₃, rfl⟩ : ∃ s₀ s₁ s₂ s₃, saddr = [s₀, s₁, s₂, s₃] := by
    match saddr, hs with
    | [s₀, s₁, s₂, s₃], _ => exact ⟨s₀, s₁, s₂, s₃, rfl⟩
  obtain ⟨d₀, d₁, d₂, d₃, rfl⟩ : ∃ d₀ d₁ d₂ d₃, daddr = [d₀, d₁, d₂, d₃] := by
    match daddr, hd with
    | [d₀, d₁, d₂, d₃], _ => exact ⟨d₀, d₁, d₂, d₃, rfl⟩
  have hvalid := ipv4_checksum_valid
    [(0x45, 0), (.ofNat ((20 + size) / 256), .ofNat (20 + size)), (.ofNat id, .ofNat (id / 256)),
      (.ofNat (flagsFragOff4 fragOff moreFrags / 256), .ofNat (flagsFragOff4 fragOff moreFrags)),
      (hop, .ofNat proto)]
    [(s₀, s₁), (s₂, s₃), (d₀, d₁), (d₂, d₃)]
  simp only [wordBytes, be16, List.flatMap_cons, List.flatMap_nil, List.cons_append,
    List.nil_append] at hvalid
  simp only [ipv4_info2header, be16, le16, List.cons_append, List.nil_append, ipv4_header2info,
    ne_eq, not_true_eq_false, if_false, List.take_succ_cons, List.take_zero, hvalid]
  simp only [getBe16_be16, getLe16_le16, Nat.mod_eq_of_lt (flagsFragOff4_lt fragOff moreFrags),
    flagsFragOff4_and, flagsFragOff4_more, UInt8.toNat_ofNat', List.drop_succ_cons, List.drop_zero,
    List.take_succ_cons, List.take_zero]

/-! ## IPv6 -/

/-- A decomposed IPv6 packet header, with its fragment header. -/
structure PacketInfo6 where
  saddr : List UInt8
  daddr : List UInt8
  proto : ℕ
  dataOffset : ℕ
  size : ℕ
  hop : UInt8
  flowinfo : ℕ
  fragOff : ℕ
  id : ℕ
  moreFrags : Bool
  deriving DecidableEq

/-- The next-header number of the fragment header. -/
def fragmentHeader : ℕ := 44

/-- The `fragResM` field. -/
def fragResM6 (fragOff : ℕ) (moreFrags : Bool) : ℕ := (fragOff ||| if moreFrags then 1 else 0) % 65536

def ipv6_info2header (info : PacketInfo6) : List UInt8 :=
  let versionClassFlow := le32 (0x60 ||| (info.flowinfo >>> 4 <<< 4))
  let addrs := info.saddr ++ info.daddr
  if 0 < info.fragOff ∨ info.moreFrags = true then
    versionClassFlow ++ be16 (info.size + 8) ++ [.ofNat fragmentHeader, info.hop] ++ addrs ++
      ([.ofNat info.proto, 0] ++ be16 (fragResM6 info.fragOff info.moreFrags) ++ le32 info.id)
  else versionClassFlow ++ be16 info.size ++ [.ofNat info.proto, info.hop] ++ addrs

def ipv6_header2info (head : List UInt8) : Option PacketInfo6 :=
  match head with
  | v₀ :: v₁ :: v₂ :: v₃ :: len₀ :: len₁ :: nextHeader :: hop :: addrs =>
    let versionClassFlow := getLe32 v₀ v₁ v₂ v₃
    if versionClassFlow &&& 0xF0 ≠ 0x60 then none
    else
      let info : PacketInfo6 :=
        { size := getBe16 len₀ len₁
          proto := nextHeader.toNat
          hop := hop
          dataOffset := 40
          flowinfo := versionClassFlow >>> 4 <<< 4
          fragOff := 0
          id := 0  -- not set
          moreFrags := false
          saddr := addrs.take 16
          daddr := (addrs.drop 16).take 16 }
      if nextHeader.toNat = fragmentHeader then
        -- bytes missing from a short packet are whatever lies behind it
        let fraghead := fun i => (addrs.drop 32).getD i 0
        let fragResM := getBe16 (fraghead 2) (fraghead 3)
        some
          { info with
            proto := (fraghead 0).toNat
            fragOff := fragResM >>> 3 <<< 3
            moreFrags := fragResM &&& 1 != 0
            id := getLe32 (fraghead 4) (fraghead 5) (fraghead 6) (fraghead 7)
            dataOffset := 40 + 8
            size := (info.size + (2 ^ 64 - 8)) % 2 ^ 64 }
      else some info
  | _ => none

example : ipv6_header2info [] = none := by simp only [ipv6_header2info]

theorem fragResM6_spec {fragOff : ℕ} (h₈ : 8 ∣ fragOff) (hlt : fragOff < 65536)
    (moreFrags : Bool) :
    fragResM6 fragOff moreFrags >>> 3 <<< 3 = fragOff ∧
      (fragResM6 fragOff moreFrags &&& 1 != 0) = moreFrags := by
  obtain ⟨q, rfl⟩ := h₈
  have hlow : (if moreFrags then 1 else 0) < 2 ^ 3 := by cases moreFrags <;> decide
  rw [fragResM6, show 8 * q = 2 ^ 3 * q from rfl, ← Nat.two_pow_add_eq_or_of_lt hlow,
    Nat.shiftRight_eq_div_pow, Nat.shiftLeft_eq, Nat.and_one_is_mod]
  cases moreFrags
  · refine ⟨by simp only [Bool.false_eq_true, if_false]; omega, ?_⟩
    rw [bne_eq_false_iff_eq]
    simp only [Bool.false_eq_true, if_false]
    omega
  · refine ⟨by simp only [if_true]; omega, ?_⟩
    rw [bne_iff_ne]
    simp only [if_true]
    omega

section

variable (info : PacketInfo6) (data : List UInt8)

theorem take_drop_addrs {saddr daddr : List UInt8} (rest : List UInt8) (hs : saddr.length = 16)
    (hd : daddr.length = 16) :
    (saddr ++ daddr ++ rest).take 16 = saddr ∧ ((saddr ++ daddr ++ rest).drop 16).take 16 = daddr ∧
      (saddr ++ daddr ++ rest).drop 32 = rest := by
  refine ⟨?_, ?_, ?_⟩
  · rw [List.append_assoc, List.take_left' hs]
  · rw [List.append_assoc, List.drop_left' hs, List.take_left' hd]
  · rw [List.drop_left' (by rw [List.length_append, hs, hd])]

/-- What the header of a fragment is read back as. -/
theorem ipv6_header2info_fragment (hs : info.saddr.length = 16) (hd : info.daddr.length = 16)
    (hflow : info.flowinfo = 0) (hfrag : 0 < info.fragOff ∨ info.moreFrags = true)
    (h₈ : 8 ∣ info.fragOff) (hlt : info.fragOff < 65536) :
    ipv6_header2info (ipv6_info2header info ++ data) = some
      { info with
        size := ((info.size + 8) % 65536 + (2 ^ 64 - 8)) % 2 ^ 64
        dataOffset := 48
        proto := info.proto % 256
        id := info.id % 2 ^ 32
        flowinfo := 0x60 } := by
  obtain ⟨saddr, daddr, proto, dataOffset, size, hop, flowinfo, fragOff, id, moreFrags⟩ := info
  obtain rfl : flowinfo = 0 := hflow
  obtain ⟨hoff, hmore⟩ := fragResM6_spec h₈ hlt moreFrags
  have hfield : fragResM6 fragOff moreFrags < 65536 := Nat.mod_lt _ (by norm_num)
  obtain ⟨h₁, h₂, h₃⟩ := take_drop_addrs ([UInt8.ofNat proto, 0] ++
    be16 (fragResM6 fragOff moreFrags) ++ le32 id ++ data) hs hd
  simp only [ipv6_info2header, if_pos hfrag, le32, le16, be16, List.cons_append, List.nil_append,
    List.append_assoc, ipv6_header2info] at h₁ h₂ h₃ ⊢
  rw [if_neg (by decide), if_pos (by decide)]
  simp only [h₁, h₂, h₃, List.getD_cons_zero, List.getD_cons_succ, getBe16_be16,
    Nat.mod_eq_of_lt hfield, hoff, hmore, UInt8.toNat_ofNat', getLe32, getLe16_le16]
  congr 1
  simp only [PacketInfo6.mk.injEq, true_and, and_true]
  exact ⟨by decide, by omega⟩

/-- What the header of a packet that is not fragmented is read back as. -/
theorem ipv6_header2info_whole (hs : info.saddr.length = 16) (hd : info.daddr.length = 16)
    (hflow : info.flowinfo = 0) (hoff : info.fragOff = 0) (hmore : info.moreFrags = false)
    (hproto : info.proto % 256 ≠ fragmentHeader) :
    ipv6_header2info (ipv6_info2header info ++ data) = some
      { info with
        size := info.size % 65536
        dataOffset := 40
        proto := info.proto % 256
        id := 0
        flowinfo := 0x60 } := by
  obtain ⟨saddr, daddr, proto, dataOffset, size, hop, flowinfo, fragOff, id, moreFrags⟩ := info
  obtain rfl : flowinfo = 0 := hflow
  obtain rfl : fragOff = 0 := hoff
  obtain rfl : moreFrags = false := hmore
  obtain ⟨h₁, h₂, -⟩ := take_drop_addrs data hs hd
  simp only [ipv6_info2header, Nat.lt_irrefl, Bool.false_eq_true, or_self, if_false, le32, le16,
    be16, List.cons_append, List.nil_append, List.append_assoc, ipv6_header2info] at h₁ h₂ ⊢
  rw [if_neg (by decide), if_neg (by rwa [UInt8.toNat_ofNat'])]
  simp only [h₁, h₂, getBe16_be16, UInt8.toNat_ofNat', getLe32, getLe16_le16]
  congr 1

/-- A packet that is not fragmented but whose protocol is the fragment header loses eight bytes. -/
theorem ipv6_header2info_fragmentHeader (hs : info.saddr.length = 16)
    (hd : info.daddr.length = 16) (hflow : info.flowinfo = 0) (hoff : info.fragOff = 0)
    (hmore : info.moreFrags = false) (hproto : info.proto % 256 = fragmentHeader) :
    ∃ info', ipv6_header2info (ipv6_info2header info ++ data) = some info' ∧
      info'.size = (info.size % 65536 + (2 ^ 64 - 8)) % 2 ^ 64 := by
  obtain ⟨saddr, daddr, proto, dataOffset, size, hop, flowinfo, fragOff, id, moreFrags⟩ := info
  obtain rfl : flowinfo = 0 := hflow
  obtain rfl : fragOff = 0 := hoff
  obtain rfl : moreFrags = false := hmore
  simp only [ipv6_info2header, Nat.lt_irrefl, Bool.false_eq_true, or_self, if_false, le32, le16,
    be16, List.cons_append, List.nil_append, List.append_assoc, ipv6_header2info]
  rw [if_neg (by decide), if_pos (by rwa [UInt8.toNat_ofNat'])]
  exact ⟨_, rfl, by simp only [getBe16_be16]⟩

end

end Glidix.Net
