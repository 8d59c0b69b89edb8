import Mathlib.Data.Nat.ModEq
import Mathlib.Tactic.NormNum

/-!
# Byte buffers and little-endian words

A byte buffer is a function from offsets to bytes.  `leNat` reads a little-endian number,
`byteAt` is the byte of a number at a given position, and `getQuad`/`setQuad` read and write the
64-bit words of a buffer.
-/

/-- A byte buffer; which offsets mean something is up to its user. -/
abbrev Bytes := ℕ → UInt8

namespace Bytes

/-- The little-endian number in the first `n` bytes of `b`. -/
def leNat : ℕ → Bytes → ℕ
  | 0, _ => 0
  | n + 1, b => (b 0).toNat + 256 * leNat n fun k => b (k + 1)

example : leNat 2 (fun _ => 1) = 257 := by simp [leNat]

/-- Byte `k` of the number `v`. -/
def byteAt (v k : ℕ) : UInt8 := UInt8.ofNat (v / 256 ^ k)

/-- The `i`-th 64-bit word. -/
def getQuad (b : Bytes) (i : ℕ) : ℕ := leNat 8 fun k => b (8 * i + k)

/-- Store the low 64 bits of `v` as the `i`-th word. -/
def setQuad (b : Bytes) (i v : ℕ) : Bytes := fun o => if o / 8 = i then byteAt v (o % 8) else b o

/-- Overwrite the bytes from `pos` on with `data`. -/
def setRange (b : Bytes) (pos : ℕ) (data : List UInt8) : Bytes := fun o =>
  if h : pos ≤ o ∧ o - pos < data.length then data[o - pos] else b o

theorem leNat_congr {n : ℕ} {b c : Bytes} (h : ∀ k < n, b k = c k) : leNat n b = leNat n c := by
  induction n generalizing b c with
  | zero => rfl
  | succ n ih =>
    rw [leNat, leNat, h 0 (Nat.succ_pos n), ih fun k hk => h (k + 1) (by omega)]

theorem leNat_lt (n : ℕ) (b : Bytes) : leNat n b < 256 ^ n := by
  induction n generalizing b with
  | zero => simp [leNat]
  | succ n ih =>
    have h0 : (b 0).toNat < 256 := (b 0).toNat_lt
    have hn := ih fun k => b (k + 1)
    rw [leNat, Nat.pow_succ]
    omega

theorem byteAt_succ (v k : ℕ) : byteAt v (k + 1) = byteAt (v / 256) k := by
  rw [byteAt, byteAt, Nat.pow_succ, Nat.mul_comm, Nat.div_div_eq_div_mul]

theorem leNat_byteAt (n v : ℕ) : leNat n (byteAt v) = v % 256 ^ n := by
  induction n generalizing v with
  | zero => simp [leNat, Nat.mod_one]
  | succ n ih =>
    have h0 : (byteAt v 0).toNat = v % 256 := by simp [byteAt]
    rw [leNat, h0, show (fun k => byteAt v (k + 1)) = byteAt (v / 256) from
      funext fun k => byteAt_succ v k, ih, Nat.pow_succ, Nat.mul_comm (256 ^ n), Nat.mod_mul]

theorem getQuad_lt (b : Bytes) (i : ℕ) : getQuad b i < 2 ^ 64 := leNat_lt 8 _

theorem getQuad_setQuad_self (b : Bytes) (i v : ℕ) : getQuad (setQuad b i v) i = v % 2 ^ 64 := by
  have hbytes : ∀ k < 8, setQuad b i v (8 * i + k) = byteAt v k := by
    intro k hk
    have hdiv : (8 * i + k) / 8 = i := by omega
    have hmod : (8 * i + k) % 8 = k := by omega
    simp only [setQuad, hdiv, hmod, if_true]
  rw [getQuad, leNat_congr hbytes, leNat_byteAt, show 256 ^ 8 = 2 ^ 64 by norm_num]

theorem getQuad_setQuad_ne (b : Bytes) {i j : ℕ} (v : ℕ) (h : j ≠ i) :
    getQuad (setQuad b i v) j = getQuad b j :=
  leNat_congr fun k hk => if_neg (by omega)

@[simp] theorem getQuad_zero (i : ℕ) : getQuad (fun _ => 0) i = 0 := by
  simp [getQuad, leNat]

theorem setRange_of_mem {b : Bytes} {pos o : ℕ} {data : List UInt8} (h₁ : pos ≤ o)
    (h₂ : o - pos < data.length) : setRange b pos data o = data[o - pos] := dif_pos ⟨h₁, h₂⟩

theorem setRange_of_notMem {b : Bytes} {pos o : ℕ} {data : List UInt8}
    (h : ¬ (pos ≤ o ∧ o - pos < data.length)) : setRange b pos data o = b o := dif_neg h

/-- Bytes that are written behind others. -/
theorem setRange_append (b : Bytes) (pos : ℕ) (data data' : List UInt8) :
    setRange (setRange b pos data) (pos + data.length) data' = setRange b pos (data ++ data') := by
  funext o
  by_cases h₁ : pos ≤ o ∧ o - pos < data.length
  · rw [setRange_of_notMem (by omega), setRange_of_mem h₁.1 h₁.2,
      setRange_of_mem h₁.1 (by rw [List.length_append]; omega), List.getElem_append_left h₁.2]
  · by_cases h₂ : pos + data.length ≤ o ∧ o - (pos + data.length) < data'.length
    · rw [setRange_of_mem h₂.1 h₂.2,
        setRange_of_mem (by omega) (by rw [List.length_append]; omega),
        List.getElem_append_right (by omega)]
      simp only [Nat.sub_sub]
    · rw [setRange_of_notMem h₂, setRange_of_notMem h₁,
        setRange_of_notMem (by rw [List.length_append]; omega)]

end Bytes
