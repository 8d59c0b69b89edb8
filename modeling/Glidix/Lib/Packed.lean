import Mathlib.Data.List.GetD
import Glidix.Lib.Bytes

/-!
# Packed records

A record with fields of fixed sizes is the little-endian bytes of its fields, one after the other
(`pack`); `leAt` reads the field at an offset back (`leAt_pack_here`, `leAt_pack_skip`).  `slice`
takes bytes out of a buffer, as `setRange` puts them in.
-/

namespace Bytes

/-- The `n` little-endian bytes of `v`. -/
def leBytes (n v : ℕ) : List UInt8 := (List.range n).map (byteAt v)

/-- The little-endian number in the `n` bytes from offset `off` on. -/
def leAt (off n : ℕ) (l : List UInt8) : ℕ := leNat n fun k => l.getD (off + k) 0

/-- The bytes of fields given by their sizes and values. -/
def pack (fields : List (ℕ × ℕ)) : List UInt8 := fields.flatMap fun f => leBytes f.1 f.2

/-- The `n` bytes of a buffer from `pos` on. -/
def slice (b : Bytes) (pos n : ℕ) : List UInt8 := (List.range n).map fun k => b (pos + k)

@[simp] theorem length_leBytes (n v : ℕ) : (leBytes n v).length = n := by simp [leBytes]

@[simp] theorem length_slice (b : Bytes) (pos n : ℕ) : (slice b pos n).length = n := by
  simp [slice]

@[simp] theorem pack_nil : pack [] = [] := rfl

@[simp] theorem pack_cons (f : ℕ × ℕ) (fields : List (ℕ × ℕ)) :
    pack (f :: fields) = leBytes f.1 f.2 ++ pack fields := rfl

theorem length_pack (fields : List (ℕ × ℕ)) :
    (pack fields).length = (fields.map Prod.fst).sum := by
  induction fields with
  | nil => rfl
  | cons f fields ih => rw [pack_cons, List.length_append, length_leBytes, ih, List.map_cons,
      List.sum_cons]

/-! ## Reading fields -/

section Fields

variable {off n : ℕ} {l l' : List UInt8}

theorem leAt_lt (off n : ℕ) (l : List UInt8) : leAt off n l < 256 ^ n := leNat_lt n _

theorem leAt_append_left (h : off + n ≤ l.length) : leAt off n (l ++ l') = leAt off n l :=
  leNat_congr fun k hk => by rw [List.getD_append _ _ _ _ (by omega)]

theorem leAt_append_right (h : l.length ≤ off) :
    leAt off n (l ++ l') = leAt (off - l.length) n l' :=
  leNat_congr fun k hk => by
    rw [List.getD_append_right _ _ _ _ (by omega), show off + k - l.length = off - l.length + k
      by omega]

@[simp] theorem leAt_replicate_zero (off n m : ℕ) : leAt off n (List.replicate m 0) = 0 := by
  have hbyte : ∀ k < n, (List.replicate m (0 : UInt8)).getD (off + k) 0 = byteAt 0 k := by
    intro k _
    rw [List.getD_eq_getElem?_getD, List.getElem?_replicate]
    split <;> simp [byteAt]
  rw [leAt, leNat_congr hbyte, leNat_byteAt, Nat.zero_mod]

theorem leAt_leBytes (n v : ℕ) : leAt 0 n (leBytes n v) = v % 256 ^ n := by
  rw [← leNat_byteAt]
  refine leNat_congr fun k hk => ?_
  rw [Nat.zero_add, List.getD_eq_getElem _ _ (by simpa using hk)]
  simp [leBytes]

/-- The first field. -/
theorem leAt_pack_here (n v : ℕ) (fields : List (ℕ × ℕ)) :
    leAt 0 n (pack ((n, v) :: fields) ++ l) = v % 256 ^ n := by
  rw [pack_cons, List.append_assoc, leAt_append_left (by simp), leAt_leBytes]

/-- A field after the first one. -/
theorem leAt_pack_skip {m v : ℕ} {fields : List (ℕ × ℕ)} (h : m ≤ off) :
    leAt off n (pack ((m, v) :: fields) ++ l) = leAt (off - m) n (pack fields ++ l) := by
  rw [pack_cons, List.append_assoc, leAt_append_right (by simpa using h), length_leBytes]

/-- A field of an entry of an array whose entries have `c` bytes. -/
theorem leAt_flatMap {α : Type} {f : α → List UInt8} {c : ℕ} (hc : ∀ a, (f a).length = c)
    {as : List α} {i : ℕ} (hi : i < as.length) (h : off + n ≤ c) :
    leAt (c * i + off) n (as.flatMap f ++ l) = leAt off n (f as[i]) := by
  induction as generalizing i with
  | nil => cases hi
  | cons a as ih =>
    rw [List.flatMap_cons, List.append_assoc]
    cases i with
    | zero => rw [Nat.mul_zero, Nat.zero_add, leAt_append_left (by rw [hc]; exact h)]; rfl
    | succ i =>
      rw [Nat.mul_succ, leAt_append_right (by rw [hc]; omega), hc,
        show c * i + c + off - c = c * i + off by omega, ih (by simpa using hi)]
      rfl

end Fields

/-! ## Slices -/

section Slices

variable {b : Bytes} {pos n m : ℕ} {data : List UInt8}

theorem slice_add (b : Bytes) (pos n m : ℕ) :
    slice b pos (n + m) = slice b pos n ++ slice b (pos + n) m := by
  simp only [slice, List.range_add, List.map_append, List.map_map, Function.comp_def,
    Nat.add_assoc]

theorem slice_congr {c : Bytes} (h : ∀ o, pos ≤ o → o < pos + n → b o = c o) :
    slice b pos n = slice c pos n :=
  List.map_congr_left fun k hk => by
    rw [List.mem_range] at hk
    exact h _ (by omega) (by omega)

theorem slice_eq_replicate {x : UInt8} (h : ∀ o, pos ≤ o → o < pos + n → b o = x) :
    slice b pos n = List.replicate n x := by
  rw [List.eq_replicate_iff]
  refine ⟨length_slice b pos n, fun y hy => ?_⟩
  obtain ⟨k, hk, rfl⟩ := List.mem_map.1 hy
  rw [List.mem_range] at hk
  exact h _ (by omega) (by omega)

theorem slice_setRange_self (b : Bytes) (pos : ℕ) (data : List UInt8) :
    slice (setRange b pos data) pos data.length = data := by
  refine List.ext_getElem (length_slice ..) fun k hk hk' => ?_
  simp only [slice, List.getElem_map, List.getElem_range]
  rw [setRange_of_mem (by omega) (by omega)]
  simp only [Nat.add_sub_cancel_left]

/-- Writing what is there changes nothing. -/
theorem setRange_slice (b : Bytes) (pos n : ℕ) : setRange b pos (slice b pos n) = b := by
  funext o
  by_cases h : pos ≤ o ∧ o - pos < (slice b pos n).length
  · rw [setRange_of_mem h.1 h.2]
    simp only [slice, List.getElem_map, List.getElem_range]
    rw [Nat.add_sub_cancel' h.1]
  · exact setRange_of_notMem h

/-- Writing in a window of the bytes. -/
theorem setRange_add (b : Bytes) (a pos o : ℕ) (data : List UInt8) :
    setRange b (a + pos) data (a + o) = setRange (fun k => b (a + k)) pos data o := by
  have hsub : a + o - (a + pos) = o - pos := by omega
  by_cases h : pos ≤ o ∧ o - pos < data.length
  · rw [setRange_of_mem h.1 h.2, setRange_of_mem (by omega) (by omega)]
    simp only [hsub]
  · rw [setRange_of_notMem h, setRange_of_notMem (by omega)]

/-- Writing in two steps. -/
theorem setRange_take_drop (b : Bytes) (pos k : ℕ) (data : List UInt8) :
    setRange (setRange b pos (data.take k)) (pos + k) (data.drop k) = setRange b pos data := by
  funext o
  by_cases h : pos ≤ o ∧ o - pos < data.length
  · rw [setRange_of_mem h.1 h.2]
    by_cases hk : o < pos + k
    · rw [setRange_of_notMem (by omega), setRange_of_mem h.1 (by rw [List.length_take]; omega),
        List.getElem_take]
    · have hsub : k + (o - (pos + k)) = o - pos := by omega
      rw [setRange_of_mem (by omega) (by rw [List.length_drop]; omega), List.getElem_drop]
      simp only [hsub]
  · rw [setRange_of_notMem h, setRange_of_notMem (by rw [List.length_drop]; omega),
      setRange_of_notMem (by rw [List.length_take]; omega)]

theorem drop_take_slice {k : ℕ} (h : k + m ≤ n) :
    ((slice b pos n).drop k).take m = slice b (pos + k) m := by
  obtain ⟨j, rfl⟩ := Nat.exists_eq_add_of_le h
  rw [Nat.add_assoc, slice_add, List.drop_left' (length_slice ..), slice_add, List.take_left' (length_slice ..)]

theorem slice_setRange_before (h : n + m ≤ pos) :
    slice (setRange b pos data) n m = slice b n m :=
  slice_congr fun o _ ho => setRange_of_notMem (by omega)

theorem slice_setRange_after (h : pos + data.length ≤ n) :
    slice (setRange b pos data) n m = slice b n m :=
  slice_congr fun o ho _ => setRange_of_notMem (by omega)

/-- A field read from a buffer and from the bytes taken out of it. -/
theorem leAt_slice {off : ℕ} {l : List UInt8} (h : off + n ≤ m) :
    leAt off n (slice b pos m ++ l) = leNat n fun k => b (pos + off + k) := by
  rw [leAt_append_left (by rw [length_slice]; exact h)]
  refine leNat_congr fun k hk => ?_
  rw [List.getD_eq_getElem _ _ (by rw [length_slice]; omega)]
  simp [slice, Nat.add_assoc]

end Slices

end Bytes
