import Glidix.Lib.Packed

/-!
# Words in memory

`load` and `store` read and write a little-endian word at an address.  What a program does to a
region of memory is stated as `AgreeOutside`: every byte outside the region is as before.
-/

namespace Bytes

/-- The word of `n` bytes at address `a`. -/
def load (n : ℕ) (m : Bytes) (a : ℕ) : ℕ := leNat n fun k => m (a + k)

/-- Write `v` as a word of `n` bytes at address `a`. -/
def store (n : ℕ) (m : Bytes) (a v : ℕ) : Bytes := setRange m a (leBytes n v)

/-- `m'` is `m` outside the addresses from `lo` up to `hi`. -/
def AgreeOutside (lo hi : ℕ) (m m' : Bytes) : Prop := ∀ o, o < lo ∨ hi ≤ o → m' o = m o

variable {m m' m'' : Bytes} {a b n k v lo hi : ℕ}

theorem load_congr (h : ∀ o, a ≤ o → o < a + n → m o = m' o) : load n m a = load n m' a :=
  leNat_congr fun k hk => h _ (by omega) (by omega)

theorem store_of_notMem {o : ℕ} (h : o < a ∨ a + n ≤ o) : store n m a v o = m o :=
  setRange_of_notMem (by rw [length_leBytes]; omega)

theorem load_store_self (n : ℕ) (m : Bytes) (a v : ℕ) : load n (store n m a v) a = v % 256 ^ n := by
  rw [← leNat_byteAt]
  refine leNat_congr fun k hk => ?_
  rw [store, setRange_of_mem (by omega) (by rw [length_leBytes]; omega)]
  simp [leBytes]

theorem load_store_quad (hv : v < 2 ^ 64) : load 8 (store 8 m a v) a = v := by
  rw [load_store_self, show 256 ^ 8 = 2 ^ 64 by norm_num, Nat.mod_eq_of_lt hv]

theorem load_store_ne (h : b + k ≤ a ∨ a + n ≤ b) : load k (store n m a v) b = load k m b :=
  load_congr fun o h₁ h₂ => store_of_notMem (by omega)

theorem AgreeOutside.refl (lo hi : ℕ) (m : Bytes) : AgreeOutside lo hi m m := fun _ _ => rfl

theorem AgreeOutside.trans (h : AgreeOutside lo hi m m') (h' : AgreeOutside lo hi m' m'') :
    AgreeOutside lo hi m m'' := fun o ho => (h' o ho).trans (h o ho)

theorem AgreeOutside.mono {lo' hi' : ℕ} (h : AgreeOutside lo hi m m') (hlo : lo' ≤ lo)
    (hhi : hi ≤ hi') : AgreeOutside lo' hi' m m' := fun o ho => h o (by omega)

theorem agreeOutside_store (h₁ : lo ≤ a) (h₂ : a + n ≤ hi) :
    AgreeOutside lo hi m (store n m a v) := fun _ _ => store_of_notMem (by omega)

theorem agreeOutside_update {x : UInt8} (h₁ : lo ≤ a) (h₂ : a < hi) :
    AgreeOutside lo hi m (Function.update m a x) := fun _ _ =>
  Function.update_of_ne (by omega) _ _

end Bytes
