import Glidix.Module.Load

/-!
# The loop over the relocations

The relocations are applied one after the other to the body.  When no two of them disagree about a byte, every
relocated field holds the address of its symbol plus the addend in the end, and the other bytes are those of the
section.
-/

namespace Glidix.Module

open Exec (OpenFile)
open Bytes

namespace Tables

variable (t : Tables) (env : ModuleEnv)

/-! ## The entries -/

/-- The buffer for an entry, and the file, after some entries were read. -/
def entriesRead : ℕ → List UInt8 × OpenFile
  | 0 => ((List.range RELA_SIZE).map (env.junk .rela), t.fp)
  | n + 1 => readInto (entriesRead n).2 RELA_SIZE fun k => (entriesRead n).1.getD k 0

/-- The entry that the `i`-th step of the loop works on. -/
def entry (i : ℕ) : Rela := Rela.ofBytes (t.entriesRead env (i + 1)).1

/-- The address of the symbol of an entry plus the addend. -/
def value (i : ℕ) : ℕ := ((t.relaAddress env (t.entry env i)).toOption.getD 0) + (t.entry env i).r_addend

/-- The entry is one that the loop applies. -/
structure Applies (i : ℕ) : Prop where
  type : (t.entry env i).type = R_X86_64_64
  address : ∃ a, t.relaAddress env (t.entry env i) = .ok a
  inside : (t.entry env i).r_offset + 8 ≤ t.areaSize

/-- Byte `p` of the body is in the field of an entry. -/
def InField (i p : ℕ) : Prop := (t.entry env i).r_offset ≤ p ∧ p < (t.entry env i).r_offset + 8

/-- The body after some relocations. -/
def relocated : ℕ → Bytes
  | 0 => t.zeroed
  | n + 1 => setRange (relocated n) (t.entry env n).r_offset (leBytes 8 (t.value env n))

variable {t env} {n i j k p : ℕ} {s : RelocState}

theorem relocate_eq {body : Bytes} :
    (∃ body', t.relocate env (t.entry env i) body = .ok body') ↔ t.Applies env i := by
  unfold relocate
  constructor
  · rintro ⟨body', h⟩
    split at h
    · exact nomatch h
    · next a haddress =>
      split_ifs at h with htype hinside
      exact ⟨htype, ⟨a, haddress⟩, Nat.le_of_not_lt hinside⟩
  · rintro ⟨htype, ⟨a, haddress⟩, hinside⟩
    rw [haddress]
    dsimp only
    rw [if_pos htype, if_neg (Nat.not_lt.2 hinside)]
    exact ⟨_, rfl⟩

theorem Applies.relocate (h : t.Applies env i) (body : Bytes) :
    t.relocate env (t.entry env i) body =
      .ok (setRange body (t.entry env i).r_offset (leBytes 8 (t.value env i))) := by
  obtain ⟨a, haddress⟩ := h.address
  unfold Tables.relocate value
  rw [haddress]
  dsimp only
  rw [if_pos h.type, if_neg (Nat.not_lt.2 h.inside)]
  rfl

/-- The state of the loop after some steps. -/
def stateAfter (t : Tables) (env : ModuleEnv) (n : ℕ) : RelocState :=
  ⟨(t.entriesRead env n).2, (t.entriesRead env n).1, t.relocated env n⟩

theorem entriesRead_zero (t : Tables) (env : ModuleEnv) :
    t.entriesRead env 0 = ((List.range RELA_SIZE).map (env.junk .rela), t.fp) := by
  rw [entriesRead]

theorem relocated_zero (t : Tables) (env : ModuleEnv) : t.relocated env 0 = t.zeroed := by
  rw [relocated]

/-- The state in which the loop starts. -/
theorem stateAfter_zero (t : Tables) (env : ModuleEnv) :
    t.stateAfter env 0 = ⟨t.fp, (List.range RELA_SIZE).map (env.junk .rela), t.zeroed⟩ := by
  rw [stateAfter, entriesRead_zero, relocated_zero]

theorem relocStep_stateAfter (m n : ℕ) :
    t.relocStep env m (t.stateAfter env n) =
      (t.relocate env (t.entry env n) (t.relocated env n)).map
        fun body => ⟨(t.entriesRead env (n + 1)).2, (t.entriesRead env (n + 1)).1, body⟩ := by
  simp only [relocStep, stateAfter, entry, entriesRead]

/-- The loop gets through some entries exactly if all of them are applied. -/
theorem steps_relocStep :
    Counter.steps (t.relocStep env) n 0 (t.stateAfter env 0) = .ok s ↔
      (∀ i < n, t.Applies env i) ∧ s = t.stateAfter env n := by
  induction n generalizing s with
  | zero =>
    constructor
    · intro h
      exact ⟨nofun, (Except.ok.inj h).symm⟩
    · rintro ⟨-, rfl⟩
      rfl
  | succ n ih =>
    rw [Counter.steps_succ]
    constructor
    · intro h
      split at h
      · exact nomatch h
      · next s' hs' =>
        obtain ⟨happlies, rfl⟩ := ih.1 hs'
        rw [relocStep_stateAfter] at h
        have happly : t.Applies env n := by
          rw [← @relocate_eq _ _ _ (t.relocated env n)]
          cases hbody : t.relocate env (t.entry env n) (t.relocated env n) with
          | error e =>
            rw [hbody] at h
            exact nomatch h
          | ok body => exact ⟨body, rfl⟩
        rw [happly.relocate] at h
        refine ⟨fun i hi => ?_, (Except.ok.inj h).symm⟩
        rcases Nat.lt_succ_iff_lt_or_eq.1 hi with hi | rfl
        · exact happlies i hi
        · exact happly
    · rintro ⟨happlies, rfl⟩
      have hbefore := ih.2 ⟨fun i hi => happlies i (Nat.lt_succ_of_lt hi), rfl⟩
      rw [hbefore]
      dsimp only
      rw [relocStep_stateAfter, (happlies n (Nat.lt_succ_self n)).relocate]
      rfl

/-! ## The body -/

theorem length_field (v : ℕ) : (leBytes 8 v).length = 8 := length_leBytes 8 v

theorem relocated_other (h : ∀ i < n, ¬ t.InField env i p) : t.relocated env n p = t.zeroed p := by
  induction n with
  | zero => rfl
  | succ n ih =>
    have hn := h n (Nat.lt_succ_self n)
    have hmiss : ¬ ((t.entry env n).r_offset ≤ p ∧
        p - (t.entry env n).r_offset < (leBytes 8 (t.value env n)).length) := by
      rw [length_field]
      intro ⟨hle, hlt⟩
      exact hn ⟨hle, by omega⟩
    rw [relocated, setRange, dif_neg hmiss]
    exact ih fun i hi => h i (Nat.lt_succ_of_lt hi)

/-- Byte `k` of a field is byte `k` of its value, as far as the later relocations agree. -/
theorem relocated_field
    (hagree : ∀ i < n, ∀ j < n, ∀ p, t.InField env i p → t.InField env j p →
      byteAt (t.value env i) (p - (t.entry env i).r_offset) = byteAt (t.value env j) (p - (t.entry env j).r_offset))
    (hi : i < n) (hp : t.InField env i p) :
    t.relocated env n p = byteAt (t.value env i) (p - (t.entry env i).r_offset) := by
  induction n with
  | zero => exact absurd hi (Nat.not_lt_zero _)
  | succ n ih =>
    by_cases hn : t.InField env n p
    · have hlt : p - (t.entry env n).r_offset < (leBytes 8 (t.value env n)).length := by
        rw [length_field]
        have hbounds := hn
        unfold InField at hbounds
        omega
      rw [relocated, setRange_of_mem hn.1 hlt, hagree i hi n (Nat.lt_succ_self n) p hp hn]
      simp [leBytes]
    · have hin : i < n := by
        refine Nat.lt_of_le_of_ne (Nat.le_of_lt_succ hi) ?_
        rintro rfl
        exact hn hp
      have hmiss : ¬ ((t.entry env n).r_offset ≤ p ∧
          p - (t.entry env n).r_offset < (leBytes 8 (t.value env n)).length) := by
        rw [length_field]
        rintro ⟨hle, hlt⟩
        exact hn ⟨hle, by omega⟩
      rw [relocated, setRange, dif_neg hmiss]
      exact ih (fun i hi j hj => hagree i (Nat.lt_succ_of_lt hi) j (Nat.lt_succ_of_lt hj)) hin

end Tables

end Glidix.Module
