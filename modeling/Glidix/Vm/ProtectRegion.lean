import Glidix.Vm.FixedMapping
import Glidix.Vm.FixedSuccess

/-!
# The region of `vmProtect`

`vmProtect` checks the base of its region only.  When the region ends behind the address space and all pages up to
there may be protected, the walk over the segments follows a null pointer; and when `base + len` wraps around,
it succeeds without doing anything.  In all other cases it does what it is to do (`vmProtect_right_iff`).
-/

namespace Glidix.Vm

variable {W : Type} {ops : PhysMem W} {w w' : W} {pm pm' : ProcMem} {s : Machine W}
  {prot count addr pos : ℕ} {segs : List Segment} {ptes ptes' : ℕ → PTe}

/-- The pages of a region. -/
def protectRegion (base len : UInt64) : Set ℕ :=
  {p | base.toNat / 0x1000 ≤ p ∧ p * 0x1000 < base.toNat + len.toNat}

/-- The permissions of the page are set, to these. -/
structure PTe.Grants (e : PTe) (prot : ℕ) : Prop where
  set : e.gx_perm_ovr = true
  read : e.gx_r = has prot PROT_READ
  write : e.gx_w = has prot PROT_WRITE
  exec : e.gx_x = has prot PROT_EXEC

/-- What `vmProtect` is to do when it succeeds. -/
structure Protects (base len : UInt64) (prot : ℕ) (pm pm' : ProcMem) : Prop where
  segs : pm'.segs = pm.segs
  inside : ∀ p ∈ protectRegion base len, (pm'.ptes p).Grants (impliedProt prot)
  outside : ∀ p ∉ protectRegion base len, pm'.ptes p = pm.ptes p

/-- The arguments pass the checks of `vmProtect`. -/
def ProtectArgs (base prot : ℕ) : Prop :=
  prot ≤ PROT_ALL ∧ ¬ has base 0xFFF = true ∧ ADDR_MIN ≤ base ∧ base < ADDR_MAX

/-- The region lies in the address space, or a page of it may not be protected; and if its end wraps around,
its pages have the permissions already. -/
def ProtectFits (base len : UInt64) (prot : ℕ) (pm : ProcMem) : Prop :=
  if base.toNat + len.toNat < 2 ^ 64 then
    base.toNat + len.toNat ≤ ADDR_MAX ∨ ∃ q, base.toNat / 0x1000 ≤ q ∧ q < 0x8000000 ∧
      ¬ Protectable pm.segs (impliedProt prot) q
  else ∀ p ∈ protectRegion base len, (pm.ptes p).Grants (impliedProt prot)

/-! ## The loop -/

section Loop

theorem PTe.grants_protect (e : PTe) (prot : ℕ) : (e.protect prot).Grants prot := ⟨rfl, rfl, rfl, rfl⟩

/-- The page at an address is in the segment that is found. -/
theorem findSeg_protectable {l : List Segment} {seg : Segment} (prot : ℕ) (behind : List Segment)
    (hlen : numPages l * 0x1000 ≤ addr) (hlt : addr < (numPages l + seg.numPages) * 0x1000) :
    Protectable (l ++ seg :: behind) prot (addr / 0x1000) ↔ seg.flags ≠ 0 ∧
      ¬ (has prot PROT_WRITE = true ∧ has seg.flags MAP_SHARED = true ∧
        ¬ has seg.access O_WRONLY = true) := by
  obtain ⟨i, hi⟩ := getElem?_pages (p := addr / 0x1000) l behind seg (by omega) (by omega)
  constructor
  · rintro ⟨a, ha, hflags, hdenied⟩
    obtain rfl := Option.some.inj (ha.symm.trans hi)
    exact ⟨hflags, hdenied⟩
  · rintro ⟨hflags, hdenied⟩
    exact ⟨_, hi, hflags, hdenied⟩

/-- When the loop succeeds, it has set the permissions of all pages of the area, and of no others. -/
theorem protectPages_ok (before : List Segment) (hpos : pos = numPages before * 0x1000) (hle : pos ≤ addr)
    (h : protectPages prot count addr pos segs ptes = some (.ok (), ptes')) (p : ℕ) :
    (p ∈ pageRange (addr / 0x1000) count → ptes' p = (ptes p).protect prot) ∧
      (p ∉ pageRange (addr / 0x1000) count → ptes' p = ptes p) := by
  induction count generalizing addr pos segs before ptes with
  | zero =>
    obtain rfl := (Prod.mk.inj (Option.some.inj h)).2
    refine ⟨?_, fun _ => rfl⟩
    rintro ⟨hge, hlt⟩
    omega
  | succ count ih =>
    obtain ⟨⟨b, seg, behind, pos'⟩, hfind, h⟩ := Option.bind_eq_some_iff.1 h
    obtain ⟨rfl, rfl, hle', hlt⟩ := findSeg_spec hfind hle
    have hnum : numPages (before ++ b) = numPages before + numPages b := by simp [numPages]
    simp only at h
    split_ifs at h with hfree hdenied
    · cases h
    · cases h
    · obtain ⟨hin, hout⟩ := ih (before ++ b) (by rw [hnum]; omega) (by omega) h
      have hnext : (addr + 0x1000) / 0x1000 = addr / 0x1000 + 1 := by omega
      rw [hnext] at hin hout
      by_cases hp : p = addr / 0x1000
      · have hnot : p ∉ pageRange (addr / 0x1000 + 1) count := fun hm => absurd hm.1 (by omega)
        rw [hout hnot, hp, Function.update_self]
        exact ⟨fun _ => rfl, fun hm => absurd ⟨le_rfl, by omega⟩ hm⟩
      · rw [Function.update_of_ne hp] at hin hout
        refine ⟨fun hm => hin ⟨?_, ?_⟩, fun hm => hout fun hm' => hm ⟨?_, ?_⟩⟩
        · have := hm.1
          omega
        · have := hm.2
          omega
        · have := hm'.1
          omega
        · have := hm'.2
          omega

/-- The loop ends if the area lies in the address space or has a page that may not be protected. -/
theorem protectPages_isSome (before : List Segment) (hpos : pos = numPages before * 0x1000) (hle : pos ≤ addr)
    (h : addr / 0x1000 + count ≤ numPages (before ++ segs) ∨
      ∃ q, addr / 0x1000 ≤ q ∧ q < numPages (before ++ segs) ∧ ¬ Protectable (before ++ segs) prot q) :
    ∃ r, protectPages prot count addr pos segs ptes = some r := by
  induction count generalizing addr pos segs before ptes with
  | zero => exact ⟨_, rfl⟩
  | succ count ih =>
    have hinside : addr / 0x1000 < numPages (before ++ segs) := by
      rcases h with hfit | ⟨q, hge, hlt, -⟩
      · omega
      · omega
    obtain ⟨⟨b, seg, behind, pos'⟩, hfind⟩ : ∃ r, findSeg addr pos segs = some r := by
      refine findSeg_isSome hle ?_
      rw [numPages, span_append] at hinside
      rw [numPages] at hpos ⊢
      omega
    obtain ⟨rfl, rfl, hle', hlt⟩ := findSeg_spec hfind hle
    rw [protectPages, hfind, Option.bind_some]
    simp only
    have hnum : numPages (before ++ b) = numPages before + numPages b := by simp [numPages]
    have hlen : numPages (before ++ b) * 0x1000 ≤ addr := by omega
    have hend : addr < (numPages (before ++ b) + seg.numPages) * 0x1000 := by omega
    have hiff := findSeg_protectable prot behind hlen hend
    rw [List.append_assoc] at hiff
    split_ifs with hfree hdenied
    · exact ⟨_, rfl⟩
    · exact ⟨_, rfl⟩
    · apply ih (before ++ b)
      · omega
      · omega
      · rw [List.append_assoc]
        rcases h with hfit | ⟨q, hge, hltq, hnot⟩
        · exact Or.inl (by omega)
        · refine Or.inr ⟨q, ?_, hltq, hnot⟩
          have hne : q ≠ addr / 0x1000 := fun hq => hnot (hq ▸ hiff.2 ⟨hfree, hdenied⟩)
          omega

/-- The loop follows a null pointer if the area ends behind the address space and all pages up to there may be
protected. -/
theorem protectPages_eq_none (before : List Segment) (hpos : pos = numPages before * 0x1000) (hle : pos ≤ addr)
    (hbeyond : numPages (before ++ segs) < addr / 0x1000 + count)
    (hall : ∀ q, addr / 0x1000 ≤ q → q < numPages (before ++ segs) → Protectable (before ++ segs) prot q)
    (hstart : addr / 0x1000 ≤ numPages (before ++ segs)) :
    protectPages prot count addr pos segs ptes = none := by
  induction count generalizing addr pos segs before ptes with
  | zero => omega
  | succ count ih =>
    cases hfind : findSeg addr pos segs with
    | none => rw [protectPages, hfind, Option.bind_none]
    | some found =>
      obtain ⟨b, seg, behind, pos'⟩ := found
      obtain ⟨rfl, rfl, hle', hlt⟩ := findSeg_spec hfind hle
      have hnum : numPages (before ++ b) = numPages before + numPages b := by simp [numPages]
      have hlen : numPages (before ++ b) * 0x1000 ≤ addr := by omega
      have hend : addr < (numPages (before ++ b) + seg.numPages) * 0x1000 := by omega
      have hiff := findSeg_protectable prot behind hlen hend
      rw [List.append_assoc] at hiff
      have htotal : numPages (before ++ b) + seg.numPages ≤ numPages (before ++ (b ++ seg :: behind)) := by
        simp only [numPages, span_append, span_cons]
        omega
      obtain ⟨hflags, hdenied⟩ := hiff.1 (hall _ le_rfl (by omega))
      rw [protectPages, hfind, Option.bind_some]
      simp only [if_neg hflags, if_neg hdenied]
      apply ih (before ++ b)
      · omega
      · omega
      · rw [List.append_assoc]
        omega
      · rw [List.append_assoc]
        exact fun q hge => hall q (by omega)
      · rw [List.append_assoc]
        omega

end Loop

/-! ## The call -/

theorem mod_page_of_has {x : ℕ} (h : ¬ has x 0xFFF = true) : x % 0x1000 = 0 := by
  have hmod : x &&& 0xFFF = x % 2 ^ 12 := Nat.and_two_pow_sub_one_eq_mod x 12
  rw [has, hmod] at h
  simpa using h

/-- A call whose arguments pass the checks is the loop. -/
theorem vmProtect_of_args {base len : ℕ} (h : ProtectArgs base prot) (hlock : pm.lock = false) :
    vmProtect base len prot w pm =
      (protectPages (impliedProt prot) (((base + len) % 2 ^ 64 - base + 0xFFF) / 0x1000) base 0 pm.segs
        pm.ptes).map fun (r, ptes) => (r, w, { pm with ptes, lock := r.isOk }) := by
  obtain ⟨hprot, hbase, hmin, hmax⟩ := h
  rw [vmProtect, if_neg (Nat.not_lt.2 hprot), if_neg hbase,
    if_neg (not_or.2 ⟨Nat.not_lt.2 hmin, Nat.not_le.2 hmax⟩), if_neg (by simp [hlock])]

/-- A call whose arguments do not pass them ends in an error. -/
theorem vmProtect_of_not_args {base len : ℕ} (h : ¬ ProtectArgs base prot) :
    vmProtect base len prot w pm = some (.error .EINVAL, w, pm) := by
  rw [vmProtect]
  split_ifs with h₁ h₂ h₃
  · rfl
  · rfl
  · rfl
  all_goals
    rw [not_or, Nat.not_lt, Nat.not_le] at h₃
    exact absurd ⟨Nat.le_of_not_lt h₁, h₂, h₃.1, h₃.2⟩ h

theorem mem_protectRegion_iff {base len : UInt64} {p : ℕ} (hbase : base.toNat % 0x1000 = 0) :
    p ∈ protectRegion base len ↔ p ∈ pageRange (base.toNat / 0x1000) ((len.toNat + 0xFFF) / 0x1000) := by
  unfold protectRegion pageRange
  simp only [Set.mem_ofPred_eq]
  omega

/-- In every address space that is reached, `vmProtect` returns, and sets exactly the permissions of its region
if it succeeds, if and only if the region lies in the address space or has a page that may not be protected
(or has the permissions already, should its end wrap around). -/
theorem vmProtect_right_iff (hs : (machine ops).Reachable s) (hpm : pm ∈ s.spaces) (w : W)
    (base len : UInt64) (prot : ℕ) :
    (∃ r w' pm', vmProtect base.toNat len.toNat prot w { pm with lock := false } = some (r, w', pm') ∧
      (r = .ok () → Protects base len prot pm pm')) ↔
        (ProtectArgs base.toNat prot → ProtectFits base len prot pm) := by
  have hwf := reachable_wellFormed hs hpm
  by_cases hargs : ProtectArgs base.toNat prot
  swap
  · rw [vmProtect_of_not_args hargs]
    exact iff_of_true ⟨_, _, _, rfl, fun h => by cases h⟩ fun h => absurd h hargs
  have hbase := mod_page_of_has hargs.2.1
  have hmax : base.toNat < 0x8000000000 := hargs.2.2.2
  have hlen := len.toNat_lt
  rw [vmProtect_of_args hargs rfl, forall_prop_of_true hargs]
  unfold ProtectFits
  by_cases hwrap : base.toNat + len.toNat < 2 ^ 64
  · have hcount : ((base.toNat + len.toNat) % 2 ^ 64 - base.toNat + 0xFFF) / 0x1000 =
        (len.toNat + 0xFFF) / 0x1000 := by
      rw [Nat.mod_eq_of_lt hwrap, Nat.add_sub_cancel_left]
    rw [if_pos hwrap, hcount]
    constructor
    · rintro ⟨r, w', pm', h, -⟩
      by_contra hbeyond
      rw [not_or, not_exists] at hbeyond
      rw [protectPages_eq_none [] (by simp) (Nat.zero_le _)] at h
      · cases h
      · rw [List.nil_append, hwf.total]
        have := hbeyond.1
        unfold ADDR_MAX at this
        omega
      · intro q hge hlt
        rw [List.nil_append, hwf.total] at hlt
        by_contra hnot
        exact hbeyond.2 q ⟨hge, hlt, hnot⟩
      · rw [List.nil_append, hwf.total]
        omega
    · intro hfits
      obtain ⟨⟨r, ptes'⟩, hloop⟩ : ∃ r, protectPages (impliedProt prot) ((len.toNat + 0xFFF) / 0x1000)
          base.toNat 0 pm.segs pm.ptes = some r := by
        refine protectPages_isSome [] (by simp) (Nat.zero_le _) ?_
        rw [List.nil_append, hwf.total]
        refine hfits.imp_left fun hle => ?_
        unfold ADDR_MAX at hle
        omega
      rw [hloop]
      refine ⟨_, _, _, rfl, ?_⟩
      rintro rfl
      have hok := protectPages_ok [] (by simp) (Nat.zero_le _) hloop
      refine ⟨rfl, fun p hp => ?_, fun p hp => ?_⟩
      · rw [mem_protectRegion_iff hbase] at hp
        show (ptes' p).Grants _
        rw [(hok p).1 hp]
        exact PTe.grants_protect _ _
      · rw [mem_protectRegion_iff hbase] at hp
        exact (hok p).2 hp
  · -- the end wraps around, and the loop has nothing to do
    have hcount : ((base.toNat + len.toNat) % 2 ^ 64 - base.toNat + 0xFFF) / 0x1000 = 0 := by omega
    rw [if_neg hwrap, hcount]
    constructor
    · rintro ⟨r, w', pm', h, hdone⟩
      obtain ⟨rfl, -, rfl⟩ := by simpa [protectPages] using h
      exact (hdone rfl).inside
    · intro hset
      refine ⟨_, _, _, rfl, fun _ => ⟨rfl, hset, fun p _ => rfl⟩⟩

/-! ## Some runs -/

/-- Map a page of private memory anywhere: it is the last one of the address space. -/
def mapLast : MapArgs := ⟨0, 0x1000, PROT_READ ||| PROT_WRITE, MAP_PRIVATE ||| MAP_ANON, none, 0⟩

def lastPage : ProcMem := spaceAfter [.map mapLast] (by decide)

theorem vmProtect_right_lastPage : ∃ r w' pm',
    vmProtect 0x7FFFFFF000 0x1000 PROT_READ () { lastPage with lock := false } = some (r, w', pm') ∧
      (r = .ok () → Protects 0x7FFFFFF000 0x1000 PROT_READ lastPage pm') :=
  (vmProtect_right_iff (reachable_spaceAfter _) (List.mem_singleton_self _) () 0x7FFFFFF000 0x1000
    PROT_READ).2 fun _ => by
      unfold ProtectFits
      rw [if_pos (by decide)]
      exact Or.inl (by decide)

/-- A region of two pages that begins with the last one. -/
theorem vmProtect_follows_null : ¬ ∀ s : Machine Unit, (machine plentiful).Reachable s →
    ∀ pm ∈ s.spaces, ∀ (base len : UInt64) (prot : ℕ), ∃ r w' pm',
      vmProtect base.toNat len.toNat prot () { pm with lock := false } = some (r, w', pm') ∧
        (r = .ok () → Protects base len prot pm pm') := by
  intro hall
  obtain ⟨r, w', pm', h, -⟩ := hall _ (reachable_spaceAfter _) lastPage (List.mem_singleton_self _)
    0x7FFFFFF000 0x2000 PROT_READ
  have hnone : (vmProtect 0x7FFFFFF000 0x2000 PROT_READ () { lastPage with lock := false }).isNone = true := by
    decide
  rw [show (0x7FFFFFF000 : UInt64).toNat = 0x7FFFFFF000 from rfl,
    show (0x2000 : UInt64).toNat = 0x2000 from rfl] at h
  rw [h] at hnone
  cases hnone

end Glidix.Vm
