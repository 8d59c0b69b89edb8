import Mathlib.Data.List.Nodup
import Glidix.Exec.ExecReleased
import Glidix.Module.Relocations

/-!
# When `insmod` does right by an image

Behind the section checks `insmod` does what it is for exactly if no block of the module area is left, so that it
gives up before it takes anything, or every table of the image is small enough for the 16-bit counter, every
index of it stays inside, and every relocation can be applied.  When a relocation is refused, the frame of the
page directory is never given back.
-/

namespace Glidix.Module

open Exec (ExecFile OpenFile)
open Bytes ModuleResource Use

/-! ## What is expected -/

/-- A body is relocated: the field of each relocation of type `R_X86_64_64` holds the address of its symbol plus
the addend, and every other byte is that of the section, or 0 where the file has none. -/
structure Tables.Relocated (t : Tables) (env : ModuleEnv) (body : Bytes) : Prop where
  field : ∀ i < t.numRelocs, (t.entry env i).type = R_X86_64_64 →
    ∃ a, t.relaAddress env (t.entry env i) = .ok a ∧
      ∀ k < 8, body ((t.entry env i).r_offset + k) = byteAt (a + (t.entry env i).r_addend) k
  other : ∀ p < t.bodySize, (∀ i < t.numRelocs, ¬ t.InField env i p) → body p = t.body.getD p 0

/-- A call that succeeds registers a relocated module; one that fails registers none and gives back what it took. -/
def InsmodOutcome.Right (env : ModuleEnv) (st : ModuleState) (header : Ehdr) (s : Sections) (fp : OpenFile)
    (o : InsmodOutcome) : Prop :=
  match o.result with
  | .already => True
  | .loaded m _ =>
    (readTables env header s fp m.block).Relocated env m.body ∧ o.state.modules = st.modules ++ [m]
  | .error _ => o.state = st ∧ Use.Balanced o.uses
  | .outOfBounds => False

/-- The image can be loaded. -/
structure Tables.Loadable (t : Tables) (env : ModuleEnv) : Prop where
  sectors : numSectors t.bodySize ≤ MAX_SECTORS
  symbols : t.numSymbols < HALF_BOUND
  /-- The names of the symbols of the body are read inside the block of the names. -/
  names : ∀ i < t.numSymbols, t.symbolStep i {} ≠ .error ()
  relocs : t.numRelocs < HALF_BOUND
  applies : ∀ i < t.numRelocs, t.Applies env i
  /-- Where two fields overlap, they agree. -/
  agree : ∀ i < t.numRelocs, ∀ j < t.numRelocs, ∀ p, t.InField env i p → t.InField env j p →
    byteAt (t.value env i) (p - (t.entry env i).r_offset) = byteAt (t.value env j) (p - (t.entry env j).r_offset)

/-- A call that gets past the section checks of a new module. -/
structure PastChecks (env : ModuleEnv) (st : ModuleState) (modname path : List UInt8) (header : Ehdr)
    (s : Sections) (fp : OpenFile) : Prop where
  name : modname.length < 127
  new : ∀ m ∈ st.modules, m.name ≠ modname
  image : ∃ f, env.vfsOpen path = .ok f ∧ f.hasTree = true ∧ checkImage ⟨f, 0⟩ = .ok (header, s, fp)

variable {env : ModuleEnv} {st : ModuleState} {modname path : List UInt8} {header : Ehdr} {s : Sections}
  {fp : OpenFile} {t : Tables} {e e' : Entries} {flags i n : ℕ}

/-! ## The loop over the symbols -/

/-- Whether a name can be read does not depend on what was found before. -/
theorem Tables.symbolStep_error (e e' : Entries) :
    t.symbolStep i e = .error () ↔ t.symbolStep i e' = .error () := by
  unfold Tables.symbolStep
  dsimp only
  split
  · split
    · exact Iff.rfl
    · exact iff_of_false nofun nofun
    · split
      · exact Iff.rfl
      · exact iff_of_false nofun nofun
      · split
        · exact Iff.rfl
        · exact iff_of_false nofun nofun
        · exact iff_of_false nofun nofun
  · exact iff_of_false nofun nofun

theorem Tables.steps_symbolStep (e : Entries) :
    (∃ e', Counter.steps t.symbolStep n 0 e = .ok e') ↔ ∀ i < n, t.symbolStep i {} ≠ .error () := by
  induction n with
  | zero => exact iff_of_true ⟨e, rfl⟩ nofun
  | succ n ih =>
    have hstep (e₁ : Entries) : (∃ e', t.symbolStep n e₁ = .ok e') ↔ t.symbolStep n {} ≠ .error () := by
      rw [Ne, Tables.symbolStep_error {} e₁]
      cases h : t.symbolStep n e₁ with
      | error u => exact iff_of_false (fun ⟨_, h⟩ => nomatch h) fun h => h rfl
      | ok e' => exact iff_of_true ⟨e', rfl⟩ nofun
    rw [Counter.steps_succ, Nat.forall_lt_succ_right, ← ih]
    cases hsteps : Counter.steps t.symbolStep n 0 e with
    | error u => exact iff_of_false (fun ⟨_, h⟩ => nomatch h) fun ⟨⟨_, h⟩, _⟩ => nomatch h
    | ok e₁ =>
      dsimp only
      rw [Nat.zero_add, hstep e₁]
      exact (and_iff_right ⟨e₁, rfl⟩).symm

/-! ## What a refused relocation leaves -/

theorem flatten_blocks (base m : ℕ) :
    ((List.range m).map fun i => (List.range 512).map fun j => base + 512 * i + j + 1).flatten =
      (List.range (512 * m)).map fun k => base + k + 1 := by
  induction m with
  | zero => rfl
  | succ m ih =>
    have hrange : List.range (m + 1) = List.range m ++ [m] := List.range_succ
    rw [hrange, List.map_append, List.flatten_append, ih, Nat.mul_succ, List.range_add, List.map_append, List.map_map]
    simp only [List.map_cons, List.map_nil, List.flatten_cons, List.flatten_nil, List.append_nil, Function.comp_def,
      Nat.add_assoc]

/-- The tables of a module area lead to each frame of the area once, and these are the frames that are freed. -/
theorem mapModuleArea_frames (n : ℕ) :
    (mapModuleArea n).pd ++ (mapModuleArea n).pt.flatten = (mapModuleArea n).ptFrames ∧
      (mapModuleArea n).ptFrames.Nodup := by
  constructor
  · simp only [mapModuleArea, flatten_blocks, List.range_add, List.map_append, List.map_map]
    rfl
  · exact List.Nodup.map Nat.succ_injective List.nodup_range

/-- The frame of the page directory is not among those that `unmapModuleArea` frees. -/
theorem not_mem_unmapped (n : ℕ) : give (frame 0) ∉ (mapModuleArea n).unmapped := by
  simp [ModuleArea.unmapped, mapModuleArea]

theorem not_balanced_released (e : RelocError) (l : List (Use ModuleResource)) (n : ℕ) (hl : give (frame 0) ∉ l) :
    ¬ Use.Balanced (l ++ (take stringsBlock :: take moduleBlock :: (mapModuleArea n).taken ++ [take symtabBlock] ++
      e.released (mapModuleArea n))) := by
  intro h
  have hmem := h.give_mem (a := frame 0) (by simp [ModuleArea.taken, mapModuleArea])
  have htaken : give (frame 0) ∉ (mapModuleArea n).taken := by simp [ModuleArea.taken]
  have hreleased : give (frame 0) ∉ e.released (mapModuleArea n) := by
    have hunmapped := not_mem_unmapped n
    cases e <;> simp [RelocError.released, hunmapped]
  simp only [List.mem_append, List.mem_cons, hl, htaken, hreleased, List.not_mem_nil, or_false, reduceCtorEq] at hmem

/-! ## Loading -/

/-- The tables of an image that can be loaded make a relocated body. -/
theorem Tables.Loadable.relocated (h : t.Loadable env) : t.Relocated env (t.relocated env t.numRelocs) where
  field i hi _ := by
    obtain ⟨a, haddress⟩ := (h.applies i hi).address
    refine ⟨a, haddress, fun k hk => ?_⟩
    have hfield : t.InField env i ((t.entry env i).r_offset + k) := by
      unfold Tables.InField
      omega
    rw [Tables.relocated_field h.agree hi hfield, Nat.add_sub_cancel_left, Tables.value, haddress]
    rfl
  other p _ hother := Tables.relocated_other hother

/-- A relocated body comes from fields that agree. -/
theorem Tables.Relocated.agree {body : Bytes} (h : t.Relocated env body)
    (happlies : ∀ i < t.numRelocs, t.Applies env i) (i : ℕ) (hi : i < t.numRelocs) (j : ℕ)
    (hj : j < t.numRelocs) (p : ℕ) (hp : t.InField env i p) (hp' : t.InField env j p) :
    byteAt (t.value env i) (p - (t.entry env i).r_offset) =
      byteAt (t.value env j) (p - (t.entry env j).r_offset) := by
  have hbyte : ∀ i < t.numRelocs, t.InField env i p →
      body p = byteAt (t.value env i) (p - (t.entry env i).r_offset) := by
    intro i hi hp
    obtain ⟨a, haddress, hfield⟩ := h.field i hi (happlies i hi).type
    have hk : p - (t.entry env i).r_offset < 8 := by
      have hlt := hp.2
      have hle := hp.1
      omega
    have hat := hfield _ hk
    rw [Nat.add_sub_cancel' hp.1] at hat
    rw [hat, Tables.value, haddress]
    rfl
  rw [← hbyte i hi hp, ← hbyte j hj hp']

variable {modblock fuel : ℕ} {o : InsmodOutcome}

/-- A call that takes a block and does right has loaded the module. -/
theorem loadModule_right (hblock : st.allocModuleBlock = some modblock) {l : List (Use ModuleResource)}
    (hl : give (frame 0) ∉ l) (h : loadModule env st modname header s fp fuel = some o)
    (hright : { o with uses := l ++ o.uses : InsmodOutcome}.Right env st header s fp) :
    (readTables env header s fp modblock).Loadable env := by
  unfold loadModule at h
  rw [hblock] at h
  dsimp only at h
  split_ifs at h with hsectors
  · obtain rfl := Option.some.inj h
    exact hright.elim
  split at h
  · exact nomatch h
  · obtain rfl := Option.some.inj h
    exact hright.elim
  next entries hsymbols =>
  rw [← Tables.stateAfter_zero] at h
  split at h
  · exact nomatch h
  · obtain rfl := Option.some.inj h
    exact hright.elim
  · next e _ _ =>
    obtain rfl := Option.some.inj h
    exact absurd hright.2 (not_balanced_released e l _ hl)
  · next r hrelocs =>
    obtain rfl := Option.some.inj h
    obtain ⟨hcount, hsteps⟩ := (Counter.loop_ok_iff (by decide)).1 ⟨fuel, hsymbols⟩
    obtain ⟨hcount', hsteps'⟩ := (Counter.loop_ok_iff (by decide)).1 ⟨fuel, hrelocs⟩
    obtain ⟨happlies, rfl⟩ := Tables.steps_relocStep.1 hsteps'
    exact
      { sectors := Nat.le_of_not_lt hsectors
        symbols := hcount
        names := (Tables.steps_symbolStep {}).1 ⟨entries, hsteps⟩
        relocs := hcount'
        applies := happlies
        agree := hright.1.agree happlies }

theorem Tables.Loadable.loadModule (hblock : st.allocModuleBlock = some modblock)
    (h : (readTables env header s fp modblock).Loadable env) :
    ∃ fuel o m init, loadModule env st modname header s fp fuel = some o ∧ o.result = .loaded m init ∧
      (readTables env header s fp m.block).Relocated env m.body ∧ o.state.modules = st.modules ++ [m] := by
  obtain ⟨entries, hsteps⟩ := (Tables.steps_symbolStep {}).2 h.names
  obtain ⟨fuel, hsymbols⟩ := (Counter.loop_ok_iff (by decide)).2 ⟨h.symbols, hsteps⟩
  obtain ⟨fuel', hrelocs⟩ := (Counter.loop_ok_iff (by decide)).2
    ⟨h.relocs, Tables.steps_relocStep.2 ⟨h.applies, rfl⟩⟩
  refine ⟨fuel + fuel', ?_⟩
  unfold Module.loadModule
  rw [hblock]
  dsimp only
  rw [if_neg (Nat.not_lt.2 h.sectors), Counter.loop_le hsymbols (Nat.le_add_right ..), ← Tables.stateAfter_zero,
    Counter.loop_le hrelocs (Nat.le_add_left ..)]
  exact ⟨_, _, _, rfl, rfl, h.relocated, rfl⟩

theorem PastChecks.insmod (h : PastChecks env st modname path header s fp) (flags fuel : ℕ) :
    Module.insmod env st modname path flags fuel = (loadModule env st modname header s fp fuel).map fun o =>
      { o with uses := [take file, take sectionStrings, give sectionStrings] ++ o.uses } := by
  obtain ⟨f, hopen, htree, hcheck⟩ := h.image
  have hnew : ¬ (st.modules.any fun m => m.name = modname) = true := by
    simpa using h.new
  rw [Module.insmod, if_neg (Nat.not_le.2 h.name), if_neg hnew, hopen]
  dsimp only
  rw [htree, if_neg (by decide), hcheck]
  rfl

/-- `\0.rela.modbody\0.symtab\0.strtab\0x\0` -/
def imageStrings : List UInt8 := 0 :: RELA_MODBODY ++ 0 :: SYMTAB ++ 0 :: STRTAB ++ [0, 0x78, 0]

def imageSection (name type offset size : ℕ) : List UInt8 :=
  pack [(4, name), (4, type), (8, 0), (8, 0), (8, offset), (8, size), (4, 0), (4, 0), (8, 0), (8, 0)]

/-- An image with a body of some bytes, the symbol `x` in a section, and one relocation of a type against it. -/
def image (bodySize shndx type : ℕ) : List UInt8 :=
  [0x7f, 0x45, 0x4c, 0x46, 2, 1, 1, 0, 0, 0, 0, 0, 0, 0, 0, 0] ++
    pack [(2, 1), (2, 62), (4, 1), (8, 0), (8, 0), (8, 64), (4, 0), (2, 64), (2, 0), (2, 0), (2, 64), (2, 5), (2, 4)] ++
    imageSection 0 0 0 0 ++ imageSection 6 SHT_PROGBITS 384 bodySize ++ imageSection 1 SHT_RELA 441 24 ++
    imageSection 15 SHT_SYMTAB 417 24 ++ imageSection 23 3 384 33 ++
    imageStrings ++ pack [(4, 31), (1, 0), (1, 0), (2, shndx), (8, 0), (8, 0)] ++ pack [(8, 0), (8, type), (8, 0)]

/-- A kernel without symbols and with this image behind every path. -/
def imageEnv (content : List UInt8) : ModuleEnv where
  vfsOpen _ := .ok (Exec.plainFile content)
  symbols := []
  thisModule := 0
  junk _ := fun _ => 0

def noModules : ModuleState := ⟨[], fun _ => false⟩

theorem image_pastChecks {content : List UInt8}
    (h : (checkImage ⟨Exec.plainFile content, 0⟩).toOption.isSome = true) (path : List UInt8) :
    ∃ header s fp, PastChecks (imageEnv content) noModules [0x78] path header s fp := by
  cases hcheck : checkImage ⟨Exec.plainFile content, 0⟩ with
  | error e =>
    rw [hcheck] at h
    exact nomatch h
  | ok r => exact ⟨r.1, r.2.1, r.2.2, by decide, nofun, _, rfl, rfl, hcheck⟩

end Glidix.Module
