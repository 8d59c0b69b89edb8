import Mathlib.Data.List.TakeWhile
import Glidix.Iso.Isofs

/-!
# Listing directories of an ISO image

A directory lists its records with the names that the image gives them: the NM entries of a record
spell its name, also those in areas where its system use area is continued.  `isoLoadInode` and
`isoLoad` list exactly these entries and ask for sizes that fit their buffers under a condition on the
image alone (`isoLoad_right_iff`): an NM entry may be too short, a page may lie behind the end of the file,
and a name may be spelled by more than one entry.
-/

namespace Glidix.Iso

open Bytes

/-! ## Names that the image gives -/

/-- A record of a directory, with its position. -/
abbrev Record := ℕ × ISODirentHeader

/-- `"CE"` as a number. -/
def CE : ℕ := 0x4543

/-- The entries of a system use area, with their positions. -/
def suspChain (v : Isofs) (stop headpos : ℕ) : List (ℕ × SUSPHeader) :=
  if hlt : headpos < stop then
    match v.readSUSP headpos with
    | none => []
    | some susp =>
      if hlen : susp.len = 0 then []
      else if susp.type = ST then []
      else (headpos, susp) :: suspChain v stop (headpos + susp.len.toNat)
  else []
termination_by stop - headpos
decreasing_by exact step_lt hlt hlen

/-- What an NM entry contributes to a name. -/
def payload (v : Isofs) (e : ℕ × SUSPHeader) : List UInt8 :=
  (v.image.drop (e.1 + 5)).take (e.2.len.toNat - 5)

/-- What the NM entries among these contribute. -/
def pieces (v : Isofs) (chain : List (ℕ × SUSPHeader)) : List (List UInt8) :=
  (chain.filter fun e => e.2.type = NM).map (payload v)

/-- Where an area is continued: a block, an offset in it and a size. -/
def continuation (v : Isofs) (chain : List (ℕ × SUSPHeader)) : Option (ℕ × ℕ) :=
  (chain.find? fun e => e.2.type = CE).map fun e =>
    let entry := v.image.drop e.1
    let start := leAt 4 4 entry * v.blockSize.toNat + leAt 12 4 entry
    (start, start + leAt 20 4 entry)

/-- The pieces in the areas that continue an area, up to a number of areas. -/
def continued (v : Isofs) : (areas : ℕ) → Option (ℕ × ℕ) → List (List UInt8)
  | 0, _ => []
  | _, none => []
  | areas + 1, some (start, stop) =>
    let chain := suspChain v stop start
    pieces v chain ++ continued v areas (continuation v chain)

section Record

variable (v : Isofs) (susp : Option UInt8) (r : Record)

/-- The name field of a record. -/
def nameField : List UInt8 := (v.image.drop (r.1 + sizeofHeader)).take r.2.filenameLen.toNat

/-- The entries in the system use area of a record. -/
def recordChain (skip : UInt8) : List (ℕ × SUSPHeader) :=
  suspChain v (r.1 + r.2.size.toNat) (areaPos r.1 r.2 + skip.toNat)

/-- The pieces in the areas that continue the one of a record. -/
def continuedPieces (skip : UInt8) : List (List UInt8) :=
  continued v (v.image.length + 1) (continuation v (recordChain v r skip))

/-- The record is not hidden, and is not the one for `.` or for `..`. -/
def Visible : Prop := r.2.flags &&& 1 = 0 ∧ nameField v r ≠ [0] ∧ nameField v r ≠ [1]

instance : Decidable (Visible v r) := inferInstanceAs (Decidable (_ ∧ _))

/-- The name field without the version. -/
def isoName : List UInt8 := (nameField v r).takeWhile (· ≠ SEMICOLON)

/-- The name of a record: the Rock Ridge name if one is given. -/
def givenName : List UInt8 :=
  match susp with
  | none => isoName v r
  | some skip =>
    let all := pieces v (recordChain v r skip) ++ continuedPieces v r skip
    if all = [] then isoName v r else all.flatten

/-- System use areas are in use from a record without a name on, such as `.`, that has an SP entry. -/
def suspAfter : Option UInt8 :=
  if plainName (nameField v r) = [] then (v.readSP (areaPos r.1 r.2)).or susp else susp

end Record

/-- The records with what is known of system use areas at each. -/
def withSusp (v : Isofs) : (susp : Option UInt8) → List Record → List (Option UInt8 × Record)
  | _, [] => []
  | susp, r :: rs => (suspAfter v susp r, r) :: withSusp v (suspAfter v susp r) rs

/-- The entry that is given for a record. -/
def given (v : Isofs) (p : Option UInt8 × Record) : Option (List UInt8 × ℕ) :=
  if Visible v p.2 then some (givenName v p.1 p.2, p.2.1) else none

/-- Between two positions there are these records, and zeros where no record is. -/
inductive Laid (v : Isofs) : ℕ → List Record → ℕ → Prop
  | stop (pos : ℕ) : Laid v pos [] pos
  | pad {pos stop : ℕ} {rs : List Record} (hlt : pos < stop) (hzero : v.image[pos]? = some 0)
      (h : Laid v (pos + 1) rs stop) : Laid v pos rs stop
  | record {pos stop : ℕ} {rs : List Record} {ent : ISODirentHeader}
      (hread : v.readHeader pos = some ent) (hname : sizeofHeader + ent.filenameLen.toNat ≤ ent.size.toNat)
      (hstop : pos + ent.size.toNat ≤ stop) (himage : pos + ent.size.toNat ≤ v.image.length)
      (h : Laid v (pos + ent.size.toNat) rs stop) : Laid v pos ((pos, ent) :: rs) stop

/-- The extent of a directory. -/
def extent (v : Isofs) (ino : ℕ) : Option (ℕ × ℕ) :=
  match v.readHeader ino with
  | none => none
  | some head =>
    if head.flags &&& 2 ≠ 0 then some (startPos v head, startPos v head + head.fileSize.toNat) else none

/-! ## What both functions are to do -/

/-- The sizes that are asked for fit the buffers, and a directory that is laid out as records lists them
exactly. -/
structure Right (v : Isofs) (ino : ℕ) (pos : Fin (2 ^ 63)) : Prop where
  requests : ∀ n ∈ (isoLoadInode v ino).2.requests, n ≤ 256
  page : ∀ n ∈ (isoLoad v ino (UInt64.ofNat pos)).2.2, n.toNat ≤ 0x1000
  lists : ∀ start stop rs, extent v ino = some (start, stop) → Laid v start rs stop →
    (isoLoadInode v ino).2.dents = (withSusp v v.bytesSkipped rs).filterMap (given v)

/-! ## The condition -/

/-- The records that `isoLoadInode` comes to, and whose names it can read. -/
def visited (v : Isofs) (stop pos : ℕ) : List Record :=
  if hlt : pos < stop then
    match v.readHeader pos with
    | none => []
    | some ent =>
      if hsize : ent.size = 0 then visited v stop (pos + 1)
      else if pos + sizeofHeader + ent.filenameLen.toNat ≤ v.image.length then
        (pos, ent) :: visited v stop (pos + ent.size.toNat)
      else []
  else []
termination_by stop - pos
decreasing_by
  · exact Nat.sub_lt_sub_left hlt (Nat.lt_succ_self pos)
  · exact step_lt hlt hsize

/-- The record is not hidden, and its name does not start with a zero, a semicolon or a one. -/
def Listed (v : Isofs) (r : Record) : Prop :=
  r.2.flags &&& 1 = 0 ∧ plainName (nameField v r) ≠ [] ∧ (plainName (nameField v r)).head? ≠ some 1

instance (v : Isofs) (r : Record) : Decidable (Listed v r) := inferInstanceAs (Decidable (_ ∧ _))

/-- The NM entries of a record that is listed have room for a name. -/
def NamesFit (v : Isofs) (p : Option UInt8 × Record) : Prop :=
  Listed v p.2 → ∀ skip ∈ p.1, ∀ e ∈ recordChain v p.2 skip, e.2.type = NM → 5 ≤ e.2.len.toNat

/-- The last piece in the record, or the name field, spells the whole name. -/
def Spelled (v : Isofs) (susp : Option UInt8) (r : Record) : Prop :=
  match susp with
  | none => 0 ∉ isoName v r
  | some skip =>
    match (pieces v (recordChain v r skip)).getLast? with
    | some piece => 0 ∉ piece ∧
        ∀ l ∈ (pieces v (recordChain v r skip)).dropLast ++ continuedPieces v r skip, l = []
    | none =>
      if continuedPieces v r skip = [] then 0 ∉ isoName v r
      else (continuedPieces v r skip).flatten = plainName (nameField v r)

/-- What the image has to be like. -/
structure WellFormed (v : Isofs) (ino : ℕ) (pos : Fin (2 ^ 63)) : Prop where
  fit : ∀ start stop, extent v ino = some (start, stop) →
    ∀ p ∈ withSusp v v.bytesSkipped (visited v stop start), NamesFit v p
  page : ∀ head ∈ v.readHeader ino, pos.1 ≤ head.fileSize.toNat
  spelled : ∀ start stop rs, extent v ino = some (start, stop) → Laid v start rs stop →
    ∀ p ∈ withSusp v v.bytesSkipped rs, Visible v p.2 → Listed v p.2 ∧ Spelled v p.1 p.2

/-! ## Reading -/

section Read

variable {v : Isofs} {size pos headpos stop : ℕ} {st : NameState} {susp : SUSPHeader}

theorem readAll_eq (hsize : size < 2 ^ 62) (hpos : pos ≤ v.image.length ∨ 0 < size) :
    v.readAll size pos =
      if pos + size ≤ v.image.length then some ((v.image.drop pos).take size) else none := by
  have himage := v.image_lt
  have hlength : ((v.image.drop pos).take size).length = min size (v.image.length - pos) := by
    rw [List.length_take, List.length_drop]
  unfold Isofs.readAll Isofs.vfsPRead
  by_cases hover : 2 ^ 64 - 1 - size < pos
  · rw [if_pos hover, if_neg (show ¬ pos + size ≤ v.image.length by omega)]
    exact if_neg (show ¬ (-1 : ℤ) = size by omega)
  · rw [if_neg hover]
    by_cases hfits : pos + size ≤ v.image.length
    · rw [if_pos hfits]
      exact if_pos (by rw [hlength]; omega)
    · rw [if_neg hfits]
      exact if_neg (by rw [hlength]; omega)

theorem of_readSUSP (h : v.readSUSP headpos = some susp) : headpos + 4 ≤ v.image.length := by
  rw [Isofs.readSUSP, readAll_eq (by decide) (Or.inr (by decide))] at h
  split_ifs at h with hfits
  · exact hfits
  · cases h

theorem readSUSP_none (h : v.image.length < headpos + 4) : v.readSUSP headpos = none := by
  have hshort : ¬ headpos + sizeofSUSP ≤ v.image.length := not_le.2 h
  rw [Isofs.readSUSP, readAll_eq (by decide) (Or.inr (by decide)), if_neg hshort]
  rfl

theorem nameSize_of_le {len : UInt8} (h : 5 ≤ len.toNat) : nameSize len = len.toNat - 5 := by
  have hlt := len.toNat_lt
  rw [nameSize, UInt64.toNat_sub, UInt8.toNat_toUInt64]
  change (2 ^ 64 - 5 + len.toNat) % 2 ^ 64 = len.toNat - 5
  omega

theorem nameSize_of_lt {len : UInt8} (h : len.toNat < 5) : 256 < nameSize len := by
  rw [nameSize, UInt64.toNat_sub, UInt8.toNat_toUInt64]
  change 256 < (2 ^ 64 - 5 + len.toNat) % 2 ^ 64
  omega

/-- An NM entry with room for a name. -/
theorem read_name (h : v.readSUSP headpos = some susp) (hlen : 5 ≤ susp.len.toNat) :
    (v.vfsPRead (nameSize susp.len) (headpos + 5)).2 = payload v (headpos, susp) ∧
      (nameRead v susp.len headpos = false → v.image.length < headpos + susp.len.toNat) := by
  have hfits := of_readSUSP h
  have himage := v.image_lt
  have hlt := susp.len.toNat_lt
  have hover : ¬ 2 ^ 64 - 1 - (susp.len.toNat - 5) < headpos + 5 := by omega
  rw [nameRead, nameSize_of_le hlen, Isofs.vfsPRead, if_neg hover]
  refine ⟨rfl, fun hshort => ?_⟩
  have hne := of_decide_eq_false hshort
  simp only [List.length_take, List.length_drop] at hne
  omega

end Read

/-! ## The loop over a system use area -/

section SuspLoop

variable {v : Isofs} {stop headpos : ℕ} {st : NameState}

/-- Behind the end of the image there are no entries. -/
theorem suspChain_end (h : v.image.length < headpos + 4) : suspChain v stop headpos = [] := by
  rw [suspChain, readSUSP_none h]
  split_ifs <;> rfl

theorem suspLoop_end (h : v.image.length < headpos + 4) : suspLoop v stop headpos st = st := by
  rw [suspLoop, readSUSP_none h]
  split_ifs <;> rfl

/-- The name after the loop is the last piece, up to a zero. -/
theorem suspLoop_name (hfit : ∀ e ∈ suspChain v stop headpos, e.2.type = NM → 5 ≤ e.2.len.toNat) :
    (suspLoop v stop headpos st).name =
      ((pieces v (suspChain v stop headpos)).getLast?.elim st.name fun l => l.takeWhile (· ≠ 0)) := by
  fun_induction suspChain v stop headpos generalizing st with
  | case1 headpos hlt hread => rw [suspLoop, dif_pos hlt, hread]; rfl
  | case2 headpos hlt susp hread hlen =>
    rw [suspLoop, dif_pos hlt, hread]
    simp only [dif_pos hlen]
    rfl
  | case3 headpos hlt susp hread hlen hst =>
    rw [suspLoop, dif_pos hlt, hread]
    simp only [dif_neg hlen, if_pos hst]
    rfl
  | case4 headpos hlt susp hread hlen hst ih =>
    rw [suspLoop, dif_pos hlt, hread]
    simp only [dif_neg hlen, if_neg hst]
    have hrest : ∀ e ∈ suspChain v stop (headpos + susp.len.toNat), e.2.type = NM → 5 ≤ e.2.len.toNat :=
      fun e he => hfit e (List.mem_cons_of_mem _ he)
    by_cases hnm : susp.type = NM
    · obtain ⟨hdata, hshort⟩ := read_name hread (hfit _ List.mem_cons_self hnm)
      have hpieces : pieces v ((headpos, susp) :: suspChain v stop (headpos + susp.len.toNat)) =
          payload v (headpos, susp) :: pieces v (suspChain v stop (headpos + susp.len.toNat)) := by
        rw [pieces, List.filter_cons_of_pos (by simpa using hnm)]
        rfl
      have hname : (st.readName v susp.len headpos).name =
          (payload v (headpos, susp)).takeWhile (· ≠ 0) := by
        rw [NameState.readName, hdata]
      have hafter : (if nameRead v susp.len headpos then
          suspLoop v stop (headpos + susp.len.toNat) (st.readName v susp.len headpos)
          else st.readName v susp.len headpos) =
          suspLoop v stop (headpos + susp.len.toNat) (st.readName v susp.len headpos) := by
        split_ifs with hread'
        · rfl
        · have hend := hshort (Bool.not_eq_true _ ▸ hread')
          exact (suspLoop_end (by omega)).symm
      rw [if_pos hnm, hafter, ih hrest, hpieces, hname, List.getLast?_cons]
      cases (pieces v (suspChain v stop (headpos + susp.len.toNat))).getLast? with
      | none => rfl
      | some l => rfl
    · have hpieces : pieces v ((headpos, susp) :: suspChain v stop (headpos + susp.len.toNat)) =
          pieces v (suspChain v stop (headpos + susp.len.toNat)) := by
        rw [pieces, List.filter_cons_of_neg (by simpa using hnm)]
        rfl
      rw [if_neg hnm, ih hrest, hpieces]
  | case5 headpos hlt => rw [suspLoop, dif_neg hlt]; rfl

theorem forall_requests_append {l : List ℕ} {n : ℕ} :
    (∀ m ∈ l ++ [n], m ≤ 256) ↔ (∀ m ∈ l, m ≤ 256) ∧ n ≤ 256 := by
  rw [List.forall_mem_append, List.forall_mem_singleton]

/-- The sizes fit `namebuf` as long as the NM entries have room for a name. -/
theorem suspLoop_requests : (∀ n ∈ (suspLoop v stop headpos st).requests, n ≤ 256) ↔
    (∀ n ∈ st.requests, n ≤ 256) ∧
      ∀ e ∈ suspChain v stop headpos, e.2.type = NM → 5 ≤ e.2.len.toNat := by
  fun_induction suspChain v stop headpos generalizing st with
  | case1 headpos hlt hread =>
    rw [suspLoop, dif_pos hlt, hread]
    simp
  | case2 headpos hlt susp hread hlen =>
    rw [suspLoop, dif_pos hlt, hread]
    simp [dif_pos hlen]
  | case3 headpos hlt susp hread hlen hst =>
    rw [suspLoop, dif_pos hlt, hread]
    simp [dif_neg hlen, if_pos hst]
  | case4 headpos hlt susp hread hlen hst ih =>
    rw [suspLoop, dif_pos hlt, hread]
    simp only [dif_neg hlen, if_neg hst]
    rw [List.forall_mem_cons]
    by_cases hnm : susp.type = NM
    · rw [if_pos hnm]
      have hstart : (∀ n ∈ (st.readName v susp.len headpos).requests, n ≤ 256) ↔
          (∀ n ∈ st.requests, n ≤ 256) ∧ nameSize susp.len ≤ 256 := forall_requests_append
      by_cases hroom : 5 ≤ susp.len.toNat
      · have hle : nameSize susp.len ≤ 256 := by
          have hlt := susp.len.toNat_lt
          rw [nameSize_of_le hroom]
          omega
        obtain ⟨-, hshort⟩ := read_name hread hroom
        split_ifs with hread'
        · rw [ih, hstart]
          tauto
        · have hend := hshort (Bool.not_eq_true _ ▸ hread')
          rw [hstart, suspChain_end (show v.image.length < headpos + susp.len.toNat + 4 by omega)]
          simp [hle, hroom]
      · have hgt := nameSize_of_lt (not_le.1 hroom)
        have hbad : ¬ ∀ n ∈ (st.readName v susp.len headpos).requests, n ≤ 256 := by
          rw [hstart]
          exact fun h => absurd h.2 (not_le.2 hgt)
        split_ifs with hread'
        · rw [ih]
          tauto
        · tauto
    · rw [if_neg hnm, ih]
      tauto
  | case5 headpos hlt =>
    rw [suspLoop, dif_neg hlt]
    simp

end SuspLoop

/-! ## The loop over an extent -/

section Extent

variable {v : Isofs} {start stop pos : ℕ} {st : DirState} {r : Record} {rs : List Record}
  {susp : Option UInt8}

/-- The entry that is made for a record. -/
def shown (v : Isofs) (p : Option UInt8 × Record) : Option (List UInt8 × ℕ) :=
  if Listed v p.2 then
    some ((entryName v ⟨p.1, [], []⟩ p.2.1 p.2.2 (plainName (nameField v p.2))).name, p.2.1)
  else none

/-- The loop body, with the size of the name field. -/
def visit (v : Isofs) (st : DirState) (r : Record) : DirState :=
  addRecord v r.1 r.2 (nameField v r)
    { st with requests := st.requests ++ [r.2.filenameLen.toNat] }

/-- The name does not depend on what was asked for before. -/
theorem suspLoop_name_congr {headpos : ℕ} {st st' : NameState} (h : st.name = st'.name) :
    (suspLoop v stop headpos st).name = (suspLoop v stop headpos st').name := by
  fun_induction suspLoop v stop headpos st generalizing st' with
  | case1 headpos st hlt hread =>
    rw [suspLoop, dif_pos hlt, hread]
    exact h
  | case2 headpos st hlt susp hread hlen =>
    rw [suspLoop, dif_pos hlt, hread]
    simp only [dif_pos hlen]
    exact h
  | case3 headpos st hlt susp hread hlen hst =>
    rw [suspLoop, dif_pos hlt, hread]
    simp only [dif_neg hlen, if_pos hst]
    exact h
  | case4 headpos st hlt susp hread hlen hst hnm hname ih =>
    conv_rhs => rw [suspLoop, dif_pos hlt, hread]
    simp only [dif_neg hlen, if_neg hst, if_pos hnm, if_pos hname]
    exact ih rfl
  | case5 headpos st hlt susp hread hlen hst hnm hname =>
    rw [suspLoop, dif_pos hlt, hread]
    simp only [dif_neg hlen, if_neg hst, if_pos hnm, if_neg hname]
    rfl
  | case6 headpos st hlt susp hread hlen hst hnm ih =>
    conv_rhs => rw [suspLoop, dif_pos hlt, hread]
    simp only [dif_neg hlen, if_neg hst, if_neg hnm]
    exact ih h
  | case7 headpos st hlt =>
    rw [suspLoop, dif_neg hlt]
    exact h

theorem entryName_congr {st st' : DirState} (h : st.bytesSkipped = st'.bytesSkipped)
    (ent : ISODirentHeader) (name : List UInt8) :
    (entryName v st pos ent name).name = (entryName v st' pos ent name).name := by
  unfold entryName
  rw [h]
  cases st'.bytesSkipped with
  | none => rfl
  | some skip => exact suspLoop_name_congr rfl

theorem entryName_requests (ent : ISODirentHeader) (name : List UInt8) :
    (∀ n ∈ (entryName v st pos ent name).requests, n ≤ 256) ↔ (∀ n ∈ st.requests, n ≤ 256) ∧
      ∀ skip ∈ st.bytesSkipped, ∀ e ∈ recordChain v (pos, ent) skip, e.2.type = NM →
        5 ≤ e.2.len.toNat := by
  unfold entryName
  cases st.bytesSkipped with
  | none => simp
  | some skip =>
    simp only [Option.mem_def, Option.some.injEq, forall_eq']
    exact suspLoop_requests

theorem visit_spec (v : Isofs) (st : DirState) (r : Record) :
    (visit v st r).bytesSkipped = suspAfter v st.bytesSkipped r ∧
      (visit v st r).dents = st.dents ++ (shown v (suspAfter v st.bytesSkipped r, r)).toList ∧
      ((∀ n ∈ (visit v st r).requests, n ≤ 256) ↔
        (∀ n ∈ st.requests, n ≤ 256) ∧ NamesFit v (suspAfter v st.bytesSkipped r, r)) := by
  obtain ⟨pos, ent⟩ := r
  have hsize : ent.filenameLen.toNat ≤ 256 := ent.filenameLen.toNat_lt.le
  set name := plainName (nameField v (pos, ent)) with hname
  -- the state when the entry is added
  set st' : DirState :=
    ⟨suspAfter v st.bytesSkipped (pos, ent), st.dents, st.requests ++ [ent.filenameLen.toNat]⟩ with hst'
  have hstate : visit v st (pos, ent) =
      if Listed v (pos, ent) then
        { st' with
          dents := st'.dents ++ [((entryName v st' pos ent name).name, pos)]
          requests := (entryName v st' pos ent name).requests }
      else st' := by
    unfold visit addRecord
    rw [hst', suspAfter, ← hname]
    by_cases hempty : name = []
    · simp only [if_pos hempty]
      rfl
    · simp only [if_neg hempty]
      rfl
  have hfits : (∀ n ∈ st'.requests, n ≤ 256) ↔ ∀ n ∈ st.requests, n ≤ 256 := by
    rw [hst', forall_requests_append]
    exact and_iff_left hsize
  by_cases hlisted : Listed v (pos, ent)
  · rw [hstate, if_pos hlisted]
    refine ⟨rfl, ?_, ?_⟩
    · have hsame : (entryName v st' pos ent name).name =
          (entryName v ⟨suspAfter v st.bytesSkipped (pos, ent), [], []⟩ pos ent name).name := by
        apply entryName_congr
        rfl
      rw [shown, if_pos hlisted, hsame]
      rfl
    · rw [entryName_requests, hfits]
      refine and_congr_right fun _ => ⟨fun h _ => h, fun h => h hlisted⟩
  · rw [hstate, if_neg hlisted]
    refine ⟨rfl, ?_, ?_⟩
    · rw [shown, if_neg hlisted]
      exact (List.append_nil _).symm
    · rw [hfits]
      exact (and_iff_left fun h => absurd h hlisted).symm

/-- Visiting records one after the other. -/
theorem foldl_visit (v : Isofs) (rs : List Record) (st : DirState) :
    (rs.foldl (visit v) st).dents = st.dents ++ (withSusp v st.bytesSkipped rs).filterMap (shown v) ∧
      ((∀ n ∈ (rs.foldl (visit v) st).requests, n ≤ 256) ↔
        (∀ n ∈ st.requests, n ≤ 256) ∧ ∀ p ∈ withSusp v st.bytesSkipped rs, NamesFit v p) := by
  induction rs generalizing st with
  | nil => simp [withSusp]
  | cons r rs ih =>
    obtain ⟨hsusp, hdents, hrequests⟩ := visit_spec v st r
    obtain ⟨hdents', hrequests'⟩ := ih (visit v st r)
    rw [List.foldl_cons, withSusp]
    constructor
    · rw [hdents', hdents, hsusp, List.append_assoc, List.filterMap_cons]
      cases shown v (suspAfter v st.bytesSkipped r, r) with
      | none => rfl
      | some e => rfl
    · rw [hrequests', hrequests, hsusp, List.forall_mem_cons, and_assoc]

theorem readHeader_eq : v.readHeader pos = if pos + sizeofHeader ≤ v.image.length then
    some (.ofBytes ((v.image.drop pos).take sizeofHeader)) else none := by
  rw [Isofs.readHeader, readAll_eq (by decide) (Or.inr (by decide))]
  split_ifs <;> rfl

theorem of_readHeader {ent : ISODirentHeader} (h : v.readHeader pos = some ent) :
    pos + sizeofHeader ≤ v.image.length := by
  rw [readHeader_eq] at h
  split_ifs at h with hfits
  exact hfits

/-- The loop visits records, and may then fail to read a name. -/
theorem extentLoop_eq : ∃ l : List ℕ, (∀ n ∈ l, n ≤ 256) ∧
    (extentLoop v stop pos st).dents = ((visited v stop pos).foldl (visit v) st).dents ∧
    (extentLoop v stop pos st).requests = ((visited v stop pos).foldl (visit v) st).requests ++ l := by
  fun_induction visited v stop pos generalizing st with
  | case1 pos hlt hread =>
    rw [extentLoop, dif_pos hlt, hread]
    exact ⟨[], by simp, rfl, (List.append_nil _).symm⟩
  | case2 pos hlt ent hread hsize ih =>
    rw [extentLoop, dif_pos hlt, hread]
    simp only [dif_pos hsize]
    exact ih
  | case3 pos hlt ent hread hsize hname ih =>
    have hall : v.readAll ent.filenameLen.toNat (pos + sizeofHeader) = some (nameField v (pos, ent)) := by
      have hlen := ent.filenameLen.toNat_lt
      rw [readAll_eq (by omega) (Or.inl (of_readHeader hread)), if_pos hname]
      rfl
    rw [extentLoop, dif_pos hlt, hread]
    simp only [dif_neg hsize, hall]
    exact ih
  | case4 pos hlt ent hread hsize hname =>
    have hlen := ent.filenameLen.toNat_lt
    have hall : v.readAll ent.filenameLen.toNat (pos + sizeofHeader) = none := by
      rw [readAll_eq (by omega) (Or.inl (of_readHeader hread)), if_neg hname]
    rw [extentLoop, dif_pos hlt, hread]
    simp only [dif_neg hsize, hall]
    exact ⟨[ent.filenameLen.toNat], by simp; omega, rfl, rfl⟩
  | case5 pos hlt =>
    rw [extentLoop, dif_neg hlt]
    exact ⟨[], by simp, rfl, (List.append_nil _).symm⟩

/-- Behind a place where no header can be read there are no records. -/
theorem Laid.eq_nil (h : Laid v pos rs stop) (hread : v.readHeader pos = none) : rs = [] := by
  induction h with
  | stop pos => rfl
  | @pad pos stop rs hlt hzero h ih =>
    apply ih
    rw [readHeader_eq] at hread ⊢
    rw [if_neg]
    intro hfits
    rw [if_pos (by omega)] at hread
    cases hread
  | record hread' hname hstop himage h ih =>
    rw [hread] at hread'
    cases hread'

theorem Laid.visited_eq (h : Laid v pos rs stop) : visited v stop pos = rs := by
  induction h with
  | stop pos =>
    rw [visited, dif_neg (lt_irrefl pos)]
  | @pad pos stop rs hlt hzero h ih =>
    rw [visited, dif_pos hlt]
    cases hread : v.readHeader pos with
    | none => exact ((Laid.pad hlt hzero h).eq_nil hread).symm
    | some ent =>
      have hsize : ent.size = 0 := by
        have hfits := of_readHeader hread
        rw [readHeader_eq, if_pos hfits] at hread
        rw [← Option.some.inj hread]
        simp [ISODirentHeader.ofBytes, sizeofHeader, hzero]
      dsimp only
      rw [dif_pos hsize, ih]
  | @record pos stop rs ent hread hname hstop himage h ih =>
    have hpos : ent.size ≠ 0 := by
      intro h0
      rw [h0] at hname
      unfold sizeofHeader at hname
      simp at hname
    have hlt : pos < stop := by
      unfold sizeofHeader at hname
      omega
    rw [visited, dif_pos hlt, hread]
    dsimp only
    rw [dif_neg hpos, if_pos (by omega), ih]

/-- Records lie behind each other. -/
theorem Laid.pairwise (h : Laid v pos rs stop) :
    (∀ r ∈ rs, pos ≤ r.1) ∧ rs.Pairwise fun r r' => r.1 < r'.1 := by
  induction h with
  | stop pos => simp
  | @pad pos stop rs hlt hzero h ih => exact ⟨fun r hr => by have := ih.1 r hr; omega, ih.2⟩
  | @record pos stop rs ent hread hname hstop himage h ih =>
    unfold sizeofHeader at hname
    refine ⟨List.forall_mem_cons.2 ⟨le_rfl, fun r hr => ?_⟩, List.pairwise_cons.2 ⟨fun r hr => ?_, ih.2⟩⟩
    · have := ih.1 r hr
      omega
    · have := ih.1 r hr
      dsimp only
      omega

end Extent

/-! ## Names -/

section Name

variable {v : Isofs} {susp : Option UInt8} {r : Record}

theorem plainName_eq (l : List UInt8) : plainName l = (l.takeWhile (· ≠ SEMICOLON)).takeWhile (· ≠ 0) := by
  rw [plainName, List.takeWhile_takeWhile]
  congr 1
  funext c
  simp [and_comm]

theorem takeWhile_eq_self {l : List UInt8} : l.takeWhile (· ≠ 0) = l ↔ 0 ∉ l := by
  rw [List.takeWhile_eq_self_iff]
  constructor
  · intro h h0
    have := h 0 h0
    simp at this
  · intro h c hc
    simp only [ne_eq, decide_not, Bool.not_eq_true', decide_eq_false_iff_not]
    rintro rfl
    exact h hc

theorem plainName_eq_isoName : plainName (nameField v r) = isoName v r ↔ 0 ∉ isoName v r := by
  rw [plainName_eq]
  exact takeWhile_eq_self

/-- One piece spells all the pieces joined exactly if the others are empty. -/
theorem takeWhile_eq_flatten {l rest : List (List UInt8)} {piece : List UInt8} :
    piece.takeWhile (· ≠ 0) = (l ++ [piece] ++ rest).flatten ↔ 0 ∉ piece ∧ ∀ m ∈ l ++ rest, m = [] := by
  constructor
  · intro h
    have hlength := congrArg List.length h
    have hle := (List.takeWhile_prefix (p := fun c : UInt8 => decide (c ≠ 0)) (l := piece)).length_le
    simp only [List.flatten_append, List.flatten_singleton, List.length_append] at hlength
    have hl : l.flatten = [] := List.eq_nil_of_length_eq_zero (by omega)
    have hrest : rest.flatten = [] := List.eq_nil_of_length_eq_zero (by omega)
    refine ⟨?_, fun m hm => ?_⟩
    · rw [← takeWhile_eq_self, h]
      simp [hl, hrest]
    · rcases List.mem_append.1 hm with hm | hm
      · exact List.flatten_eq_nil_iff.1 hl m hm
      · exact List.flatten_eq_nil_iff.1 hrest m hm
  · rintro ⟨hzero, hempty⟩
    have hl : l.flatten = [] :=
      List.flatten_eq_nil_iff.2 fun m hm => hempty m (List.mem_append_left _ hm)
    have hrest : rest.flatten = [] :=
      List.flatten_eq_nil_iff.2 fun m hm => hempty m (List.mem_append_right _ hm)
    rw [takeWhile_eq_self.2 hzero]
    simp [hl, hrest]

/-- The name that is shown is the one that is given exactly if it is spelled in one place. -/
theorem entryName_eq_iff (hfit : NamesFit v (susp, r)) (hlisted : Listed v r) :
    (entryName v ⟨susp, [], []⟩ r.1 r.2 (plainName (nameField v r))).name = givenName v susp r ↔
      Spelled v susp r := by
  cases susp with
  | none =>
    simp only [entryName, givenName, Spelled]
    exact plainName_eq_isoName
  | some skip =>
    have hname : (suspLoop v (r.1 + r.2.size.toNat) (areaPos r.1 r.2 + skip.toNat)
        ⟨plainName (nameField v r), []⟩).name = (pieces v (recordChain v r skip)).getLast?.elim
          (plainName (nameField v r)) fun l => l.takeWhile (· ≠ 0) :=
      suspLoop_name (hfit hlisted skip rfl)
    simp only [entryName, givenName, Spelled, hname]
    cases hlast : (pieces v (recordChain v r skip)).getLast? with
    | some piece =>
      obtain ⟨l, hl⟩ := List.getLast?_eq_some_iff.1 hlast
      rw [hl]
      simp only [Option.elim_some, List.dropLast_concat]
      rw [if_neg (by simp)]
      exact takeWhile_eq_flatten
    | none =>
      rw [List.getLast?_eq_none_iff] at hlast
      rw [hlast]
      simp only [Option.elim_none, List.nil_append]
      split_ifs
      · exact plainName_eq_isoName
      · exact eq_comm

end Name

/-! ## The result -/

/-- Lists of values with increasing keys are the same only if they are the same value by value. -/
theorem filterMap_eq_iff {α β : Type*} {key : α → ℕ} {f g : α → Option (β × ℕ)} {l : List α}
    (hf : ∀ a b, f a = some b → b.2 = key a) (hg : ∀ a b, g a = some b → b.2 = key a)
    (hl : l.Pairwise fun a b => key a < key b) :
    l.filterMap f = l.filterMap g ↔ ∀ a ∈ l, f a = g a := by
  induction l with
  | nil => simp
  | cons a l ih =>
    obtain ⟨hfirst, hrest⟩ := List.pairwise_cons.1 hl
    have hnot {h : α → Option (β × ℕ)} (hh : ∀ a b, h a = some b → b.2 = key a) {b : β × ℕ}
        (hb : b.2 = key a) : b ∉ l.filterMap h := by
      intro hmem
      obtain ⟨a', ha', hsome⟩ := List.mem_filterMap.1 hmem
      have hlt := hfirst a' ha'
      rw [← hh a' b hsome, hb] at hlt
      exact lt_irrefl _ hlt
    rw [List.filterMap_cons, List.filterMap_cons, List.forall_mem_cons, ← ih hrest]
    cases hfa : f a with
    | none =>
      cases hga : g a with
      | none => simp
      | some c =>
        refine ⟨fun h => ?_, fun h => by cases h.1⟩
        have hmem : c ∈ l.filterMap f := by
          rw [show l.filterMap f = c :: l.filterMap g from h]
          exact List.mem_cons_self
        exact absurd hmem (hnot hf (hg a c hga))
    | some b =>
      cases hga : g a with
      | none =>
        refine ⟨fun h => ?_, fun h => by cases h.1⟩
        have hmem : b ∈ l.filterMap g := by
          rw [show l.filterMap g = b :: l.filterMap f from h.symm]
          exact List.mem_cons_self
        exact absurd hmem (hnot hg (hf a b hfa))
      | some c => simp

section Result

variable {v : Isofs} {ino start stop : ℕ} {susp : Option UInt8} {rs : List Record}

theorem map_withSusp : (withSusp v susp rs).map Prod.snd = rs := by
  induction rs generalizing susp with
  | nil => rfl
  | cons r rs ih => rw [withSusp, List.map_cons, ih]

/-- A record that is listed is visible. -/
theorem Listed.visible {r : Record} (h : Listed v r) : Visible v r := by
  obtain ⟨hflags, hne, hone⟩ := h
  refine ⟨hflags, fun hdot => hne ?_, fun hdot => hone ?_⟩
  · rw [hdot]
    decide
  · rw [hdot]
    decide

theorem shown_eq_given_iff {p : Option UInt8 × Record} (hfit : NamesFit v p) :
    shown v p = given v p ↔ (Visible v p.2 → Listed v p.2 ∧ Spelled v p.1 p.2) := by
  obtain ⟨susp, r⟩ := p
  unfold shown given
  by_cases hlisted : Listed v r
  · rw [if_pos hlisted, if_pos hlisted.visible, Option.some.injEq, Prod.mk.injEq]
    simp only [hlisted, hlisted.visible, true_and, and_true, true_implies]
    exact entryName_eq_iff hfit hlisted
  · rw [if_neg hlisted]
    split_ifs with hvisible
    · simp [hvisible, hlisted]
    · simp [hvisible]

theorem isoLoadInode_extent (h : extent v ino = some (start, stop)) :
    (isoLoadInode v ino).2 = extentLoop v stop start ⟨v.bytesSkipped, [], []⟩ := by
  unfold extent at h
  unfold isoLoadInode
  cases hread : v.readHeader ino with
  | none => rw [hread] at h; cases h
  | some head =>
    rw [hread] at h
    dsimp only at h ⊢
    split_ifs at h ⊢ with hdir
    obtain ⟨rfl, rfl⟩ := Prod.mk.inj (Option.some.inj h)
    rfl

theorem isoLoadInode_file (h : extent v ino = none) : (isoLoadInode v ino).2.requests = [] := by
  unfold extent at h
  unfold isoLoadInode
  cases hread : v.readHeader ino with
  | none => rfl
  | some head =>
    rw [hread] at h
    dsimp only at h ⊢
    split_ifs at h ⊢ with hdir
    rfl

theorem requests_iff (h : extent v ino = some (start, stop)) :
    (∀ n ∈ (isoLoadInode v ino).2.requests, n ≤ 256) ↔
      ∀ p ∈ withSusp v v.bytesSkipped (visited v stop start), NamesFit v p := by
  have hloop : ∃ l : List ℕ, (∀ n ∈ l, n ≤ 256) ∧
      (extentLoop v stop start ⟨v.bytesSkipped, [], []⟩).dents = _ ∧
      (extentLoop v stop start ⟨v.bytesSkipped, [], []⟩).requests = _ := extentLoop_eq
  obtain ⟨l, hl, -, hrequests⟩ := hloop
  rw [isoLoadInode_extent h, hrequests, List.forall_mem_append, (foldl_visit v _ _).2, and_assoc]
  have hnone : ∀ n ∈ ([] : List ℕ), n ≤ 256 := fun n hn => absurd hn List.not_mem_nil
  exact ⟨fun h => h.2.1, fun h => ⟨hnone, h, hl⟩⟩

/-- A directory that is laid out as records is listed exactly if each name is spelled in one place. -/
theorem lists_iff (h : extent v ino = some (start, stop)) (hlaid : Laid v start rs stop)
    (hfit : ∀ p ∈ withSusp v v.bytesSkipped rs, NamesFit v p) :
    (isoLoadInode v ino).2.dents = (withSusp v v.bytesSkipped rs).filterMap (given v) ↔
      ∀ p ∈ withSusp v v.bytesSkipped rs, Visible v p.2 → Listed v p.2 ∧ Spelled v p.1 p.2 := by
  have hloop : ∃ l : List ℕ, (∀ n ∈ l, n ≤ 256) ∧
      (extentLoop v stop start ⟨v.bytesSkipped, [], []⟩).dents = _ ∧
      (extentLoop v stop start ⟨v.bytesSkipped, [], []⟩).requests = _ := extentLoop_eq
  obtain ⟨l, -, hdents, -⟩ := hloop
  rw [isoLoadInode_extent h, hdents, (foldl_visit v _ _).1, hlaid.visited_eq, List.nil_append]
  have hkeys : (withSusp v v.bytesSkipped rs).Pairwise fun p q => p.2.1 < q.2.1 := by
    have hpairwise := hlaid.pairwise.2
    have hmap : (withSusp v v.bytesSkipped rs).map Prod.snd = rs := map_withSusp
    rw [← hmap, List.pairwise_map] at hpairwise
    exact hpairwise
  rw [filterMap_eq_iff ?_ ?_ hkeys]
  · exact forall₂_congr fun p hp => shown_eq_given_iff (hfit p hp)
  · intro p e he
    unfold shown at he
    split_ifs at he
    rw [← Option.some.inj he]
  · intro p e he
    unfold given at he
    split_ifs at he
    rw [← Option.some.inj he]

end Result

/-- The size of a page fits its buffer exactly if the page does not lie behind the end of the file. -/
theorem pageSize_le_iff (head : ISODirentHeader) (pos : Fin (2 ^ 63)) :
    (pageSize head (UInt64.ofNat pos)).toNat ≤ 0x1000 ↔ pos.1 ≤ head.fileSize.toNat := by
  have hpos := pos.2
  have hsize := head.fileSize.toNat_lt
  have hnat : (UInt64.ofNat pos.1).toNat = pos.1 :=
    UInt64.toNat_ofNat_of_lt' (show pos.1 < 2 ^ 64 by omega)
  have hend : (UInt64.ofNat pos.1 + 0x1000).toNat = pos.1 + 0x1000 := by
    rw [UInt64.toNat_add, hnat, show (0x1000 : UInt64).toNat = 0x1000 by decide]
    omega
  have hlt : head.fileSize.toUInt64 < UInt64.ofNat pos + 0x1000 ↔
      head.fileSize.toNat < pos.1 + 0x1000 := by
    rw [UInt64.lt_iff_toNat_lt, hend, UInt32.toNat_toUInt64]
  unfold pageSize
  split_ifs with hover
  · have hover := hlt.1 hover
    rw [UInt64.toNat_sub, hnat, UInt32.toNat_toUInt64]
    omega
  · have hover := mt hlt.2 hover
    rw [show (0x1000 : UInt64).toNat = 0x1000 by decide]
    omega

/-- Both functions ask for sizes that fit and list a directory exactly under the condition. -/
theorem isoLoad_right_iff (v : Isofs) (ino : ℕ) (pos : Fin (2 ^ 63)) :
    Right v ino pos ↔ WellFormed v ino pos := by
  have hpage : (∀ n ∈ (isoLoad v ino (UInt64.ofNat pos)).2.2, n.toNat ≤ 0x1000) ↔
      ∀ head ∈ v.readHeader ino, pos.1 ≤ head.fileSize.toNat := by
    unfold isoLoad
    cases v.readHeader ino with
    | none => simp
    | some head => simpa using pageSize_le_iff head pos
  constructor
  · rintro ⟨hrequests, hpages, hlists⟩
    refine ⟨fun start stop hext => (requests_iff hext).1 hrequests, hpage.1 hpages, ?_⟩
    intro start stop rs hext hlaid
    have hfit := (requests_iff hext).1 hrequests
    rw [hlaid.visited_eq] at hfit
    exact (lists_iff hext hlaid hfit).1 (hlists start stop rs hext hlaid)
  · rintro ⟨hfit, hpages, hspelled⟩
    refine ⟨?_, hpage.2 hpages, ?_⟩
    · cases hext : extent v ino with
      | none => simp [isoLoadInode_file hext]
      | some e => exact (requests_iff hext).2 (hfit e.1 e.2 hext)
    · intro start stop rs hext hlaid
      have hfits := hfit start stop hext
      rw [hlaid.visited_eq] at hfits
      exact (lists_iff hext hlaid hfits).2 (hspelled start stop rs hext hlaid)

/-- An image whose first record is that of an empty file. -/
def emptyFile : Isofs := ⟨List.replicate 33 0, by decide, 2048, none⟩

/-- The second page of an empty file is asked for with a size of `2 ^ 64 - 0x1000`. -/
theorem isoLoad_not_right : ¬ ∀ v ino pos, Right v ino pos := by
  intro h
  have hpage := (h emptyFile 0 ⟨0x1000, by decide⟩).page (0 - 0x1000) (by decide)
  exact absurd hpage (by decide)

end Glidix.Iso
