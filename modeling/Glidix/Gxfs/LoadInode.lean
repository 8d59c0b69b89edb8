import Glidix.Gxfs.RecordStream

/-!
# Loading a damaged inode

`gxfsLoadInode` with the inode that it leaves behind when it fails.  It appends an entry for each `DENT` record
as it comes to it, and does not take the entries away when it finds a fault further on; and if the chain of
blocks goes round in a circle, it may not find an end (`gxfsLoadInode_safe_iff`).
-/

namespace Glidix.Gxfs

open Bytes

/-- What the heap has for the loader: whether there is room for the buffer of the `n`-th record, and what lies
behind the buffer.  The heap has `2 ^ 30` bytes. -/
structure LoadMemory where
  room : ℕ → ℕ → Bool
  behind : ℕ → List UInt8
  room_lt : ∀ n size, room n size = true → size < 2 ^ 30
  behind_lt : ∀ n, (behind n).length < 2 ^ 30

namespace Load

/-- The result of the loop over the records: an error, with the inode as it is then, or what has been loaded and
the blocks of the inode. -/
abbrev Result : Type := Except Inode (InodeLoad × List ℕ)

/-- The round of the loop for the `n`-th record: the end of the loop, or what it goes on with. -/
def loadRound (v : Volume) (mem : LoadMemory) (n : ℕ) (reader : InodeReader) (load : InodeLoad) :
    Result ⊕ (InodeReader × InodeLoad) :=
  if reader.readpos = 4096 ∧ reader.ihNext = 0 then .inl (.ok (load, reader.blocks))
  else
    match reader.moveOn v with
    | none => .inl (.error load.inode)
    | some reader =>
      if reader.rhType &&& 0xFF = 0 then .inl (.ok (load, reader.blocks))
      else if reader.rhSize < 8 ∨ reader.rhSize &&& 7 ≠ 0 then .inl (.error load.inode)
      else if mem.room n reader.rhSize = false then .inl (.error load.inode)
      else
        match readInodeChunks v reader.rhSize reader reader.rhSize with
        | none => .inl (.error load.inode)
        | some (buffer, reader) =>
          match loadRecord v.rdonly load (buffer ++ 0 :: mem.behind n) with
          | none => .inl (.error load.inode)
          | some load => .inr (reader, load)

/-- The loop over the records from the `n`-th on. -/
def loadRecords (v : Volume) (mem : LoadMemory) : (fuel n : ℕ) → InodeReader → InodeLoad → Option Result
  | 0, _, _, _ => none
  | fuel + 1, n, reader, load =>
    match loadRound v mem n reader load with
    | .inl result => some result
    | .inr (reader, load) => loadRecords v mem fuel (n + 1) reader load

/-- `gxfsLoadInode`: whether it succeeds, and the inode. -/
def gxfsLoadInode (v : Volume) (mem : LoadMemory) (fuel : ℕ) (inode : Inode) : Option (Bool × Inode) :=
  match gxfsReadBlock v inode.ino.toNat with
  | none => some (false, inode)
  | some blockbuf =>
    (loadRecords v mem fuel 0 ⟨blockbuf, 8, [inode.ino.toNat]⟩ ⟨inode, false, 0, 0⟩).map fun
      | .error inode => (false, inode)
      | .ok (load, blocks) =>
        if load.foundAttr then (true, { load.inode with blocks }) else (false, load.inode)

/-- With nothing behind the buffers, a load that comes to its end is one of `Gxfs.loadRecords`. -/
theorem loadRecords_of_ok {v : Volume} {mem : LoadMemory} (hbehind : ∀ n, mem.behind n = []) {fuel n : ℕ}
    {reader : InodeReader} {load : InodeLoad} {x : InodeLoad × List ℕ}
    (h : loadRecords v mem fuel n reader load = some (.ok x)) :
    Gxfs.loadRecords v fuel reader load = some x := by
  induction fuel generalizing n reader load with
  | zero => cases h
  | succ fuel ih =>
    rw [loadRecords] at h
    rw [Gxfs.loadRecords]
    cases hround : loadRound v mem n reader load with
    | inl result =>
      rw [hround] at h
      obtain rfl := Option.some.inj h
      rw [loadRound] at hround
      split_ifs at hround with hend
      · rw [if_pos hend]
        cases hround
        rfl
      · rw [if_neg hend]
        split at hround
        · cases hround
        · next reader₁ hmove =>
          rw [hmove]
          simp only [Option.bind_eq_bind, Option.bind_some]
          split_ifs at hround with hzero
          · rw [if_pos hzero]
            cases hround
            rfl
          · cases hround
          · cases hround
          · split at hround
            · cases hround
            · split at hround
              · cases hround
              · cases hround
    | inr next =>
      rw [hround] at h
      rw [loadRound] at hround
      split_ifs at hround with hend
      split at hround
      · cases hround
      · next reader₁ hmove =>
        split_ifs at hround with hzero hsize hroom
        split at hround
        · cases hround
        · next buffer reader₂ hread =>
          split at hround
          · cases hround
          · next load₁ hload =>
            cases hround
            rw [hbehind] at hload
            rw [if_neg hend, hmove]
            simp only [Option.bind_eq_bind, Option.bind_some]
            rw [if_neg hzero, if_neg hsize, hread, Option.bind_some]
            simp only
            rw [hload, Option.bind_some]
            exact ih h

end Load

/-! ## What the disk has to be like -/

/-- An `ATTR` record comes before the `n`-th. -/
def FoundBefore (v : Volume) (ino n : ℕ) : Prop := ∃ m < n, recordType v ino m = GXFS_RT "ATTR"

/-- A record of a type and size is in order where an `ATTR` record has been found or has not. -/
@[irreducible] def InOrder (type : UInt32) (size : ℕ) (found : Prop) : Prop :=
  if type = GXFS_RT "ATTR" then ¬ found ∧ size = sizeofAttrRecord
  else if type = GXFS_RT "DENT" then found
  else if type = GXFS_RT "TREE" then found ∧ size = sizeofTreeRecord
  else if type = GXFS_RT "LINK" then found
  else if type = GXFS_RT "_ACL" then found ∧ size = sizeofAclRecord
  else True

/-- The `n`-th record is one that the loader accepts. -/
structure Accepted (v : Volume) (mem : LoadMemory) (ino n : ℕ) : Prop where
  type : recordType v ino n &&& 0xFF ≠ 0
  size : 8 ≤ recordSize v ino n ∧ recordSize v ino n % 8 = 0
  room : mem.room n (recordSize v ino n) = true
  readable : Readable v ino (recordPos v ino n) (recordSize v ino n)
  order : InOrder (recordType v ino n) (recordSize v ino n) (FoundBefore v ino n)

/-- There is no `n`-th record: the chain ends, or there is an end mark. -/
def EndsAt (v : Volume) (ino n : ℕ) : Prop :=
  ChainEnds v ino (recordPos v ino n) ∨
    chainBlock v ino (recordPos v ino n / 4088) ≠ none ∧ recordType v ino n &&& 0xFF = 0

/-- After finitely many records that are accepted there is the end, or a record that is not accepted and no
`DENT` record before it. -/
def RecordsEnd (v : Volume) (mem : LoadMemory) (ino : ℕ) : Prop :=
  ∃ n, (∀ m < n, Accepted v mem ino m) ∧
    (EndsAt v ino n ∨ ¬ Accepted v mem ino n ∧ ∀ m < n, recordType v ino m ≠ GXFS_RT "DENT")

/-- What a call is to do: it returns, and leaves the entries alone if it fails. -/
def LoadsSafely (v : Volume) (mem : LoadMemory) (inode : Inode) : Prop :=
  ∃ fuel done inode', Load.gxfsLoadInode v mem fuel inode = some (done, inode') ∧
    (done = false → inode'.dents = inode.dents)

/-! ## One record -/

section

variable {v : Volume} {mem : LoadMemory} {ino n fuel : ℕ} {r r' : InodeReader} {load load' : InodeLoad}
  {inode : Inode} {buffer record behind : List UInt8} {rdonly : Bool}

theorem strdup_isSome {l : List UInt8} (h : (l.takeWhile (· ≠ 0)).length < 2 ^ 30) :
    ∃ s, strdup l = some s := ⟨_, dif_pos h⟩

/-- The string at an offset of a buffer ends at the zero byte behind the record, or lies behind it. -/
theorem strdup_behind (off : ℕ) (hrecord : record.length < 2 ^ 30) (hbehind : behind.length < 2 ^ 30) :
    ∃ s, strdup ((record ++ 0 :: behind).drop off) = some s := by
  apply strdup_isSome
  by_cases hin : off ≤ record.length
  · rw [List.drop_append_of_le_length hin]
    have hle : ((record.drop off ++ 0 :: behind).takeWhile (· ≠ 0)).length ≤ (record.drop off).length := by
      generalize record.drop off = l
      induction l with
      | nil => simp
      | cons c l ih =>
        rw [List.cons_append, List.takeWhile_cons]
        split
        · exact Nat.succ_le_succ ih
        · exact Nat.zero_le _
    rw [List.length_drop] at hle
    omega
  · have hle := (List.takeWhile_sublist (· ≠ 0) (l := (record ++ 0 :: behind).drop off)).length_le
    rw [List.length_drop, List.length_append, List.length_cons] at hle
    omega

/-- A record is processed if and only if it is in order; a `DENT` record appends an entry, and no other does. -/
theorem loadRecord_inOrder (load : InodeLoad) (rdonly : Bool) (h17 : ∃ s, strdup (buffer.drop 17) = some s)
    (h8 : ∃ s, strdup (buffer.drop 8) = some s) :
    (InOrder (get32 0 buffer) (leAt 4 4 buffer) (load.foundAttr = true) ∧
      ∃ load', loadRecord rdonly load buffer = some load' ∧
        (load'.foundAttr = true ↔ load.foundAttr = true ∨ get32 0 buffer = GXFS_RT "ATTR") ∧
          ∃ extra, load'.inode.dents = load.inode.dents ++ extra ∧
            (extra = [] ↔ get32 0 buffer ≠ GXFS_RT "DENT")) ∨
      ¬ InOrder (get32 0 buffer) (leAt 4 4 buffer) (load.foundAttr = true) ∧
        loadRecord rdonly load buffer = none := by
  obtain ⟨name, hname⟩ := h17
  obtain ⟨target, htarget⟩ := h8
  unfold loadRecord InOrder
  simp only [vfsAppendDentry, hname, htarget, Option.map_some]
  by_cases hattr : get32 0 buffer = GXFS_RT "ATTR"
  · rw [if_pos hattr, if_pos hattr]
    by_cases hgood : ¬ load.foundAttr = true ∧ leAt 4 4 buffer = sizeofAttrRecord
    · left
      rw [if_neg hgood.1, if_neg (not_not.2 hgood.2)]
      refine ⟨hgood, _, rfl, iff_of_true rfl (Or.inr hattr), [], (List.append_nil _).symm, iff_of_true rfl ?_⟩
      rw [hattr]
      decide
    · right
      refine ⟨hgood, ?_⟩
      split_ifs with hfound hsize
      · rfl
      · rfl
      · exact absurd ⟨hfound, not_not.1 hsize⟩ hgood
  rw [if_neg hattr, if_neg hattr]
  by_cases hdent : get32 0 buffer = GXFS_RT "DENT"
  · rw [if_pos hdent, if_pos hdent]
    by_cases hfound : load.foundAttr = true
    · left
      rw [if_neg (not_not.2 hfound)]
      exact ⟨hfound, _, rfl, iff_of_true hfound (Or.inl hfound), _, rfl,
        iff_of_false (List.cons_ne_nil _ _) (not_not.2 hdent)⟩
    · exact Or.inr ⟨hfound, if_pos hfound⟩
  rw [if_neg hdent, if_neg hdent]
  -- the other records append nothing
  have hkeep : ∀ l, ∃ extra : List Dentry, l = l ++ extra ∧ (extra = [] ↔ get32 0 buffer ≠ GXFS_RT "DENT") :=
    fun l => ⟨[], (List.append_nil l).symm, iff_of_true rfl hdent⟩
  by_cases htree : get32 0 buffer = GXFS_RT "TREE"
  · rw [if_pos htree, if_pos htree]
    by_cases hgood : load.foundAttr = true ∧ leAt 4 4 buffer = sizeofTreeRecord
    · left
      rw [if_neg (not_not.2 hgood.1), if_neg (not_not.2 hgood.2)]
      exact ⟨hgood, _, rfl, iff_of_true hgood.1 (Or.inl hgood.1), hkeep _⟩
    · right
      refine ⟨hgood, ?_⟩
      split_ifs with hfound hsize
      · rfl
      · exact absurd ⟨hfound, not_not.1 hsize⟩ hgood
      · rfl
  rw [if_neg htree, if_neg htree]
  by_cases hlink : get32 0 buffer = GXFS_RT "LINK"
  · rw [if_pos hlink, if_pos hlink]
    by_cases hfound : load.foundAttr = true
    · left
      rw [if_neg (not_not.2 hfound)]
      exact ⟨hfound, _, rfl, iff_of_true hfound (Or.inl hfound), hkeep _⟩
    · exact Or.inr ⟨hfound, if_pos hfound⟩
  rw [if_neg hlink, if_neg hlink]
  by_cases hacl : get32 0 buffer = GXFS_RT "_ACL"
  · rw [if_pos hacl, if_pos hacl]
    by_cases hgood : load.foundAttr = true ∧ leAt 4 4 buffer = sizeofAclRecord
    · left
      rw [if_neg (not_not.2 hgood.1), if_neg (not_not.2 hgood.2)]
      exact ⟨hgood, _, rfl, iff_of_true hgood.1 (Or.inl hgood.1), hkeep _⟩
    · right
      refine ⟨hgood, ?_⟩
      split_ifs with hfound hsize
      · rfl
      · exact absurd ⟨hfound, not_not.1 hsize⟩ hgood
      · rfl
  · rw [if_neg hacl, if_neg hacl]
    exact Or.inl ⟨trivial, load, rfl, (or_iff_left hattr).symm, hkeep _⟩

/-! ## All records -/

/-- The state of the load of `inode` before the `n`-th record. -/
structure Loading (v : Volume) (ino : ℕ) (inode : Inode) (n : ℕ) (r : InodeReader) (load : InodeLoad) :
    Prop where
  at_pos : r.At v ino (recordPos v ino n)
  pos_mod : recordPos v ino n % 8 = 0
  found_iff : load.foundAttr = true ↔ FoundBefore v ino n
  dents : ∃ extra, load.inode.dents = inode.dents ++ extra ∧
    (extra = [] ↔ ∀ m < n, recordType v ino m ≠ GXFS_RT "DENT")

theorem Loading.dents_eq_iff (h : Loading v ino inode n r load) :
    load.inode.dents = inode.dents ↔ ∀ m < n, recordType v ino m ≠ GXFS_RT "DENT" := by
  obtain ⟨extra, heq, hiff⟩ := h.dents
  rw [heq, ← hiff]
  exact List.append_right_eq_self

theorem foundBefore_succ : FoundBefore v ino (n + 1) ↔
    FoundBefore v ino n ∨ recordType v ino n = GXFS_RT "ATTR" := by
  constructor
  · rintro ⟨m, hm, htype⟩
    rcases Nat.lt_succ_iff_lt_or_eq.1 hm with hm | rfl
    · exact Or.inl ⟨m, hm, htype⟩
    · exact Or.inr htype
  · rintro (⟨m, hm, htype⟩ | htype)
    · exact ⟨m, Nat.lt_succ_of_lt hm, htype⟩
    · exact ⟨n, Nat.lt_succ_self n, htype⟩

/-- The header of a record that has been read is the one in the stream. -/
theorem get32_slice (v : Volume) (ino p : ℕ) (behind : List UInt8) {size : ℕ} (hsize : 8 ≤ size) :
    get32 0 ((stream v ino).slice p size ++ 0 :: behind) = streamType v ino p ∧
      leAt 4 4 ((stream v ino).slice p size ++ 0 :: behind) = streamSize v ino p := by
  rw [get32, leAt_slice (by omega), leAt_slice (by omega)]
  exact ⟨rfl, rfl⟩

/-- One round of the loop. -/
theorem Loading.round (h : Loading v ino inode n r load) (mem : LoadMemory) :
    (EndsAt v ino n ∧ ∃ blocks, Load.loadRound v mem n r load = .inl (.ok (load, blocks))) ∨
      (Accepted v mem ino n ∧ ∃ r' load', Loading v ino inode (n + 1) r' load' ∧
        Load.loadRound v mem n r load = .inr (r', load')) ∨
          ¬ EndsAt v ino n ∧ ¬ Accepted v mem ino n ∧
            Load.loadRound v mem n r load = .inl (.error load.inode) := by
  rw [Load.loadRound]
  by_cases hend : ChainEnds v ino (recordPos v ino n)
  · exact Or.inl ⟨Or.inl hend, r.blocks, if_pos (h.at_pos.ends_iff.2 hend)⟩
  rw [if_neg fun hr => hend (h.at_pos.ends_iff.1 hr)]
  rcases h.at_pos.moveOn with ⟨b, r₁, hb, hmove, hat, hbuf, hpos⟩ | ⟨hnone, hmove⟩
  swap
  · -- the follow-up block cannot be read
    refine Or.inr (Or.inr ⟨?_, fun hacc => ?_, by rw [hmove]⟩)
    · rintro (he | ⟨hb, -⟩)
      · exact hend he
      · exact hb hnone
    · have hsize := hacc.size
      exact hacc.readable _ le_rfl (by omega) hnone
  obtain ⟨htype, hsize⟩ := InodeReader.At.header hb hbuf hpos h.pos_mod
  rw [← recordType] at htype
  rw [← recordSize] at hsize
  simp only [hmove, htype, hsize]
  by_cases hzero : recordType v ino n &&& 0xFF = 0
  · refine Or.inl ⟨Or.inr ⟨?_, hzero⟩, r₁.blocks, if_pos hzero⟩
    rw [hb]
    exact Option.some_ne_none b
  have hno : ¬ EndsAt v ino n := by
    rintro (he | ⟨-, hz⟩)
    · exact hend he
    · exact hzero hz
  rw [if_neg hzero]
  have hand : recordSize v ino n &&& 7 = recordSize v ino n % 8 := Nat.and_two_pow_sub_one_eq_mod _ 3
  by_cases hbad : recordSize v ino n < 8 ∨ recordSize v ino n &&& 7 ≠ 0
  · refine Or.inr (Or.inr ⟨hno, fun hacc => ?_, if_pos hbad⟩)
    have hsize := hacc.size
    omega
  rw [if_neg hbad]
  cases hroom : mem.room n (recordSize v ino n) with
  | false =>
    refine Or.inr (Or.inr ⟨hno, fun hacc => ?_, if_pos rfl⟩)
    rw [hacc.room] at hroom
    cases hroom
  | true =>
    rw [if_neg (by decide)]
    rcases hat.readInodeChunks (le_refl (recordSize v ino n)) with ⟨hread, r₂, heq, hat₂⟩ | ⟨hread, heq⟩
    swap
    · exact Or.inr (Or.inr ⟨hno, fun hacc => hread hacc.readable, by rw [heq]⟩)
    rw [heq]
    simp only
    obtain ⟨hget, hgetSize⟩ := get32_slice v ino (recordPos v ino n) (mem.behind n)
      (show 8 ≤ recordSize v ino n by omega)
    have hlen : ((stream v ino).slice (recordPos v ino n) (recordSize v ino n)).length < 2 ^ 30 := by
      rw [length_slice]
      exact mem.room_lt n _ hroom
    rcases loadRecord_inOrder load v.rdonly (strdup_behind 17 hlen (mem.behind_lt n))
      (strdup_behind 8 hlen (mem.behind_lt n)) with
        ⟨horder, load', hload, hfound, extra, hextra, hiff⟩ | ⟨horder, hload⟩
    · rw [hget, hgetSize, h.found_iff] at horder
      rw [hget] at hfound hiff
      refine Or.inr (Or.inl ⟨⟨hzero, by omega, hroom, hread, horder⟩, r₂, load', ⟨hat₂, ?_, ?_, ?_⟩, ?_⟩)
      · have hmod := h.pos_mod
        have hsum : recordPos v ino (n + 1) = recordPos v ino n + recordSize v ino n := rfl
        omega
      · rw [hfound, foundBefore_succ, h.found_iff]
        exact Iff.rfl
      · obtain ⟨extra₀, hextra₀, hiff₀⟩ := h.dents
        refine ⟨extra₀ ++ extra, by rw [hextra, hextra₀, List.append_assoc], ?_⟩
        rw [List.append_eq_nil_iff, hiff₀, hiff]
        constructor
        · rintro ⟨hbefore, hhere⟩ m hm
          rcases Nat.lt_succ_iff_lt_or_eq.1 hm with hm | rfl
          · exact hbefore m hm
          · exact hhere
        · intro hall
          exact ⟨fun m hm => hall m (Nat.lt_succ_of_lt hm), hall n (Nat.lt_succ_self n)⟩
      · rw [hload]
    · rw [hget, hgetSize, h.found_iff] at horder
      exact Or.inr (Or.inr ⟨hno, fun hacc => horder hacc.order, by rw [hload]⟩)

/-- At the end of the records there is none that is accepted. -/
theorem EndsAt.not_accepted (h : EndsAt v ino n) : ¬ Accepted v mem ino n := by
  intro hacc
  have hsize := hacc.size
  rcases h with hend | ⟨-, hzero⟩
  · exact hacc.readable _ le_rfl (by omega) hend.block_eq
  · exact hacc.type hzero

/-- A load that has come to the `n`-th record ends with what the records that are left have to give. -/
theorem Loading.loop (h : Loading v ino inode n r load) (hbefore : ∀ m < n, Accepted v mem ino m)
    {result : Load.Result} (hrun : Load.loadRecords v mem fuel n r load = some result) :
    ∃ k load' r', Loading v ino inode k r' load' ∧ (∀ m < k, Accepted v mem ino m) ∧
      ((EndsAt v ino k ∧ ∃ blocks, result = .ok (load', blocks)) ∨
        ¬ EndsAt v ino k ∧ ¬ Accepted v mem ino k ∧ result = .error load'.inode) := by
  induction fuel generalizing n r load with
  | zero => cases hrun
  | succ fuel ih =>
    rw [Load.loadRecords] at hrun
    rcases h.round mem with ⟨hends, blocks, hround⟩ | ⟨hacc, r', load', hnext, hround⟩ | ⟨hno, hacc, hround⟩
    · rw [hround] at hrun
      obtain rfl := Option.some.inj hrun
      exact ⟨n, load, r, h, hbefore, Or.inl ⟨hends, blocks, rfl⟩⟩
    · rw [hround] at hrun
      apply ih hnext _ hrun
      intro m hm
      rcases Nat.lt_succ_iff_lt_or_eq.1 hm with hm | rfl
      · exact hbefore m hm
      · exact hacc
    · rw [hround] at hrun
      obtain rfl := Option.some.inj hrun
      exact ⟨n, load, r, h, hbefore, Or.inr ⟨hno, hacc, rfl⟩⟩

/-- A load comes to the first record that is not accepted. -/
theorem Loading.returns {k : ℕ} (hacc : ∀ m < k, Accepted v mem ino m) (hstop : ¬ Accepted v mem ino k)
    (hle : n ≤ k) (h : Loading v ino inode n r load) :
    ∃ fuel result, Load.loadRecords v mem fuel n r load = some result := by
  induction hgap : k - n generalizing n r load with
  | zero =>
    obtain rfl : n = k := by omega
    rcases h.round mem with ⟨-, blocks, hround⟩ | ⟨hyes, -⟩ | ⟨-, -, hround⟩
    · exact ⟨1, _, by rw [Load.loadRecords, hround]⟩
    · exact absurd hyes hstop
    · exact ⟨1, _, by rw [Load.loadRecords, hround]⟩
  | succ gap ih =>
    have hyes := hacc n (by omega)
    rcases h.round mem with ⟨hends, -⟩ | ⟨-, r', load', hnext, hround⟩ | ⟨-, hno, -⟩
    · exact absurd hyes hends.not_accepted
    · obtain ⟨fuel, result, hrun⟩ := ih (by omega) hnext (by omega)
      exact ⟨fuel + 1, result, by rw [Load.loadRecords, hround]; exact hrun⟩
    · exact absurd hyes hno

/-! ## The call -/

/-- The load begins at the first record. -/
theorem Loading.start (hio : v.ioOk inode.ino.toNat = true) : Loading v inode.ino.toNat inode 0
    ⟨v.disk inode.ino.toNat, 8, [inode.ino.toNat]⟩ ⟨inode, false, 0, 0⟩ where
  at_pos := by
    refine ⟨0, inode.ino.toNat, if_pos hio, rfl, le_rfl, ?_, rfl⟩
    show 8 ≤ 4096
    decide
  pos_mod := rfl
  found_iff := iff_of_false Bool.false_ne_true fun ⟨m, hm, _⟩ => absurd hm (Nat.not_lt_zero m)
  dents := ⟨[], (List.append_nil _).symm, iff_of_true rfl fun m hm => absurd hm (Nat.not_lt_zero m)⟩

/-- When the first block can be read, the call is the loop. -/
theorem Load.gxfsLoadInode_eq (mem : LoadMemory) (fuel : ℕ) (hio : v.ioOk inode.ino.toNat = true) :
    Load.gxfsLoadInode v mem fuel inode = (Load.loadRecords v mem fuel 0
      ⟨v.disk inode.ino.toNat, 8, [inode.ino.toNat]⟩ ⟨inode, false, 0, 0⟩).map fun
        | .error inode => (false, inode)
        | .ok (load, blocks) =>
          if load.foundAttr then (true, { load.inode with blocks }) else (false, load.inode) := by
  rw [Load.gxfsLoadInode, gxfsReadBlock, hio, if_pos rfl]

/-- An accepted `DENT` record has an `ATTR` record before it. -/
theorem Accepted.found (h : Accepted v mem ino n) (htype : recordType v ino n = GXFS_RT "DENT") :
    FoundBefore v ino n := by
  have horder := h.order
  unfold InOrder at horder
  rw [htype, if_neg (by decide), if_pos rfl] at horder
  exact horder

/-- A load returns, and leaves the entries alone if it fails, if and only if its records come to an end, or to
one that is not accepted before there is an entry. -/
theorem gxfsLoadInode_safe_iff (v : Volume) (mem : LoadMemory) (inode : Inode) :
    LoadsSafely v mem inode ↔ RecordsEnd v mem inode.ino.toNat := by
  cases hio : v.ioOk inode.ino.toNat with
  | false =>
    -- the first block cannot be read
    refine iff_of_true ⟨0, false, inode, ?_, fun _ => rfl⟩ ⟨0, fun m hm => absurd hm (Nat.not_lt_zero m), ?_⟩
    · rw [Load.gxfsLoadInode, gxfsReadBlock, hio, if_neg Bool.false_ne_true]
    · refine Or.inr ⟨fun hacc => ?_, fun m hm => absurd hm (Nat.not_lt_zero m)⟩
      have hsize := hacc.size
      apply hacc.readable 0 (Nat.zero_le _) (by omega)
      rw [Nat.zero_div, chainBlock, hio, if_neg Bool.false_ne_true]
  | true =>
    have hstart := Loading.start hio
    have hcall := fun fuel => Load.gxfsLoadInode_eq mem fuel hio
    have hnone : ∀ m < 0, Accepted v mem inode.ino.toNat m := fun m hm => absurd hm (Nat.not_lt_zero m)
    constructor
    · rintro ⟨fuel, done, inode', hload, hdents⟩
      rw [hcall] at hload
      obtain ⟨result, hrun, heq⟩ := Option.map_eq_some_iff.1 hload
      obtain ⟨k, load, r, hat, hbefore, hcase⟩ := hstart.loop hnone hrun
      refine ⟨k, hbefore, hcase.imp (fun h => h.1) ?_⟩
      rintro ⟨-, hacc, rfl⟩
      obtain ⟨rfl, rfl⟩ := Prod.mk.inj heq
      exact ⟨hacc, hat.dents_eq_iff.1 (hdents rfl)⟩
    · rintro ⟨k, hbefore, hor⟩
      have hstop : ¬ Accepted v mem inode.ino.toNat k := hor.elim (fun h => h.not_accepted) fun h => h.1
      obtain ⟨fuel, result, hrun⟩ := hstart.returns hbefore hstop (Nat.zero_le k)
      obtain ⟨k', load, r, hat, hbefore', hcase⟩ := hstart.loop hnone hrun
      -- there is one first record that is not accepted
      obtain rfl : k' = k := by
        rcases Nat.lt_trichotomy k' k with hlt | heq | hlt
        · exact absurd (hbefore k' hlt) (hcase.elim (fun h => h.1.not_accepted) fun h => h.2.1)
        · exact heq
        · exact absurd (hbefore' k hlt) hstop
      rcases hcase with ⟨-, blocks, rfl⟩ | ⟨hends, -, rfl⟩
      · cases hfound : load.foundAttr with
        | true =>
          refine ⟨fuel, true, { load.inode with blocks }, ?_, fun hf => by cases hf⟩
          rw [hcall, hrun, Option.map_some]
          simp only [hfound, if_true]
        | false =>
          refine ⟨fuel, false, load.inode, ?_, fun _ => hat.dents_eq_iff.2 fun m hm hdent => ?_⟩
          · rw [hcall, hrun, Option.map_some]
            simp only [hfound, Bool.false_eq_true, if_false]
          · obtain ⟨m', hm', htype⟩ := (hbefore m hm).found hdent
            rw [hat.found_iff.2 ⟨m', hm'.trans hm, htype⟩] at hfound
            cases hfound
      · refine ⟨fuel, false, load.inode, ?_, fun _ => hat.dents_eq_iff.2 (hor.resolve_left hends).2⟩
        rw [hcall, hrun, Option.map_some]

end

/-! ## A circle -/

/-- A block that is linked to itself, block 9, and holds one record of an unknown type. -/
def circleBlock : Bytes := fun o =>
  if o = 0 then 9 else if o = 8 then 0x58 else if o = 12 then 0xF8 else if o = 13 then 0x0F else 0

def circleVolume : Volume :=
  gxfsOpenRoot (mkgxfsBody 0x1000000 0) 0 (Function.update (fun _ _ => 0) 9 circleBlock) fun _ => true

/-- A heap with room for everything that fits. -/
def emptyHeap : LoadMemory where
  room _ size := size < 2 ^ 30
  behind _ := []
  room_lt _ _ h := of_decide_eq_true h
  behind_lt _ := by decide

theorem circleVolume_disk : circleVolume.disk 9 = circleBlock := by
  rw [circleVolume, gxfsOpenRoot, gxfsFlushSuperblock_disk _ (show 9 ≠ 0 by decide)]
  exact Function.update_self 9 circleBlock fun _ _ => 0

theorem chainBlock_circle (k : ℕ) : chainBlock circleVolume 9 k = some 9 := by
  have hio : ∀ b, circleVolume.ioOk b = true := by simp [circleVolume, gxfsOpenRoot]
  have hnext : blockNext circleVolume 9 = 9 := by
    rw [blockNext, circleVolume_disk]
    decide
  induction k with
  | zero => exact if_pos (hio 9)
  | succ k ih => rw [chainBlock_succ ih, hnext, if_pos ⟨by decide, hio 9⟩]

theorem stream_circle {n k : ℕ} (hk : k < 4088) :
    stream circleVolume 9 (4088 * n + k) = circleBlock (8 + k) := by
  rw [stream_eq (chainBlock_circle _), circleVolume_disk]
  congr 2
  omega

theorem recordPos_circle (n : ℕ) : recordPos circleVolume 9 n = 4088 * n := by
  induction n with
  | zero => rfl
  | succ n ih =>
    have hsize : streamSize circleVolume 9 (4088 * n) = 4088 := by
      have hbytes : ∀ k < 4, stream circleVolume 9 (4088 * n + 4 + k) = circleBlock (12 + k) := by
        intro k hk
        rw [Nat.add_assoc, stream_circle (by omega), ← Nat.add_assoc]
      rw [streamSize, leNat_congr hbytes]
      decide
    rw [recordPos, ih, hsize]
    omega

theorem accepted_circle (n : ℕ) : Accepted circleVolume emptyHeap 9 n := by
  have hpos := recordPos_circle n
  have htype : recordType circleVolume 9 n = 0x58 := by
    have hbytes : ∀ k < 4, stream circleVolume 9 (4088 * n + k) = circleBlock (8 + k) := by
      intro k hk
      exact stream_circle (by omega)
    rw [recordType, streamType, hpos, leNat_congr hbytes]
    decide
  have hsize : recordSize circleVolume 9 n = 4088 := by
    have hnext : recordPos circleVolume 9 (n + 1) =
      recordPos circleVolume 9 n + recordSize circleVolume 9 n := rfl
    rw [recordPos_circle, recordPos_circle] at hnext
    omega
  constructor
  · rw [htype]
    decide
  · rw [hsize]
    decide
  · rw [hsize]
    exact decide_eq_true (show 4088 < 2 ^ 30 by decide)
  · intro q _ _
    rw [chainBlock_circle]
    exact Option.some_ne_none 9
  · have hattr : ¬ (0x58 : UInt32) = GXFS_RT "ATTR" := by decide
    have hdent : ¬ (0x58 : UInt32) = GXFS_RT "DENT" := by decide
    have htree : ¬ (0x58 : UInt32) = GXFS_RT "TREE" := by decide
    have hlink : ¬ (0x58 : UInt32) = GXFS_RT "LINK" := by decide
    have hacl : ¬ (0x58 : UInt32) = GXFS_RT "_ACL" := by decide
    rw [htype]
    unfold InOrder
    simp only [hattr, hdent, htree, hlink, hacl, if_false]

/-- The loader goes round for ever. -/
theorem gxfsLoadInode_not_safe : ¬ LoadsSafely circleVolume emptyHeap (newInode 9) := by
  rintro ⟨fuel, done, inode', hload, -⟩
  have hio : circleVolume.ioOk (newInode 9).ino.toNat = true := by simp [circleVolume, gxfsOpenRoot]
  rw [Load.gxfsLoadInode_eq emptyHeap fuel hio] at hload
  obtain ⟨result, hrun, -⟩ := Option.map_eq_some_iff.1 hload
  obtain ⟨k, load, r, -, -, hcase⟩ :=
    (Loading.start hio).loop (fun m hm => absurd hm (Nat.not_lt_zero m)) hrun
  have hno := hcase.elim (fun h => h.1.not_accepted) fun h => h.2.1
  exact hno (accepted_circle k)

end Glidix.Gxfs
