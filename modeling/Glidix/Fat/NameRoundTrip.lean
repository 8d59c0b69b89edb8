import Glidix.Fat.LongName

/-!
# Names survive being written and read

The entries for a long name, read in the order in which they were written, give the name back, wherever its
terminator falls.  No name runs over a buffer.
-/

namespace Glidix.Fat

open Bytes

variable {name longname bunch acc shortname : List UInt8} {sum : UInt8} {n m k seqno : ℕ}

/-! ## Short names -/

/-- A byte of a short name. -/
def IsShort (c : UInt8) : Prop := c = BLANK ∨ inShortname c = true

theorem shortLoop_spec (name : List UInt8) (putidx : ℕ) (seenDot : Bool) (shortname : List UInt8)
    (hlen : shortname.length = 11) (hput : putidx ≤ 11) (hdot : seenDot = false → putidx ≤ 8)
    (hall : ∀ c ∈ shortname, IsShort c) :
    ∃ result, shortLoop name putidx seenDot shortname = some result ∧ result.length = 11 ∧
      ∀ c ∈ result, IsShort c := by
  induction name generalizing putidx seenDot shortname with
  | nil => exact ⟨shortname, rfl, hlen, hall⟩
  | cons c name ih =>
    rw [shortLoop]
    dsimp only
    split_ifs with h₁ h₂ h₃ h₄ h₅ h₆
    · exact ih putidx seenDot shortname hlen hput hdot hall
    · exact ih 8 true shortname hlen (by decide) nofun hall
    · exact ih putidx seenDot shortname hlen hput hdot hall
    · exact ih putidx seenDot shortname hlen hput hdot hall
    · exact ⟨shortname, rfl, hlen, hall⟩
    · refine ih (putidx + 1) seenDot _ (by rw [List.length_set, hlen]) (by omega) (fun h => ?_) ?_
      · have hle := hdot h
        have hne : putidx ≠ 8 := fun hp => h₄ ⟨hp, h⟩
        omega
      · intro d hd
        rcases List.mem_or_eq_of_mem_set hd with hd | rfl
        · exact hall d hd
        · exact Or.inr (by simpa using h₃)
    · omega

/-- A short name has 11 bytes, and it does not start like an unused entry or like `.`. -/
theorem shortName_spec (name : List UInt8) :
    ∃ shortname, shortName name = some shortname ∧ shortname.length = 11 ∧
      ∀ c ∈ shortname.head?, c ≠ 0 ∧ c ≠ 0xE5 ∧ c ≠ DOT := by
  obtain ⟨result, hresult, hlen, hall⟩ :=
    shortLoop_spec name 0 false (List.replicate 11 BLANK) (by decide) (by decide) (fun _ => by decide)
      fun c hc => Or.inl (List.eq_of_mem_replicate hc)
  rw [shortName, hresult, Option.map_some]
  split_ifs with hblank
  · refine ⟨UNKNOWN_DAT, rfl, rfl, ?_⟩
    intro c hc
    obtain rfl : 0x55 = c := Option.some.inj hc
    decide
  · refine ⟨result, rfl, hlen, ?_⟩
    intro c hc
    rcases hall c (List.mem_of_mem_head? hc) with rfl | hshort
    · exact absurd hc hblank
    · refine ⟨?_, ?_, ?_⟩ <;> rintro rfl <;> exact absurd hshort (by decide)

/-! ## Entries for long names -/

/-- A name of printable characters. -/
structure ValidName (name : List UInt8) : Prop where
  nonempty : name ≠ []
  length_le : name.length ≤ 253
  printable : ∀ c ∈ name, 0x20 ≤ c ∧ c ≤ 0x7E
  noSlash : 0x2F ∉ name
  noDots : name ≠ [DOT] ∧ name ≠ [DOT, DOT]

/-- The characters of a name with its end marks. -/
def marked (name : List UInt8) : List ℕ := name.map UInt8.toNat ++ [0, 0xFFFF]

theorem longName_eq (hname : ValidName name) : longName name = some (marked name) := by
  have hmap : (name.map fun c => if 0x80 ≤ c then 0x3F else c.toNat) = name.map UInt8.toNat := by
    refine List.map_congr_left fun c hc => if_neg ?_
    have hle := (hname.printable c hc).2
    rw [UInt8.le_iff_toNat_le] at hle ⊢
    have h₁ : UInt8.toNat 0x7E = 126 := rfl
    have h₂ : UInt8.toNat 0x80 = 128 := rfl
    omega
  have hlen := hname.length_le
  rw [longName, List.take_of_length_le hlen, hmap]
  exact if_pos (by simp [LONGNAME_SIZE]; omega)

theorem length_marked (name : List UInt8) : (marked name).length = name.length + 2 := by
  simp [marked]

theorem marked_lt (c : ℕ) (hc : c ∈ marked name) : c < 2 ^ 16 := by
  rcases List.mem_append.1 hc with hc | hc
  · obtain ⟨d, -, rfl⟩ := List.mem_map.1 hc
    exact Nat.lt_trans d.toNat_lt (by decide)
  · have hpair : c = 0 ∨ c = 0xFFFF := by simpa using hc
    rcases hpair with rfl | rfl <;> decide

/-- What is read of an entry is what was put into it. -/
theorem longEntry_spec (seqno : ℕ) {bunch : List ℕ} (hlen : bunch.length = 13) (hlt : ∀ c ∈ bunch, c < 2 ^ 16)
    (sum : UInt8) :
    longChars (longEntry seqno bunch sum) = bunch ∧ leAt 0 1 (longEntry seqno bunch sum) = seqno % 256 ∧
      leAt 11 1 (longEntry seqno bunch sum) = FAT_ATTR_LFN.toNat := by
  match bunch, hlen with
  | [b₀, b₁, b₂, b₃, b₄, b₅, b₆, b₇, b₈, b₉, b₁₀, b₁₁, b₁₂], _ =>
    have hpack : longEntry seqno [b₀, b₁, b₂, b₃, b₄, b₅, b₆, b₇, b₈, b₉, b₁₀, b₁₁, b₁₂] sum =
        pack [(1, seqno), (2, b₀), (2, b₁), (2, b₂), (2, b₃), (2, b₄), (1, FAT_ATTR_LFN.toNat), (1, 0),
          (1, sum.toNat), (2, b₅), (2, b₆), (2, b₇), (2, b₈), (2, b₉), (2, b₁₀), (2, 0), (2, b₁₁), (2, b₁₂)] ++
          [] := (List.append_nil _).symm
    have hmod : ∀ c ∈ [b₀, b₁, b₂, b₃, b₄, b₅, b₆, b₇, b₈, b₉, b₁₀, b₁₁, b₁₂], c % 256 ^ 2 = c :=
      fun c hc => Nat.mod_eq_of_lt (hlt c hc)
    simp only [List.forall_mem_cons] at hmod
    rw [hpack]
    simp (disch := decide) only [longChars, List.range_succ, List.range_zero, List.nil_append, List.map_cons,
      List.map_nil, Nat.reduceMul, Nat.reduceAdd, leAt_pack_skip, Nat.reduceSub, leAt_pack_here, hmod,
      List.cons_append]
    exact ⟨trivial, rfl, rfl⟩

theorem leAt_one (k : ℕ) (ent : List UInt8) : leAt k 1 ent = (ent.getD k 0).toNat := by
  simp [leAt, leNat]

/-- The byte of an entry that tells what it is for, and its first byte. -/
structure IsLong (ent : List UInt8) : Prop where
  attr : ent.getD 11 0 = FAT_ATTR_LFN
  first : ent.getD 0 0 ≠ 0 ∧ ent.getD 0 0 ≠ 0xE5 ∧ ent.getD 0 0 ≠ DOT

theorem isLong_longEntry {bunch : List ℕ} (hlen : bunch.length = 13) (hlt : ∀ c ∈ bunch, c < 2 ^ 16)
    (sum : UInt8) (hseqno : seqno % 256 ≠ 0 ∧ seqno % 256 ≠ 0xE5 ∧ seqno % 256 ≠ 0x2E) :
    IsLong (longEntry seqno bunch sum) := by
  obtain ⟨-, hfirst, hattr⟩ := longEntry_spec seqno hlen hlt sum
  rw [leAt_one] at hfirst hattr
  refine ⟨UInt8.toNat_inj.1 hattr, ?_, ?_, ?_⟩ <;> intro h <;> rw [h] at hfirst
  · exact hseqno.1 hfirst.symm
  · exact hseqno.2.1 hfirst.symm
  · exact hseqno.2.2 hfirst.symm

/-! ## Reading a name piece by piece -/

theorem convChar_toNat {c : UInt8} (hc : 0x20 ≤ c ∧ c ≤ 0x7E) : convChar c.toNat = c ∧ c ≠ 0 := by
  have hlow := UInt8.le_iff_toNat_le.1 hc.1
  have hhigh := UInt8.le_iff_toNat_le.1 hc.2
  have h₁ : UInt8.toNat 0x20 = 32 := rfl
  have h₂ : UInt8.toNat 0x7E = 126 := rfl
  constructor
  · rw [convChar, if_neg (by omega), if_neg (by omega)]
    exact UInt8.ofNat_toNat
  · rintro rfl
    simp at hlow

/-- The characters of a name up to its end. -/
theorem takeWhile_marked {name : List UInt8} (hname : ∀ c ∈ name, 0x20 ≤ c ∧ c ≤ 0x7E) (l : List ℕ)
    (hl : ∀ c ∈ l.head?, convChar c = 0) :
    ((name.map UInt8.toNat ++ l).map convChar).takeWhile (· ≠ 0) = name := by
  induction name with
  | nil =>
    cases l with
    | nil => rfl
    | cons c l => exact List.takeWhile_cons_of_neg (by simp [hl c rfl])
  | cons c name ih =>
    obtain ⟨hconv, hne⟩ := convChar_toNat (hname c List.mem_cons_self)
    rw [List.map_cons, List.cons_append, List.map_cons, hconv, List.takeWhile_cons_of_pos (by simpa using hne),
      ih fun d hd => hname d (List.mem_cons_of_mem _ hd)]

/-- A bunch of a name gives its characters; the bunch may end with the name or behind it. -/
theorem convName_bunch (hname : ValidName name) (sum : UInt8) {pad : ℕ}
    (hlen : ((marked name).drop m).length ≤ 13 → ((marked name).drop m).length + pad = 13)
    (hpad : 13 < ((marked name).drop m).length → pad = 0) :
    convName (longEntry seqno (((marked name).drop m).take 13 ++ List.replicate pad 0xFFFF) sum) =
      (name.drop m).take 13 := by
  have hbunch : (((marked name).drop m).take 13 ++ List.replicate pad 0xFFFF).length = 13 := by
    rw [List.length_append, List.length_take, List.length_replicate]
    by_cases h : ((marked name).drop m).length ≤ 13
    · have := hlen h
      omega
    · have := hpad (by omega)
      omega
  have hlt : ∀ c ∈ ((marked name).drop m).take 13 ++ List.replicate pad 0xFFFF, c < 2 ^ 16 := by
    intro c hc
    rcases List.mem_append.1 hc with hc | hc
    · exact marked_lt c (List.mem_of_mem_drop (List.mem_of_mem_take hc))
    · rw [List.eq_of_mem_replicate hc]
      decide
  rw [convName, (longEntry_spec seqno hbunch hlt sum).1]
  -- the bunch is the characters of the name and then nothing or an end mark
  have hsplit : ∃ l, ((marked name).drop m).take 13 ++ List.replicate pad 0xFFFF =
      ((name.drop m).take 13).map UInt8.toNat ++ l ∧ ∀ c ∈ l.head?, convChar c = 0 := by
    have hffff : ∀ n, ∀ c ∈ (List.replicate n 0xFFFF).head?, convChar c = 0 := by
      intro n c hc
      rw [List.eq_of_mem_replicate (List.mem_of_head? hc)]
      rfl
    rcases Nat.lt_or_ge m name.length with hm | hm
    · have hdrop : (marked name).drop m = (name.drop m).map UInt8.toNat ++ [0, 0xFFFF] := by
        rw [marked, List.drop_append_of_le_length (by rw [List.length_map]; omega), List.map_drop]
      rw [hdrop, List.take_append, List.map_take, List.append_assoc]
      refine ⟨_, rfl, ?_⟩
      rw [List.length_map]
      cases h : 13 - (name.drop m).length with
      | zero =>
        have hlong : 13 < ((marked name).drop m).length := by
          rw [hdrop, List.length_append, List.length_map]
          simp only [List.length_cons, List.length_nil]
          omega
        rw [hpad hlong]
        exact nofun
      | succ k =>
        intro c hc
        obtain rfl : 0 = c := by simpa using hc
        rfl
    · have hnil : name.drop m = [] := List.drop_eq_nil_of_le hm
      rw [hnil]
      refine ⟨_, rfl, ?_⟩
      have hdrop : (marked name).drop m = [0, 0xFFFF].drop (m - name.length) := by
        have hmap : (name.map UInt8.toNat).drop m = [] :=
          List.drop_eq_nil_of_le (by rw [List.length_map]; exact hm)
        rw [marked, List.drop_append, hmap, List.length_map, List.nil_append]
      rw [hdrop]
      intro c hc
      match h : m - name.length with
      | 0 =>
        rw [h] at hc
        obtain rfl : 0 = c := by simpa using hc
        rfl
      | 1 =>
        rw [h] at hc
        obtain rfl : 0xFFFF = c := by simpa using hc
        rfl
      | k + 2 =>
        rw [h] at hc
        have hnone : [0, 0xFFFF].drop (k + 2) = ([] : List ℕ) := List.drop_eq_nil_of_le (by simp)
        rw [hnone] at hc
        exact hffff _ c hc
  obtain ⟨l, hl, hhead⟩ := hsplit
  rw [hl]
  exact takeWhile_marked (fun c hc => hname.printable c (List.mem_of_mem_drop (List.mem_of_mem_take hc))) l hhead

theorem seqno_spec : ∀ k < 21, (0 < k → k % 256 ≠ 0 ∧ k % 256 ≠ 0xE5 ∧ k % 256 ≠ 0x2E ∧ k % 256 &&& 0x40 = 0) ∧
    (0x40 ||| k) % 256 ≠ 0 ∧ (0x40 ||| k) % 256 ≠ 0xE5 ∧ (0x40 ||| k) % 256 ≠ 0x2E ∧
      (0x40 ||| k) % 256 &&& 0x40 ≠ 0 := by decide

/-- A bunch in the middle of a name. -/
theorem convName_full (hname : ValidName name) (seqno : ℕ) (sum : UInt8) (hm : m + 13 ≤ (marked name).length) :
    convName (longEntry seqno (((marked name).drop m).take 13) sum) = (name.drop m).take 13 := by
  have hlen : ((marked name).drop m).length = (marked name).length - m := List.length_drop
  have h := @convName_bunch name m seqno hname sum 0 (by omega) fun _ => rfl
  rwa [List.replicate_zero, List.append_nil] at h

theorem isLong_full (hname : ValidName name) (sum : UInt8) (hn : (n + 1) * 13 ≤ (marked name).length)
    (isFirst : Bool) :
    IsLong (longEntry (if isFirst then 0x40 ||| (n + 1) else n + 1) (((marked name).drop (n * 13)).take 13) sum) := by
  have hlen := hname.length_le
  rw [length_marked] at hn
  have hbunch : (((marked name).drop (n * 13)).take 13).length = 13 := by
    rw [List.length_take, List.length_drop, length_marked]
    omega
  have hlt : ∀ c ∈ ((marked name).drop (n * 13)).take 13, c < 2 ^ 16 := fun c hc =>
    marked_lt c (List.mem_of_mem_drop (List.mem_of_mem_take hc))
  obtain ⟨hk, hfirst⟩ := seqno_spec (n + 1) (by omega)
  apply isLong_longEntry hbunch hlt
  split_ifs
  · exact ⟨hfirst.1, hfirst.2.1, hfirst.2.2.1⟩
  · have hk := hk (Nat.succ_pos n)
    exact ⟨hk.1, hk.2.1, hk.2.2.1⟩

theorem fullEntries_isLong (hname : ValidName name) (sum : UInt8) (isFirst : Bool)
    (hn : n * 13 ≤ (marked name).length) :
    ∀ ent ∈ fullEntries (marked name) sum n isFirst, IsLong ent := by
  induction n generalizing isFirst with
  | zero => exact nofun
  | succ n ih =>
    intro ent hent
    rcases List.mem_cons.1 hent with rfl | hent
    · exact isLong_full hname sum hn isFirst
    · exact ih false (by omega) ent hent

/-- The piece of a full bunch goes before what was read. -/
theorem addPiece_full (hname : ValidName name) (sum : UInt8) (hn : (n + 1) * 13 ≤ (marked name).length) :
    addPiece (name.drop ((n + 1) * 13)) (longEntry (n + 1) (((marked name).drop (n * 13)).take 13) sum) =
      name.drop (n * 13) := by
  have hlen := hname.length_le
  have hmarked := length_marked name
  have hbunch : (((marked name).drop (n * 13)).take 13).length = 13 := by
    rw [List.length_take, List.length_drop]
    omega
  have hlt : ∀ c ∈ ((marked name).drop (n * 13)).take 13, c < 2 ^ 16 := fun c hc =>
    marked_lt c (List.mem_of_mem_drop (List.mem_of_mem_take hc))
  have hseqno := (longEntry_spec (n + 1) hbunch hlt sum).2.1
  have hk := (seqno_spec (n + 1) (by omega)).1 (Nat.succ_pos n)
  have hsplit : (name.drop (n * 13)).take 13 ++ name.drop ((n + 1) * 13) = name.drop (n * 13) := by
    rw [show (n + 1) * 13 = n * 13 + 13 by omega, ← List.drop_drop, List.take_append_drop]
  unfold addPiece
  dsimp only
  rw [hseqno, if_neg (not_not.2 hk.2.2.2), convName_full hname (n + 1) sum (by omega), hsplit, if_pos]
  rw [List.length_take, List.length_drop, List.length_drop]
  omega

/-- The entries for full bunches, read from the last bunch on. -/
theorem foldl_fullEntries (hname : ValidName name) (sum : UInt8) (hn : n * 13 ≤ (marked name).length) :
    (fullEntries (marked name) sum n false).foldl addPiece (name.drop (n * 13)) = name := by
  induction n with
  | zero => rfl
  | succ n ih =>
    rw [fullEntries, List.foldl_cons, if_neg Bool.false_ne_true, addPiece_full hname sum hn]
    exact ih (by omega)

/-- The first entry of a name starts it anew. -/
theorem addPiece_first {bunch : List ℕ} (hlen : bunch.length = 13) (hlt : ∀ c ∈ bunch, c < 2 ^ 16) (sum : UInt8)
    (hk : k < 21) (acc : List UInt8) :
    addPiece acc (longEntry (0x40 ||| k) bunch sum) = convName (longEntry (0x40 ||| k) bunch sum) := by
  have hseqno := (longEntry_spec (0x40 ||| k) hlen hlt sum).2.1
  have hconv : (convName (longEntry (0x40 ||| k) bunch sum)).length ≤ 13 := by
    refine (List.takeWhile_prefix _).length_le.trans ?_
    rw [List.length_map, (longEntry_spec (0x40 ||| k) hlen hlt sum).1, hlen]
  unfold addPiece
  dsimp only
  rw [hseqno, if_pos (seqno_spec k hk).2.2.2.2, List.append_nil, if_pos]
  rw [List.length_nil]
  omega

/-- The entries for a name are entries for long names, and give it back. -/
theorem longEntries_spec (hname : ValidName name) (sum : UInt8) (acc : List UInt8) :
    (∀ ent ∈ longEntries (marked name) sum, IsLong ent) ∧
      (longEntries (marked name) sum).foldl addPiece acc = name := by
  have hle := hname.length_le
  have hmarked := length_marked name
  have hdiv := Nat.div_add_mod (marked name).length 13
  have hmod := Nat.mod_lt (marked name).length (show 0 < 13 by decide)
  set n := (marked name).length / 13 with hn
  unfold longEntries
  dsimp only
  rw [← hn]
  split_ifs with hleft
  · have hdrop : ((marked name).drop (n * 13)).length = (marked name).length % 13 := by
      rw [List.length_drop]
      omega
    have hbunch : ((marked name).drop (n * 13) ++
        List.replicate (13 - (marked name).length % 13) 0xFFFF).length = 13 := by
      rw [List.length_append, List.length_replicate, hdrop]
      omega
    have hlt : ∀ c ∈ (marked name).drop (n * 13) ++ List.replicate (13 - (marked name).length % 13) 0xFFFF,
        c < 2 ^ 16 := by
      intro c hc
      rcases List.mem_append.1 hc with hc | hc
      · exact marked_lt c (List.mem_of_mem_drop hc)
      · rw [List.eq_of_mem_replicate hc]
        decide
    obtain ⟨-, hfirst⟩ := seqno_spec (n + 1) (by omega)
    constructor
    · intro ent hent
      rcases List.mem_cons.1 hent with rfl | hent
      · exact isLong_longEntry hbunch hlt sum ⟨hfirst.1, hfirst.2.1, hfirst.2.2.1⟩
      · exact fullEntries_isLong hname sum false (by omega) ent hent
    · have hconv := @convName_bunch name (n * 13) (0x40 ||| (n + 1)) hname sum (13 - (marked name).length % 13)
        (by omega) (by omega)
      rw [List.take_of_length_le (by omega), List.take_of_length_le (by rw [List.length_drop]; omega)] at hconv
      rw [List.foldl_cons, addPiece_first hbunch hlt sum (by omega), hconv]
      exact foldl_fullEntries hname sum (by omega)
  · obtain ⟨k, hk⟩ : ∃ k, n = k + 1 := ⟨n - 1, by omega⟩
    rw [hk]
    refine ⟨fullEntries_isLong hname sum true (by omega), ?_⟩
    have hbunch : (((marked name).drop (k * 13)).take 13).length = 13 := by
      rw [List.length_take, List.length_drop]
      omega
    have hlt : ∀ c ∈ ((marked name).drop (k * 13)).take 13, c < 2 ^ 16 := fun c hc =>
      marked_lt c (List.mem_of_mem_drop (List.mem_of_mem_take hc))
    rw [fullEntries, List.foldl_cons, if_pos rfl, addPiece_first hbunch hlt sum (by omega),
      convName_full hname _ sum (by omega), List.take_of_length_le (by rw [List.length_drop]; omega)]
    exact foldl_fullEntries hname sum (by omega)

end Glidix.Fat
