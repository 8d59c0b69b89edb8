import Glidix.Libc.Strtok
import Glidix.Libc.Numeral
import Glidix.Libc.Scanf

/-!
# The tables of users and groups

`userctl` keeps the users, their groups and their password hashes in three files.  A line is an entry with its
fields between colons, and the files are read with `strtok`.  A table that is written and read again is the same
table, as long as every field can stand in a line.
-/

namespace Glidix.Users

open Libc Libc.Strtok

abbrev COLON : UInt8 := 0x3A
abbrev COMMA : UInt8 := 0x2C
abbrev NEWLINE : UInt8 := 0x0A

/-- The field `ex`. -/
abbrev EX : List UInt8 := [0x78]

structure PasswdEntry where
  username : List UInt8
  ex : List UInt8
  uid : UInt16
  gid : UInt16
  info : List UInt8
  home : List UInt8
  shell : List UInt8
  deriving DecidableEq

structure GroupEntry where
  groupname : List UInt8
  ex : List UInt8
  gid : UInt16
  members : List UInt8
  deriving DecidableEq

structure ShadowEntry where
  username : List UInt8
  hash : List UInt8
  resv0 : List UInt8
  resv1 : List UInt8
  resv2 : List UInt8
  resv3 : List UInt8
  resv4 : List UInt8
  resv5 : List UInt8
  deriving DecidableEq

/-! ## Writing -/

/-- `%hu`. -/
def printHu (n : UInt16) : List UInt8 := numeral 10 n.toNat

def PasswdEntry.fields (ent : PasswdEntry) : List (List UInt8) :=
  [ent.username, EX, printHu ent.uid, printHu ent.gid, ent.info, ent.home, ent.shell]

def GroupEntry.fields (ent : GroupEntry) : List (List UInt8) :=
  [ent.groupname, EX, printHu ent.gid, ent.members]

def ShadowEntry.fields (ent : ShadowEntry) : List (List UInt8) :=
  [ent.username, ent.hash, ent.resv0, ent.resv1, ent.resv2, ent.resv3, ent.resv4, ent.resv5]

/-- The lines of a table: the fields of an entry with colons between them. -/
def printTable {α : Type} (fields : α → List (List UInt8)) (table : List α) : List UInt8 :=
  table.flatMap fun ent => [COLON].intercalate (fields ent) ++ [NEWLINE]

def printPasswd (table : List PasswdEntry) : List UInt8 := printTable PasswdEntry.fields table
def printGroup (table : List GroupEntry) : List UInt8 := printTable GroupEntry.fields table
def printShadow (table : List ShadowEntry) : List UInt8 := printTable ShadowEntry.fields table

/-! ## Reading -/

/-- What `parseLine` stores for a token: a number is stored when `sscanf` stores one. -/
inductive Field
  | s (text : List UInt8)
  | i (value : Option UInt16)
  deriving DecidableEq

/-- `sscanf` with `%hu`. -/
def scanHu (tok : List UInt8) : Option UInt16 :=
  (scanInteger .h .u tok).stored.map fun value => UInt16.ofNat value.toNat

def FMT_PASSWD : List Char := ['s', 's', 'i', 'i', 's', 's', 's']
def FMT_GROUP : List Char := ['s', 's', 'i', 's']
def FMT_SHADOW : List Char := ['s', 's', 's', 's', 's', 's', 's', 's']

/-- The loop of `parseLine`.  Tokens that the format has no letter for are ignored. -/
def parseFields : List Char → List (List UInt8) → Option (List Field)
  | _, [] => some []
  | [], _ :: _ => some []
  | type :: format, tok :: toks =>
    if type = 's' then (parseFields format toks).map (Field.s tok :: ·)
    else if type = 'i' then (parseFields format toks).map (Field.i (scanHu tok) :: ·)
    else none

section

variable {format : List Char} {tok : List UInt8} {toks : List (List UInt8)}

theorem parseFields_nil : parseFields [] [] = some [] := rfl

theorem parseFields_s :
    parseFields ('s' :: format) (tok :: toks) = (parseFields format toks).map (Field.s tok :: ·) := rfl

theorem parseFields_i :
    parseFields ('i' :: format) (tok :: toks) = (parseFields format toks).map (Field.i (scanHu tok) :: ·) := rfl

end

def parseLine (line : List UInt8) (format : List Char) : Option (List Field) :=
  parseFields format (tokens [COLON] line)

/-- The entry, when every member of it has been written. -/
def PasswdEntry.ofFields : List Field → Option PasswdEntry
  | [.s username, .s ex, .i (some uid), .i (some gid), .s info, .s home, .s shell] =>
    some ⟨username, ex, uid, gid, info, home, shell⟩
  | _ => none

def GroupEntry.ofFields : List Field → Option GroupEntry
  | [.s groupname, .s ex, .i (some gid), .s members] => some ⟨groupname, ex, gid, members⟩
  | _ => none

def ShadowEntry.ofFields : List Field → Option ShadowEntry
  | [.s username, .s hash, .s r0, .s r1, .s r2, .s r3, .s r4, .s r5] =>
    some ⟨username, hash, r0, r1, r2, r3, r4, r5⟩
  | _ => none

/-- The table of a file.  There is none when an entry has a member that no token was left for: that member keeps
what `malloc` returned. -/
def loadTable {α : Type} (ofFields : List Field → Option α) (data : List UInt8) (format : List Char) :
    Option (List α) :=
  (tokens [NEWLINE] (data.takeWhile (· ≠ 0))).mapM fun line => (parseLine line format).bind ofFields

/-! ## A field that is written and read -/

/-- A text that can stand between two colons of a line. -/
structure Text (t : List UInt8) : Prop where
  ne_nil : t ≠ []
  colon : COLON ∉ t
  newline : NEWLINE ∉ t
  nul : 0 ∉ t

instance (t : List UInt8) : Decidable (Text t) :=
  decidable_of_iff (t ≠ [] ∧ COLON ∉ t ∧ NEWLINE ∉ t ∧ 0 ∉ t)
    ⟨fun h => ⟨h.1, h.2.1, h.2.2.1, h.2.2.2⟩, fun h => ⟨h.ne_nil, h.colon, h.newline, h.nul⟩⟩

theorem Text.append {t u : List UInt8} (ht : Text t) (hu : Text u) : Text (t ++ u) where
  ne_nil h := ht.ne_nil (List.append_eq_nil_iff.1 h).1
  colon h := (List.mem_append.1 h).elim ht.colon hu.colon
  newline h := (List.mem_append.1 h).elim ht.newline hu.newline
  nul h := (List.mem_append.1 h).elim ht.nul hu.nul

theorem text_EX : Text EX := by decide

theorem isDigit_of_mem {n : ℕ} {c : UInt8} (h : c ∈ numeral 10 n) : isDigit 10 c = true :=
  isDigit_of_mem_numeral (by omega) (by omega) c h

theorem text_printHu (n : UInt16) : Text (printHu n) where
  ne_nil := numeral_ne_nil
  colon h := absurd (isDigit_of_mem h) (by decide)
  newline h := absurd (isDigit_of_mem h) (by decide)
  nul h := absurd (isDigit_of_mem h) (by decide)

/-- No blank is a digit, and no digit looks like the end of the string. -/
theorem digit_plain (c : UInt8) (h : isDigit 10 c = true) : isspace c = false ∧ c ≠ 0xFF := by
  refine ⟨?_, ?_⟩
  · by_contra hspace
    have hmem : c ∈ [(0x20 : UInt8), 0x09, 0x0B, 0x0C, 0x0D, 0x0A] :=
      List.contains_iff_mem.1 (Bool.of_not_eq_false hspace)
    simp only [List.mem_cons, List.not_mem_nil, or_false] at hmem
    rcases hmem with rfl | rfl | rfl | rfl | rfl | rfl <;> exact absurd h (by decide)
  · rintro rfl
    exact absurd h (by decide)

theorem takeWhile_numeral (n : ℕ) : (numeral 10 n).takeWhile (isDigit 10) = numeral 10 n :=
  List.takeWhile_eq_self_iff.2 fun _ h => isDigit_of_mem h

theorem scan_numeral {n : ℕ} (hn : n ≤ 65535) :
    (scanInteger .h .u (numeral 10 n)).stored = some (n : ℤ) := by
  have hvalue : valueFrom 10 0 ((numeral 10 n).takeWhile (isDigit 10)) = n := by
    rw [takeWhile_numeral]
    exact valueFrom_numeral (by omega) (by omega) n
  have hdigits : digitsLoop 65535 10 0 (numeral 10 n) = _ := digitsLoop_of_le (by omega) (hvalue.trans_le hn)
  rw [hvalue] at hdigits
  obtain ⟨c, s, hs⟩ := List.exists_cons_of_ne_nil (numeral_ne_nil : numeral 10 n ≠ [])
  have hc := digit_plain c (isDigit_of_mem (n := n) (hs ▸ List.mem_cons_self))
  rw [hs] at hdigits
  have hscan : scanDigits 65535 10 false 0 (c :: s) = _ := scanDigits_eq false
  rw [hdigits] at hscan
  have hskip : skipSpaces (c :: s) = (some c, s) := by
    rw [skipSpaces, if_neg (by simp [hc.1]), instrGetc, if_neg hc.2]
  have hconv : (scanInteger .h .u (c :: s)).stored =
    some ((scanDigits 65535 10 false 0 (c :: s)).2.1 : ℤ) := by
    have hspec : scanInteger .h .u (c :: s) = uintConv 65535 (c :: s) 10 := rfl
    rw [hspec, uintConv, hskip]
    rfl
  rw [hs, hconv, hscan]
  rfl

theorem scanHu_printHu (n : UInt16) : scanHu (printHu n) = some n := by
  have hn : n.toNat ≤ 65535 := Nat.le_of_lt_succ n.toNat_lt
  rw [scanHu, printHu, scan_numeral hn]
  simp

/-! ## A table that is written and read -/

/-- The fields of the entry can stand in a line, and are those of the entry again when they are parsed. -/
structure ReadsBack {α : Type} (fields : α → List (List UInt8)) (ofFields : List Field → Option α)
    (format : List Char) (ent : α) : Prop where
  ne_nil : fields ent ≠ []
  text : ∀ t ∈ fields ent, Text t
  parse : (parseFields format (fields ent)).bind ofFields = some ent

section

variable {α : Type} {fields : α → List (List UInt8)} {ofFields : List Field → Option α} {format : List Char}
  {ent : α} {table : List α} {x c : UInt8} {ts : List (List UInt8)}

theorem mem_intercalate (h : x ∈ [c].intercalate ts) : x = c ∨ ∃ t ∈ ts, x ∈ t := by
  induction ts with
  | nil => simp at h
  | cons t ts ih =>
    cases ts with
    | nil => exact .inr ⟨t, List.mem_cons_self, by simpa using h⟩
    | cons u us =>
      rw [List.intercalate_cons_cons, List.append_assoc, List.mem_append, List.mem_append,
        List.mem_singleton] at h
      rcases h with h | h | h
      · exact .inr ⟨t, List.mem_cons_self, h⟩
      · exact .inl h
      · obtain h | ⟨v, hv, hx⟩ := ih h
        · exact .inl h
        · exact .inr ⟨v, List.mem_cons_of_mem t hv, hx⟩

/-- The line of an entry: its tokens are the fields, and it is one line. -/
theorem ReadsBack.line (h : ReadsBack fields ofFields format ent) :
    tokens [COLON] ([COLON].intercalate (fields ent)) = fields ent ∧ [COLON].intercalate (fields ent) ≠ [] ∧
      NEWLINE ∉ [COLON].intercalate (fields ent) ∧ 0 ∉ [COLON].intercalate (fields ent) := by
  have htokens := tokens_intercalate fun t ht => ⟨(h.text t ht).ne_nil, (h.text t ht).colon⟩
  refine ⟨htokens, ?_, ?_, ?_⟩
  · intro hnil
    rw [hnil, tokens_eq] at htokens
    exact h.ne_nil (htokens.symm.trans (by simp [pieces]))
  · intro hmem
    obtain hx | ⟨t, ht, hx⟩ := mem_intercalate hmem
    · exact absurd hx (by decide)
    · exact (h.text t ht).newline hx
  · intro hmem
    obtain hx | ⟨t, ht, hx⟩ := mem_intercalate hmem
    · exact absurd hx (by decide)
    · exact (h.text t ht).nul hx

theorem ReadsBack.parseLine (h : ReadsBack fields ofFields format ent) :
    (parseLine ([COLON].intercalate (fields ent)) format).bind ofFields = some ent := by
  rw [Users.parseLine, h.line.1]
  exact h.parse

theorem printTable_eq (table : List α) : printTable fields table =
    (table.map fun ent => [COLON].intercalate (fields ent)).flatMap (· ++ [NEWLINE]) := by
  rw [printTable, List.flatMap_map]

theorem mapM_parseLine (h : ∀ ent ∈ table, ReadsBack fields ofFields format ent) :
    (table.mapM fun ent => (Users.parseLine ([COLON].intercalate (fields ent)) format).bind ofFields) = some table := by
  induction table with
  | nil => rfl
  | cons ent table ih =>
    rw [List.mapM_cons, (h ent List.mem_cons_self).parseLine,
      ih fun e he => h e (List.mem_cons_of_mem ent he)]
    rfl

theorem loadTable_printTable (h : ∀ ent ∈ table, ReadsBack fields ofFields format ent) :
    loadTable ofFields (printTable fields table) format = some table := by
  have hnul : (printTable fields table).takeWhile (· ≠ 0) = printTable fields table := by
    refine List.takeWhile_eq_self_iff.2 fun x hx => ?_
    obtain ⟨ent, hent, hx⟩ := List.mem_flatMap.1 hx
    rw [List.mem_append, List.mem_singleton] at hx
    rw [decide_eq_true_iff]
    rintro rfl
    rcases hx with hx | hx
    · exact (h ent hent).line.2.2.2 hx
    · exact absurd hx (by decide)
  have hlines : tokens [NEWLINE] (printTable fields table) =
      table.map fun ent => [COLON].intercalate (fields ent) := by
    rw [printTable_eq]
    refine tokens_lines fun t ht => ?_
    obtain ⟨ent, hent, rfl⟩ := List.mem_map.1 ht
    exact ⟨(h ent hent).line.2.1, (h ent hent).line.2.2.1⟩
  rw [loadTable, hnul, hlines, List.mapM_map]
  exact mapM_parseLine h

end

/-! ## The three tables -/

/-- An entry whose fields can stand in a line. -/
structure PasswdEntry.Proper (ent : PasswdEntry) : Prop where
  username : Text ent.username
  ex : ent.ex = EX
  info : Text ent.info
  home : Text ent.home
  shell : Text ent.shell

structure GroupEntry.Proper (ent : GroupEntry) : Prop where
  groupname : Text ent.groupname
  ex : ent.ex = EX
  members : Text ent.members

def ShadowEntry.Proper (ent : ShadowEntry) : Prop := ∀ t ∈ ent.fields, Text t

theorem PasswdEntry.Proper.readsBack {ent : PasswdEntry} (h : ent.Proper) :
    ReadsBack PasswdEntry.fields PasswdEntry.ofFields FMT_PASSWD ent where
  ne_nil := by simp [PasswdEntry.fields]
  text t ht := by
    simp only [PasswdEntry.fields, List.mem_cons, List.not_mem_nil, or_false] at ht
    rcases ht with rfl | rfl | rfl | rfl | rfl | rfl | rfl
    exacts [h.username, text_EX, text_printHu _, text_printHu _, h.info, h.home, h.shell]
  parse := by
    simp [PasswdEntry.fields, FMT_PASSWD, parseFields_nil, parseFields_s, parseFields_i, scanHu_printHu,
      PasswdEntry.ofFields, ← h.ex]

theorem GroupEntry.Proper.readsBack {ent : GroupEntry} (h : ent.Proper) :
    ReadsBack GroupEntry.fields GroupEntry.ofFields FMT_GROUP ent where
  ne_nil := by simp [GroupEntry.fields]
  text t ht := by
    simp only [GroupEntry.fields, List.mem_cons, List.not_mem_nil, or_false] at ht
    rcases ht with rfl | rfl | rfl | rfl
    exacts [h.groupname, text_EX, text_printHu _, h.members]
  parse := by
    simp [GroupEntry.fields, FMT_GROUP, parseFields_nil, parseFields_s, parseFields_i, scanHu_printHu,
      GroupEntry.ofFields, ← h.ex]

theorem ShadowEntry.Proper.readsBack {ent : ShadowEntry} (h : ent.Proper) :
    ReadsBack ShadowEntry.fields ShadowEntry.ofFields FMT_SHADOW ent where
  ne_nil := by simp [ShadowEntry.fields]
  text := h
  parse := by
    simp [ShadowEntry.fields, FMT_SHADOW, parseFields_nil, parseFields_s, ShadowEntry.ofFields]

structure Tables where
  passwd : List PasswdEntry
  group : List GroupEntry
  shadow : List ShadowEntry
  deriving DecidableEq

/-- The contents of `/etc/passwd`, `/etc/group` and `/etc/shadow`. -/
structure Files where
  passwd : List UInt8
  group : List UInt8
  shadow : List UInt8
  deriving DecidableEq

/-- `save`. -/
def Tables.save (t : Tables) : Files := ⟨printPasswd t.passwd, printGroup t.group, printShadow t.shadow⟩

/-- The tables `main` starts with.  An empty table is taken for one that could not be read. -/
def Files.load (f : Files) : Option Tables :=
  match loadTable PasswdEntry.ofFields f.passwd FMT_PASSWD, loadTable GroupEntry.ofFields f.group FMT_GROUP,
    loadTable ShadowEntry.ofFields f.shadow FMT_SHADOW with
  | some passwd, some group, some shadow =>
    if passwd = [] ∨ group = [] ∨ shadow = [] then none else some ⟨passwd, group, shadow⟩
  | _, _, _ => none

structure Tables.Proper (t : Tables) : Prop where
  passwd : ∀ ent ∈ t.passwd, ent.Proper
  group : ∀ ent ∈ t.group, ent.Proper
  shadow : ∀ ent ∈ t.shadow, ent.Proper

theorem Tables.Proper.load_save {t : Tables} (h : t.Proper) :
    t.save.load = if t.passwd = [] ∨ t.group = [] ∨ t.shadow = [] then none else some t := by
  simp only [Files.load, Tables.save, printPasswd, printGroup, printShadow,
    loadTable_printTable fun ent he => (h.passwd ent he).readsBack,
    loadTable_printTable fun ent he => (h.group ent he).readsBack,
    loadTable_printTable fun ent he => (h.shadow ent he).readsBack]

/-! ## Files that can be read -/

def PasswdEntry.normal (ent : PasswdEntry) : PasswdEntry := { ent with ex := EX }
def GroupEntry.normal (ent : GroupEntry) : GroupEntry := { ent with ex := EX }

/-- The tables with the field that is never written as it was read. -/
def Tables.normal (t : Tables) : Tables :=
  ⟨t.passwd.map PasswdEntry.normal, t.group.map GroupEntry.normal, t.shadow⟩

section

variable {α β : Type} {ofFields : List Field → Option α} {format : List Char} {toks : List (List UInt8)}
  {fs : List Field} {t line data : List UInt8} {table : List α} {ent : α}

theorem mem_of_mapM {f : α → Option β} {l : List α} {r : List β} (h : l.mapM f = some r) {y : β}
    (hy : y ∈ r) :
    ∃ x ∈ l, f x = some y := by
  induction l generalizing r with
  | nil =>
    cases h
    exact absurd hy List.not_mem_nil
  | cons x l ih =>
    rw [List.mapM_cons] at h
    obtain ⟨b, hb, h⟩ := Option.bind_eq_some_iff.1 h
    obtain ⟨bs, hbs, h⟩ := Option.bind_eq_some_iff.1 h
    cases h
    rcases List.mem_cons.1 hy with rfl | hy
    · exact ⟨x, List.mem_cons_self, hb⟩
    · obtain ⟨z, hz, hfz⟩ := ih hbs hy
      exact ⟨z, List.mem_cons_of_mem x hz, hfz⟩

/-- The texts of an entry are tokens of its line. -/
theorem mem_of_parseFields (h : parseFields format toks = some fs) (hs : Field.s t ∈ fs) : t ∈ toks := by
  induction format generalizing toks fs with
  | nil =>
    cases toks <;>
    · cases h
      exact absurd hs List.not_mem_nil
  | cons type format ih =>
    cases toks with
    | nil =>
      cases h
      exact absurd hs List.not_mem_nil
    | cons tok toks =>
      rw [parseFields] at h
      split_ifs at h
      · obtain ⟨rest, hrest, rfl⟩ := Option.map_eq_some_iff.1 h
        rcases List.mem_cons.1 hs with heq | hs
        · cases heq
          exact List.mem_cons_self
        · exact List.mem_cons_of_mem tok (ih hrest hs)
      · obtain ⟨rest, hrest, rfl⟩ := Option.map_eq_some_iff.1 h
        rcases List.mem_cons.1 hs with heq | hs
        · cases heq
        · exact List.mem_cons_of_mem tok (ih hrest hs)

/-- The tokens of a line can stand in a line. -/
theorem text_of_line (hline : line ∈ tokens [NEWLINE] (data.takeWhile (· ≠ 0)))
    (ht : t ∈ tokens [COLON] line) :
    Text t := by
  rw [tokens_eq] at hline ht
  obtain ⟨-, hline⟩ := mem_pieces hline
  obtain ⟨hne, ht⟩ := mem_pieces ht
  refine ⟨hne, fun h => (ht _ h).2 (List.mem_singleton.2 rfl), fun h => ?_, fun h => ?_⟩
  · exact (hline _ (ht _ h).1).2 (List.mem_singleton.2 rfl)
  · have hnul := List.mem_takeWhile_imp (hline _ (ht _ h).1).1
    simp at hnul

theorem mem_loadTable (h : loadTable ofFields data format = some table) (hent : ent ∈ table) :
    ∃ fs, ofFields fs = some ent ∧ ∀ t, Field.s t ∈ fs → Text t := by
  obtain ⟨line, hline, hparse⟩ := mem_of_mapM h hent
  obtain ⟨fs, hfs, hof⟩ := Option.bind_eq_some_iff.1 hparse
  exact ⟨fs, hof, fun t ht => text_of_line hline (mem_of_parseFields hfs ht)⟩

end

theorem PasswdEntry.proper_normal {fs : List Field} {ent : PasswdEntry}
    (h : PasswdEntry.ofFields fs = some ent)
    (ht : ∀ t, Field.s t ∈ fs → Text t) : ent.normal.Proper := by
  unfold PasswdEntry.ofFields at h
  split at h
  · cases h
    refine ⟨ht _ ?_, rfl, ht _ ?_, ht _ ?_, ht _ ?_⟩ <;> simp [PasswdEntry.normal]
  · cases h

theorem GroupEntry.proper_normal {fs : List Field} {ent : GroupEntry} (h : GroupEntry.ofFields fs = some ent)
    (ht : ∀ t, Field.s t ∈ fs → Text t) : ent.normal.Proper := by
  unfold GroupEntry.ofFields at h
  split at h
  · cases h
    refine ⟨ht _ ?_, rfl, ht _ ?_⟩ <;> simp [GroupEntry.normal]
  · cases h

theorem ShadowEntry.proper_of_fields {fs : List Field} {ent : ShadowEntry}
    (h : ShadowEntry.ofFields fs = some ent)
    (ht : ∀ t, Field.s t ∈ fs → Text t) : ent.Proper := by
  unfold ShadowEntry.ofFields at h
  split at h
  · cases h
    intro t hmem
    simp only [ShadowEntry.fields, List.mem_cons, List.not_mem_nil, or_false] at hmem
    exact ht t (by simpa using hmem)
  · cases h

theorem Files.load_eq_some {f : Files} {t : Tables} (h : f.load = some t) :
    loadTable PasswdEntry.ofFields f.passwd FMT_PASSWD = some t.passwd ∧
      loadTable GroupEntry.ofFields f.group FMT_GROUP = some t.group ∧
      loadTable ShadowEntry.ofFields f.shadow FMT_SHADOW = some t.shadow ∧
      ¬(t.passwd = [] ∨ t.group = [] ∨ t.shadow = []) := by
  unfold Files.load at h
  split at h
  · rename_i hpasswd hgroup hshadow
    split_ifs at h with hempty
    cases h
    exact ⟨hpasswd, hgroup, hshadow, hempty⟩
  · cases h

theorem Files.proper_normal {f : Files} {t : Tables} (h : f.load = some t) : t.normal.Proper := by
  obtain ⟨hpasswd, hgroup, hshadow, -⟩ := f.load_eq_some h
  refine ⟨fun ent hent => ?_, fun ent hent => ?_, fun ent hent => ?_⟩
  · obtain ⟨e, he, rfl⟩ := List.mem_map.1 hent
    obtain ⟨fs, hfs, htext⟩ := mem_loadTable hpasswd he
    exact PasswdEntry.proper_normal hfs htext
  · obtain ⟨e, he, rfl⟩ := List.mem_map.1 hent
    obtain ⟨fs, hfs, htext⟩ := mem_loadTable hgroup he
    exact GroupEntry.proper_normal hfs htext
  · obtain ⟨fs, hfs, htext⟩ := mem_loadTable hshadow hent
    exact ShadowEntry.proper_of_fields hfs htext

theorem Tables.save_normal (t : Tables) : t.normal.save = t.save := by
  simp only [Tables.save, Tables.normal, printPasswd, printGroup, printTable, List.flatMap_map]
  rfl

/-- Whatever files can be read, the files that are saved are read as the same tables, and saved again as the same
bytes. -/
theorem load_save_of_load (f : Files) (t : Tables) (h : f.load = some t) :
    t.save.load = some t.normal ∧ t.normal.save = t.save := by
  refine ⟨?_, t.save_normal⟩
  obtain ⟨-, -, -, hempty⟩ := f.load_eq_some h
  rw [← t.save_normal, (f.proper_normal h).load_save, if_neg]
  simpa [Tables.normal] using hempty

theorem load_save_of_load_guest :
    (Tables.save ⟨[⟨[0x67], EX, 7, 8, [0x67], [0x2F], [0x73]⟩], [⟨[0x67], EX, 8, [0x67]⟩],
        [⟨[0x67], [0x68], EX, EX, EX, EX, EX, EX⟩]⟩).load =
      some (Tables.normal ⟨[⟨[0x67], EX, 7, 8, [0x67], [0x2F], [0x73]⟩], [⟨[0x67], EX, 8, [0x67]⟩],
        [⟨[0x67], [0x68], EX, EX, EX, EX, EX, EX⟩]⟩) := by
  have hg : Text [0x67] := by decide
  refine (load_save_of_load _ _ ((Tables.Proper.load_save ⟨?_, ?_, ?_⟩).trans (if_neg (by decide)))).1
  · exact fun ent hent => List.mem_singleton.1 hent ▸ ⟨hg, rfl, hg, by decide, by decide⟩
  · exact fun ent hent => List.mem_singleton.1 hent ▸ ⟨hg, rfl, hg⟩
  · exact fun ent hent =>
      List.mem_singleton.1 hent ▸ by simp [ShadowEntry.Proper, ShadowEntry.fields]; decide

end Glidix.Users
