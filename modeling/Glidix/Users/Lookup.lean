import Mathlib.Data.UInt
import Glidix.Users.Runs

/-!
# The users and groups the C library finds

`getpwnam` and its relatives read the files byte by byte, and give up at the first entry that they cannot read.  The
functions look for the users and groups of the tables that `userctl` saves, and find every one as long as the fields
fit in their buffers.
-/

namespace Glidix.Users

open Libc Libc.Strtok

/-! ## Reading an entry -/

/-- The loop over a text: the bytes before `stop`, fewer than `limit`, and what is behind it. -/
def readText (stop : UInt8) (limit : ℕ) (text : List UInt8) : List UInt8 → Option (List UInt8 × List UInt8)
  | [] => none
  | c :: fp =>
    if c = stop then some (text, fp)
    else if text.length + 1 = limit then none
    else readText stop limit (text ++ [c]) fp

/-- The loop over a number of at most six digits. -/
def readNumber (numbuf : List UInt8) : List UInt8 → Option (ℕ × List UInt8)
  | [] => none
  | c :: fp =>
    if c = COLON then some ((strtoull numbuf 10).value.toNat, fp)
    else if c < 0x30 ∨ 0x39 < c then none
    else if numbuf.length + 1 = 7 then none
    else readNumber (numbuf ++ [c]) fp

def expect (byte : UInt8) : List UInt8 → Option (List UInt8)
  | [] => none
  | c :: fp => if c = byte then some fp else none

structure Passwd where
  pw_name : List UInt8
  pw_uid : ℕ
  pw_gid : ℕ
  pw_gecos : List UInt8
  pw_dir : List UInt8
  pw_shell : List UInt8
  deriving DecidableEq

structure Group where
  gr_name : List UInt8
  gr_gid : ℕ
  gr_mem : List (List UInt8)
  deriving DecidableEq

/-- `__pwnextent`. -/
def pwnextent (fp : List UInt8) : Option (Passwd × List UInt8) :=
  (readText COLON 128 [] fp).bind fun name =>
  (expect 0x78 name.2).bind fun fp =>
  (expect COLON fp).bind fun fp =>
  (readNumber [] fp).bind fun uid =>
  (readNumber [] uid.2).bind fun gid =>
  (readText COLON 256 [] gid.2).bind fun gecos =>
  (readText COLON 256 [] gecos.2).bind fun dir =>
  (readText NEWLINE 256 [] dir.2).map fun shell =>
    (⟨name.1, uid.1, gid.1, gecos.1, dir.1, shell.1⟩, shell.2)

/-- `__grpmemparse`: the members between the commas, with the one that is being read. -/
def grpmemparse (mem : List UInt8) : List UInt8 → List (List UInt8)
  | [] => [mem]
  | c :: raw => if c = COMMA then mem :: grpmemparse [] raw else grpmemparse (mem ++ [c]) raw

/-- `__grpnextent`, and `__grpmemparse` on what it read. -/
def grpnextent (fp : List UInt8) : Option (Group × List UInt8) :=
  (readText COLON 128 [] fp).bind fun name =>
  (expect 0x78 name.2).bind fun fp =>
  (expect COLON fp).bind fun fp =>
  (readNumber [] fp).bind fun gid =>
  (readText NEWLINE 2048 [] gid.2).map fun memraw =>
    (⟨name.1, gid.1, grpmemparse [] (memraw.1.takeWhile (· ≠ 0))⟩, memraw.2)

/-- The loop over the entries of a file. -/
def lookup {α : Type} (next : List UInt8 → Option (α × List UInt8)) (found : α → Bool) :
    ℕ → List UInt8 → Option α
  | 0, _ => none
  | fuel + 1, fp =>
    match next fp with
    | none => none
    | some (ent, fp) => if found ent then some ent else lookup next found fuel fp

def getpwnam (username file : List UInt8) : Option Passwd :=
  lookup pwnextent (·.pw_name.takeWhile (· ≠ 0) == username) file.length file

def getpwuid (uid : ℕ) (file : List UInt8) : Option Passwd :=
  lookup pwnextent (·.pw_uid == uid) file.length file

def getgrnam (name file : List UInt8) : Option Group :=
  lookup grpnextent (·.gr_name.takeWhile (· ≠ 0) == name) file.length file

def getgrgid (gid : ℕ) (file : List UInt8) : Option Group :=
  lookup grpnextent (·.gr_gid == gid) file.length file

/-- `nextShadowEntry`: a name and a hash.  Nothing bounds them, and the limit 0 is none. -/
def nextShadowEntry (fp : List UInt8) : Option ((List UInt8 × List UInt8) × List UInt8) :=
  (readText COLON 0 [] fp).bind fun shname =>
  (readText COLON 0 [] shname.2).bind fun passcrypt =>
  (readText NEWLINE 0 [] passcrypt.2).map fun line => ((shname.1, passcrypt.1), line.2)

def findPassword (username file : List UInt8) : Option (List UInt8) :=
  (lookup nextShadowEntry (·.1.takeWhile (· ≠ 0) == username) file.length file).map (·.2)

/-- What `getgrent` returns, up to the entry it cannot read. -/
def getgrents : ℕ → List UInt8 → List Group
  | 0, _ => []
  | fuel + 1, fp =>
    match grpnextent fp with
    | none => []
    | some (grp, fp) => grp :: getgrents fuel fp

/-- The groups that `login` finds the user in. -/
def loginGroups (username file : List UInt8) : List ℕ :=
  ((getgrents file.length file).filter fun grp => grp.gr_mem.contains username).map (·.gr_gid)

/-- What the shell of a user runs with. -/
structure Session where
  uid : ℕ
  gid : ℕ
  groups : List ℕ
  home : List UInt8
  shell : List UInt8
  deriving DecidableEq

/-- A round of `login` with a name and a password. -/
def login (crypt : List UInt8 → List UInt8 → List UInt8) (f : Files) (username password : List UInt8) :
    Option Session :=
  match getpwnam username f.passwd, findPassword username f.shadow with
  | some pwd, some passcrypt =>
    if crypt password passcrypt = passcrypt then
      some ⟨pwd.pw_uid, pwd.pw_gid, loginGroups username f.group, pwd.pw_dir, pwd.pw_shell⟩
    else none
  | _, _ => none

/-! ## Reading what was saved -/

variable {t : Tables} {stop c : UInt8} {limit n : ℕ} {text rest : List UInt8}

theorem readText_append {seen : List UInt8} (hstop : stop ∉ text)
    (hlen : seen.length + text.length < limit) :
    readText stop limit seen (text ++ stop :: rest) = some (seen ++ text, rest) := by
  induction text generalizing seen with
  | nil => simp [readText]
  | cons c text ih =>
    obtain ⟨hc, htext⟩ := not_or.1 fun h => hstop (List.mem_cons.2 h)
    rw [List.length_cons] at hlen
    rw [List.cons_append, readText, if_neg (Ne.symm hc), if_neg (by omega), ih htext (by simp; omega),
      List.append_assoc, List.singleton_append]

theorem digit_range (h : isDigit 10 c = true) : ¬(c < 0x30 ∨ 0x39 < c) := by
  obtain ⟨digit, hdigit, hlt⟩ := isDigit_iff.1 h
  intro hout
  unfold digitOf at hdigit
  split_ifs at hdigit with h1 h2 h3
  · rcases hout with hout | hout
    · exact absurd h1.1 (UInt8.not_le.2 hout)
    · exact absurd h1.2 (UInt8.not_le.2 hout)
  · have hle : 0x61 ≤ c.toNat := h2.1
    simp only [Option.some.injEq] at hdigit
    omega
  · have hle : 0x41 ≤ c.toNat := h3.1
    simp only [Option.some.injEq] at hdigit
    omega

theorem readNumber_append {seen : List UInt8} (hdigits : ∀ c ∈ text, isDigit 10 c = true)
    (hlen : seen.length + text.length < 7) :
    readNumber seen (text ++ COLON :: rest) = some ((strtoull (seen ++ text) 10).value.toNat, rest) := by
  induction text generalizing seen with
  | nil => simp [readNumber]
  | cons c text ih =>
    have hc := hdigits c List.mem_cons_self
    have hcolon : c ≠ COLON := by
      rintro rfl
      exact absurd hc (by decide)
    rw [List.length_cons] at hlen
    rw [List.cons_append, readNumber, if_neg hcolon, if_neg (digit_range hc), if_neg (by omega),
      ih (fun d hd => hdigits d (List.mem_cons_of_mem c hd)) (by simp; omega), List.append_assoc,
      List.singleton_append]

theorem strtoull_numeral (hn : n ≤ ULLONG_MAX) : (strtoull (numeral 10 n) 10).value = (n : ℤ) := by
  obtain ⟨c, s, hs⟩ := List.exists_cons_of_ne_nil (numeral_ne_nil : numeral 10 n ≠ [])
  have hc := digit_plain c (isDigit_of_mem (n := n) (hs ▸ List.mem_cons_self))
  have hblank : (numeral 10 n).dropWhile isspace = numeral 10 n := by
    rw [hs, List.dropWhile_cons_of_neg (by simp [hc.1])]
  have hvalue : valueFrom 10 0 ((numeral 10 n).takeWhile (isDigit 10)) = n := by
    rw [takeWhile_numeral]
    exact valueFrom_numeral (by omega) (by omega) n
  have hloop : digitsLoop ULLONG_MAX 10 0 (numeral 10 n) = _ :=
    digitsLoop_of_le (by decide) (hvalue.trans_le hn)
  rw [hvalue] at hloop
  rw [strtoull, strtoUnsigned, if_neg (by omega), hblank, prefixOf_of_ne (by omega)]
  dsimp only
  rw [hloop]

theorem readNumber_printHu (n : UInt16) :
    readNumber [] (printHu n ++ COLON :: rest) = some (n.toNat, rest) := by
  have hn : n.toNat < 10 ^ (4 + 1) := n.toNat_lt.trans (by decide)
  have hlen : (printHu n).length ≤ 5 := length_numeral_le hn
  have hdigits : ∀ c ∈ printHu n, isDigit 10 c = true := fun _ hc => isDigit_of_mem hc
  rw [readNumber_append hdigits (by simp; omega), List.nil_append, printHu,
    strtoull_numeral (n.toNat_lt.le.trans (by decide)), Int.toNat_natCast]

/-- Unbounded, as `login` reads. -/
theorem readText_all {seen : List UInt8} (hstop : stop ∉ text) :
    readText stop 0 seen (text ++ stop :: rest) = some (seen ++ text, rest) := by
  induction text generalizing seen with
  | nil => simp [readText]
  | cons c text ih =>
    obtain ⟨hc, htext⟩ := not_or.1 fun h => hstop (List.mem_cons.2 h)
    rw [List.cons_append, readText, if_neg (Ne.symm hc), if_neg (by omega), ih htext, List.append_assoc,
      List.singleton_append]

def PasswdEntry.found (ent : PasswdEntry) : Passwd :=
  ⟨ent.username, ent.uid.toNat, ent.gid.toNat, ent.info, ent.home, ent.shell⟩

def GroupEntry.found (ent : GroupEntry) : Group := ⟨ent.groupname, ent.gid.toNat, ent.users⟩

/-- The fields fit in the buffers they are read into. -/
structure Tables.Fits (t : Tables) : Prop where
  passwd : ∀ ent ∈ t.passwd, ent.username.length < 128 ∧ ent.info.length < 256 ∧ ent.home.length < 256 ∧
    ent.shell.length < 256
  group : ∀ g ∈ t.group, g.groupname.length < 128 ∧ g.members.length < 2048
  shadow : ∀ ent ∈ t.shadow, ent.username.length < 128 ∧ ent.hash.length < 128

theorem pwnextent_line {ent : PasswdEntry} (h : ent.Proper) (hfits : ent.username.length < 128 ∧
    ent.info.length < 256 ∧ ent.home.length < 256 ∧ ent.shell.length < 256) :
    pwnextent ([COLON].intercalate ent.fields ++ [NEWLINE] ++ rest) = some (ent.found, rest) := by
  obtain ⟨hname, hinfo, hhome, hshell⟩ := hfits
  have hline : [COLON].intercalate ent.fields ++ [NEWLINE] ++ rest =
    ent.username ++ COLON :: 0x78 :: COLON ::
      (printHu ent.uid ++ COLON :: (printHu ent.gid ++ COLON :: (ent.info ++ COLON :: (ent.home ++ COLON ::
        (ent.shell ++ NEWLINE :: rest))))) := by
    simp [PasswdEntry.fields, List.intercalate_cons_cons]
  rw [hline, pwnextent, readText_append h.username.colon (by simpa using hname), Option.bind_some]
  simp only [expect, if_true, Option.bind_some, readNumber_printHu]
  rw [readText_append h.info.colon (by simpa using hinfo), Option.bind_some,
    readText_append h.home.colon (by simpa using hhome), Option.bind_some,
    readText_append h.shell.newline (by simpa using hshell)]
  rfl

theorem grpmemparse_append {mem : List UInt8} (h : COMMA ∉ text) :
    grpmemparse mem (text ++ COMMA :: rest) = (mem ++ text) :: grpmemparse [] rest := by
  induction text generalizing mem with
  | nil => simp [grpmemparse]
  | cons c text ih =>
    obtain ⟨hc, htext⟩ := not_or.1 fun hmem => h (List.mem_cons.2 hmem)
    rw [List.cons_append, grpmemparse, if_neg (Ne.symm hc), ih htext, List.append_assoc,
      List.singleton_append]

theorem grpmemparse_last {mem : List UInt8} (h : COMMA ∉ text) : grpmemparse mem text = [mem ++ text] := by
  induction text generalizing mem with
  | nil => simp [grpmemparse]
  | cons c text ih =>
    obtain ⟨hc, htext⟩ := not_or.1 fun hmem => h (List.mem_cons.2 hmem)
    rw [grpmemparse, if_neg (Ne.symm hc), ih htext, List.append_assoc, List.singleton_append]

theorem grpmemparse_intercalate {ts : List (List UInt8)} (hne : ts ≠ []) (h : ∀ u ∈ ts, COMMA ∉ u) :
    grpmemparse [] ([COMMA].intercalate ts) = ts := by
  induction ts with
  | nil => exact absurd rfl hne
  | cons u ts ih =>
    have hu := h u List.mem_cons_self
    cases ts with
    | nil => rw [List.intercalate_singleton, grpmemparse_last hu, List.nil_append]
    | cons v ts =>
      rw [List.intercalate_cons_cons, List.append_assoc, List.singleton_append, grpmemparse_append hu,
        List.nil_append, ih (List.cons_ne_nil v ts) fun w hw => h w (List.mem_cons_of_mem u hw)]

theorem grpnextent_line {g : GroupEntry} (h : g.Proper) (hjoined : [COMMA].intercalate g.users = g.members)
    (hfits : g.groupname.length < 128 ∧ g.members.length < 2048) :
    grpnextent ([COLON].intercalate g.fields ++ [NEWLINE] ++ rest) = some (g.found, rest) := by
  obtain ⟨hname, hmembers⟩ := hfits
  have hline : [COLON].intercalate g.fields ++ [NEWLINE] ++ rest =
      g.groupname ++ COLON :: 0x78 :: COLON :: (printHu g.gid ++ COLON :: (g.members ++ NEWLINE :: rest)) := by
    simp [GroupEntry.fields, List.intercalate_cons_cons]
  have hnul : g.members.takeWhile (· ≠ 0) = g.members :=
    List.takeWhile_eq_self_iff.2 fun c hc => decide_eq_true fun heq => h.members.nul (heq ▸ hc)
  have husers : g.users ≠ [] := fun hnil => h.members.ne_nil (by rw [← hjoined, hnil]; rfl)
  have hmem : grpmemparse [] g.members = g.users := by
    rw [← hjoined]
    exact grpmemparse_intercalate husers fun u hu => (mem_users hu).2.1
  rw [hline, grpnextent, readText_append h.groupname.colon (by simpa using hname), Option.bind_some]
  simp only [expect, if_true, Option.bind_some, readNumber_printHu]
  rw [readText_append h.members.newline (by simpa using hmembers)]
  simp only [Option.map_some, List.nil_append, hnul, hmem]
  rfl

theorem nextShadowEntry_line {ent : ShadowEntry} (h : ent.Proper) :
    nextShadowEntry ([COLON].intercalate ent.fields ++ [NEWLINE] ++ rest) =
      some ((ent.username, ent.hash), rest) := by
  have hline : [COLON].intercalate ent.fields ++ [NEWLINE] ++ rest =
    ent.username ++ COLON :: (ent.hash ++ COLON ::
      ([COLON].intercalate (ent.fields.drop 2) ++ NEWLINE :: rest)) := by
    simp [ShadowEntry.fields, List.intercalate_cons_cons]
  have hrest : NEWLINE ∉ [COLON].intercalate (ent.fields.drop 2) := by
    intro hmem
    obtain hx | ⟨u, hu, hx⟩ := mem_intercalate hmem
    · exact absurd hx (by decide)
    · exact (h u (List.mem_of_mem_drop hu)).newline hx
  have hname : Text ent.username := h _ List.mem_cons_self
  have hhash : Text ent.hash := h _ (List.mem_cons_of_mem _ List.mem_cons_self)
  rw [hline, nextShadowEntry, readText_all hname.colon, Option.bind_some, readText_all hhash.colon,
    Option.bind_some, readText_all hrest]
  rfl

/-! ## Looking up what was saved -/

section

variable {α β : Type} {fields : α → List (List UInt8)} {next : List UInt8 → Option (β × List UInt8)}
  {entry : α → β}
  {table : List α} {fuel : ℕ}

/-- The reader reads the lines of the table one after the other. -/
structure Reads (next : List UInt8 → Option (β × List UInt8)) (fields : α → List (List UInt8))
    (entry : α → β)
    (table : List α) : Prop where
  nil : next [] = none
  line : ∀ ent ∈ table, ∀ rest, next ([COLON].intercalate (fields ent) ++ [NEWLINE] ++ rest) =
    some (entry ent, rest)

theorem length_printTable (fields : α → List (List UInt8)) (table : List α) :
    table.length ≤ (printTable fields table).length := by
  induction table with
  | nil => exact Nat.zero_le _
  | cons ent table ih =>
    rw [printTable, List.flatMap_cons, List.length_append, List.length_append, List.length_cons,
      List.length_cons]
    rw [printTable] at ih
    omega

theorem Reads.tail {ent : α} (h : Reads next fields entry (ent :: table)) : Reads next fields entry table :=
  ⟨h.nil, fun e he => h.line e (List.mem_cons_of_mem ent he)⟩

theorem Reads.lookup (h : Reads next fields entry table) (found : β → Bool) (hfuel : table.length ≤ fuel) :
    lookup next found fuel (printTable fields table) = (table.map entry).find? found := by
  induction table generalizing fuel with
  | nil =>
    cases fuel with
    | zero => rfl
    | succ fuel =>
      rw [Users.lookup, printTable, List.flatMap_nil, h.nil]
      rfl
  | cons ent table ih =>
    cases fuel with
    | zero => exact absurd hfuel (by simp)
    | succ fuel =>
      rw [Users.lookup, printTable, List.flatMap_cons, h.line ent List.mem_cons_self, List.map_cons,
        List.find?_cons]
      dsimp only
      cases found (entry ent) with
      | true => rfl
      | false => exact ih h.tail (by simpa using hfuel)

/-- What is found, when no two entries answer. -/
theorem find_map {found : β → Bool} {b : β}
    (hone : ∀ x ∈ table, ∀ y ∈ table, found (entry x) = true → found (entry y) = true → x = y) :
    (table.map entry).find? found = some b ↔ ∃ ent ∈ table, found (entry ent) = true ∧ b = entry ent := by
  constructor
  · intro h
    obtain ⟨ent, hent, rfl⟩ := List.mem_map.1 (List.mem_of_find?_eq_some h)
    exact ⟨ent, hent, List.find?_some h, rfl⟩
  · rintro ⟨ent, hent, hfound, rfl⟩
    have hsome : ((table.map entry).find? found).isSome = true :=
      List.find?_isSome.2 ⟨entry ent, List.mem_map_of_mem hent, hfound⟩
    obtain ⟨b, hb⟩ := Option.isSome_iff_exists.1 hsome
    obtain ⟨other, hother, rfl⟩ := List.mem_map.1 (List.mem_of_find?_eq_some hb)
    rw [hb, hone other hother ent hent (List.find?_some hb) hfound]

theorem Reads.getgrents {table : List GroupEntry}
    (h : Reads grpnextent GroupEntry.fields GroupEntry.found table)
    (hfuel : table.length ≤ fuel) :
    getgrents fuel (printTable GroupEntry.fields table) = table.map (·.found) := by
  induction table generalizing fuel with
  | nil =>
    cases fuel with
    | zero => rfl
    | succ fuel => rfl
  | cons ent table ih =>
    cases fuel with
    | zero => exact absurd hfuel (by simp)
    | succ fuel =>
      rw [Users.getgrents, printTable, List.flatMap_cons, h.line ent List.mem_cons_self, List.map_cons]
      exact congrArg (ent.found :: ·) (ih h.tail (by simpa using hfuel))

end

theorem Text.cstring {name : List UInt8} (h : Text name) : name.takeWhile (· ≠ 0) = name :=
  List.takeWhile_eq_self_iff.2 fun _ hc => decide_eq_true fun heq => h.nul (heq ▸ hc)

theorem Tables.Consistent.readsPasswd (ht : t.Consistent) (hfits : t.Fits) :
    Reads pwnextent PasswdEntry.fields PasswdEntry.found t.passwd :=
  ⟨rfl, fun ent hent _ => pwnextent_line (ht.proper.passwd ent hent) (hfits.passwd ent hent)⟩

theorem Tables.Consistent.readsGroup (ht : t.Consistent) (hfits : t.Fits) :
    Reads grpnextent GroupEntry.fields GroupEntry.found t.group :=
  ⟨rfl, fun g hg _ => grpnextent_line (ht.proper.group g hg) (ht.joined g hg) (hfits.group g hg)⟩

theorem Tables.Consistent.readsShadow (ht : t.Consistent) :
    Reads nextShadowEntry ShadowEntry.fields (fun ent => (ent.username, ent.hash)) t.shadow :=
  ⟨rfl, fun ent hent _ => nextShadowEntry_line (ht.proper.shadow ent hent)⟩

theorem inj_of_nodup {α β : Type} {key : α → β} {l : List α} (h : (l.map key).Nodup) :
    ∀ x ∈ l, ∀ y ∈ l, key x = key y → x = y :=
  fun _ hx _ hy heq => List.inj_on_of_nodup_map h hx hy heq

theorem Tables.Consistent.getpwnam (ht : t.Consistent) (hfits : t.Fits) {username : List UInt8}
    {pwd : Passwd} :
    getpwnam username t.save.passwd = some pwd ↔
      ∃ ent ∈ t.passwd, ent.username = username ∧ pwd = ent.found := by
  have hname : ∀ ent ∈ t.passwd,
      ((ent.found.pw_name.takeWhile (· ≠ 0) == username) = true ↔ ent.username = username) :=
        fun ent hent => by
    rw [beq_iff_eq]
    exact Eq.congr_left (ht.proper.passwd ent hent).username.cstring
  rw [Users.getpwnam, Tables.save, printPasswd,
    (ht.readsPasswd hfits).lookup _ (length_printTable PasswdEntry.fields t.passwd), find_map]
  · refine exists_congr fun ent => and_congr_right fun hent => ?_
    rw [hname ent hent]
  · intro x hx y hy hxn hyn
    exact inj_of_nodup ht.usernames x hx y hy (((hname x hx).1 hxn).trans ((hname y hy).1 hyn).symm)

theorem Tables.Consistent.findPassword (ht : t.Consistent) {username hash : List UInt8} :
    findPassword username t.save.shadow = some hash ↔
      ∃ ent ∈ t.shadow, ent.username = username ∧ hash = ent.hash := by
  have hname : ∀ ent ∈ t.shadow,
      ((ent.username.takeWhile (· ≠ 0) == username) = true ↔ ent.username = username) := fun ent hent => by
    rw [beq_iff_eq]
    exact Eq.congr_left (ht.proper.shadow ent hent _ List.mem_cons_self).cstring
  have hnodup : (t.shadow.map (·.username)).Nodup := ht.shadow ▸ ht.usernames
  have hlookup := ht.readsShadow.lookup (fun ent => ent.1.takeWhile (· ≠ 0) == username)
    (length_printTable ShadowEntry.fields t.shadow)
  rw [Users.findPassword, Tables.save, printShadow, hlookup, Option.map_eq_some_iff]
  constructor
  · rintro ⟨found, hfound, rfl⟩
    obtain ⟨ent, hent, rfl⟩ := List.mem_map.1 (List.mem_of_find?_eq_some hfound)
    have hsome := List.find?_some hfound
    exact ⟨ent, hent, (hname ent hent).1 hsome, rfl⟩
  · rintro ⟨ent, hent, heq, rfl⟩
    refine ⟨(ent.username, ent.hash), (find_map ?_).2 ⟨ent, hent, (hname ent hent).2 heq, rfl⟩, rfl⟩
    intro x hx y hy hxn hyn
    exact inj_of_nodup hnodup x hx y hy (((hname x hx).1 hxn).trans ((hname y hy).1 hyn).symm)

theorem ann_fits : (setupTables ANN ANN NO_HASH).Fits := by
  refine ⟨fun ent hent => ?_, fun g hg => ?_, fun ent hent => ?_⟩
  · rcases List.mem_pair.1 hent with rfl | rfl <;> decide
  · simp only [setupTables, List.mem_cons, List.not_mem_nil, or_false] at hg
    rcases hg with rfl | rfl | rfl <;> decide
  · rcases List.mem_pair.1 hent with rfl | rfl <;> decide

theorem Tables.Consistent.loginGroups (ht : t.Consistent) (hfits : t.Fits) (username : List UInt8) :
    loginGroups username t.save.group = (t.group.filter fun g => g.users.contains username).map (·.gid.toNat) := by
  rw [Users.loginGroups, Tables.save, printGroup,
    (ht.readsGroup hfits).getgrents (length_printTable GroupEntry.fields t.group), List.filter_map,
      List.map_map]
  rfl

/-- The session of a user of the tables. -/
def Tables.session (t : Tables) (ent : PasswdEntry) : Session :=
  ⟨ent.uid.toNat, ent.gid.toNat, (t.group.filter fun g => g.users.contains ent.username).map (·.gid.toNat), ent.home,
    ent.shell⟩

theorem Tables.Consistent.session_gid (ht : t.Consistent) {ent : PasswdEntry} (hent : ent ∈ t.passwd) :
    (t.session ent).gid ∈ (t.session ent).groups := by
  obtain ⟨g, hg, hgid, huser⟩ := ht.primary ent hent
  exact List.mem_map.2 ⟨g, List.mem_filter.2 ⟨hg, by simpa using huser⟩, congrArg UInt16.toNat hgid⟩

section

variable {t' : Tables} {username name : List UInt8}

theorem length_intercalate_filter (p : List UInt8 → Bool) (ts : List (List UInt8)) :
    ([COMMA].intercalate (ts.filter p)).length ≤ ([COMMA].intercalate ts).length := by
  have hcons : ∀ (u : List UInt8) (us : List (List UInt8)), ([COMMA].intercalate (u :: us)).length =
      u.length + if us = [] then 0 else 1 + ([COMMA].intercalate us).length := by
    intro u us
    cases us with
    | nil => simp
    | cons v us =>
      simp [List.intercalate_cons_cons]
      omega
  induction ts with
  | nil => exact Nat.le_refl _
  | cons u ts ih =>
    cases hp : p u with
    | false =>
      rw [List.filter_cons_of_neg (by simp [hp]), hcons]
      split_ifs with hnil
      · rw [hnil]
        exact Nat.zero_le _
      · omega
    | true =>
      rw [List.filter_cons_of_pos hp, hcons, hcons]
      split_ifs with hfilter hnil hnil
      · exact Nat.le_refl _
      · omega
      · exact absurd (by rw [hnil]; rfl) hfilter
      · omega

theorem Tables.Fits.rmuser (ht : t.Consistent) (hfits : t.Fits) (h : t.rmuser username = some t') :
    t'.Fits := by
  obtain ⟨-, rfl⟩ := Tables.rmuser_some h
  refine ⟨fun ent hent => hfits.passwd ent (List.mem_of_mem_eraseP hent), fun g' hg' => ?_,
    fun ent hent => hfits.shadow ent (List.mem_of_mem_eraseP hent)⟩
  obtain ⟨g, hg, hrm⟩ := mem_removed hg'
  obtain ⟨hname, -, -, husers, -, hmembers⟩ := removeFromGroup_some hrm
  have hlen := length_intercalate_filter (· ≠ username) g.users
  rw [ht.joined g hg, ← husers, ← hmembers] at hlen
  exact ⟨hname ▸ (hfits.group g hg).1, hlen.trans_lt (hfits.group g hg).2⟩

/-- The groups of another user are the same, in the same order. -/
theorem filterMap_groups (hne : name ≠ username) (l : List GroupEntry) :
    ((l.filterMap (removeFromGroup username)).filter fun g => g.users.contains name).map (·.gid.toNat) =
      (l.filter fun g => g.users.contains name).map (·.gid.toNat) := by
  induction l with
  | nil => rfl
  | cons g l ih =>
    have hmem : name ∈ g.users.filter (· ≠ username) ↔ name ∈ g.users := by simp [hne]
    cases hrm : removeFromGroup username g with
    | none =>
      have hout : name ∉ g.users := by
        rw [← hmem]
        intro hin
        rw [removeFromGroup_eq, if_neg (List.ne_nil_of_mem hin)] at hrm
        cases hrm
      rw [List.filterMap_cons_none hrm, ih, List.filter_cons_of_neg (by simpa using hout)]
    | some g' =>
      obtain ⟨-, hgid, -, husers, -, -⟩ := removeFromGroup_some hrm
      rw [← husers] at hmem
      rw [List.filterMap_cons_some hrm]
      by_cases hin : name ∈ g.users
      · rw [List.filter_cons_of_pos (by simpa using hmem.2 hin),
          List.filter_cons_of_pos (by simpa using hin),
          List.map_cons, List.map_cons, ih, hgid]
      · rw [List.filter_cons_of_neg (by simpa using fun h => hin (hmem.1 h)),
          List.filter_cons_of_neg (by simpa using hin), ih]

end

end Glidix.Users
