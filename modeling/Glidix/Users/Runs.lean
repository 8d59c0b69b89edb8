import Glidix.Users.Consistent

/-!
# Runs of `userctl`

`userctl` does not look for colons in its arguments, nor for commas in the name of a new user.  The scripts here have
none.  The files are then those of consistent tables after every run, from those of the installation on.
-/

namespace Glidix.Users

open Libc Libc.Strtok

/-! ## The arguments of a command -/

/-- An argument: it is not empty, and the line goes on behind it. -/
structure Argument (text : List UInt8) : Prop where
  ne_nil : text ≠ []
  newline : NEWLINE ∉ text
  nul : 0 ∉ text

theorem Argument.text {text : List UInt8} (h : Argument text) (hcolon : COLON ∉ text) : Text text :=
  ⟨h.ne_nil, hcolon, h.newline, h.nul⟩

/-- A saved pointer into the text of a line. -/
def Inside (saveptr : Option (List UInt8)) : Prop := ∀ text, saveptr = some text → NEWLINE ∉ text ∧ 0 ∉ text

theorem inside_none : Inside none := fun _ h => by cases h

theorem inside_commandText (line : List UInt8) : Inside (some (commandText line)) := by
  intro text htext
  cases htext
  refine ⟨fun h => ?_, fun h => ?_⟩
  · have hmem := List.mem_takeWhile_imp ((List.takeWhile_prefix _).subset h)
    simp at hmem
  · have hmem := List.mem_takeWhile_imp ((List.takeWhile_prefix _).subset ((List.takeWhile_prefix _).subset h))
    simp at hmem

theorem strtok_r_inside (s2 : List UInt8) {saveptr : Option (List UInt8)} (h : Inside saveptr) :
    (∀ tok, (strtok_r none s2 saveptr).1 = some tok → Argument tok) ∧
      Inside (strtok_r none s2 saveptr).2 := by
  cases saveptr with
  | none => exact ⟨fun tok htok => (by cases htok), inside_none⟩
  | some s =>
    obtain ⟨hnewline, hnul⟩ := h s rfl
    obtain hs | ⟨blank, t, hblank, ht, hsep, rfl | ⟨c, r, hc, rfl⟩⟩ := split_token s2 s
    · rw [strtok_r_blank (List.dropWhile_eq_nil_iff.2 fun c hc => by simpa using hs c hc)]
      exact ⟨fun tok htok => (by cases htok), inside_none⟩
    · rw [strtok_r_last hblank ht hsep]
      refine ⟨fun tok htok => ?_, inside_none⟩
      cases htok
      exact ⟨ht, fun h => hnewline (List.mem_append_right blank h),
        fun h => hnul (List.mem_append_right blank h)⟩
    · rw [strtok_r_token hblank ht hsep hc]
      simp only [List.append_assoc, List.mem_append, List.mem_cons, not_or] at hnewline hnul
      refine ⟨fun tok htok => ?_, fun text htext => ?_⟩
      · cases htok
        exact ⟨ht, hnewline.2.1, hnul.2.1⟩
      · cases htext
        exact ⟨hnewline.2.2.2, hnul.2.2.2⟩

/-- The arguments of a command that was read from a line. -/
def Command.Read : Command → Prop
  | .adduser username pwhash home shell info =>
    Argument username ∧ Argument pwhash ∧ Argument home ∧ Argument shell ∧
      ∀ text, info = some text → Argument text
  | .hash _ pwhash => Argument pwhash
  | _ => True

theorem readAdduser_read {saveptr : Option (List UInt8)} {cmd : Command} (h : Inside saveptr)
    (hread : readAdduser saveptr = .command cmd) : cmd.Read := by
  obtain ⟨husername, h⟩ := strtok_r_inside BLANKS h
  obtain ⟨hhash, h⟩ := strtok_r_inside BLANKS h
  obtain ⟨hhome, h⟩ := strtok_r_inside BLANKS h
  obtain ⟨hshell, h⟩ := strtok_r_inside BLANKS h
  obtain ⟨hinfo, -⟩ := strtok_r_inside [] h
  unfold readAdduser at hread
  dsimp only at hread
  split at hread
  · rename_i hu hh ho hs
    cases hread
    exact ⟨husername _ hu, hhash _ hh, hhome _ ho, hshell _ hs, hinfo⟩
  · cases hread

theorem readLine_read {line : List UInt8} {cmd : Command} (h : readLine line = .command cmd) : cmd.Read := by
  have hfirst := strtok_r_inside BLANKS (inside_commandText line)
  have heq : strtok_r (some (commandText line)) BLANKS none =
    strtok_r none BLANKS (some (commandText line)) := rfl
  unfold readLine at h
  rw [heq] at h
  split at h
  · cases h
  · rename_i saveptr hcall
    rw [hcall] at hfirst
    split_ifs at h
    · cases h
      trivial
    · cases h
      trivial
    · exact readAdduser_read hfirst.2 h
    · unfold readName at h
      split at h
      · cases h
        trivial
      · cases h
    · obtain ⟨-, hnext⟩ := strtok_r_inside BLANKS hfirst.2
      obtain ⟨hhash, -⟩ := strtok_r_inside BLANKS hnext
      unfold readHash at h
      dsimp only at h
      split at h
      · rename_i hh
        cases h
        exact hhash _ hh
      · cases h
    · unfold readName at h
      split at h
      · cases h
        trivial
      · cases h

/-- What `userctl` does not check. -/
def Command.Plain : Command → Prop
  | .adduser username pwhash home shell info =>
    COLON ∉ username ∧ COMMA ∉ username ∧ COLON ∉ pwhash ∧ COLON ∉ home ∧ COLON ∉ shell ∧
      ∀ text, info = some text → COLON ∉ text
  | .hash _ pwhash => COLON ∉ pwhash
  | _ => True

/-! ## Runs -/

/-- Consistent tables, and files that some consistent tables were saved to. -/
structure Userctl.Good (s : Userctl) : Prop where
  tables : s.tables.Consistent
  files : ∃ t : Tables, t.Consistent ∧ s.files = t.save

variable {s s' : Userctl}

theorem Userctl.Good.exec (hs : s.Good) {cmd : Command} (hread : cmd.Read) (hplain : cmd.Plain)
    (h : s.exec cmd = some s') : s'.Good := by
  cases cmd with
  | print =>
    cases h
    exact hs
  | save =>
    cases h
    exact ⟨hs.tables, s.tables, hs.tables, rfl⟩
  | adduser username hash home shell info =>
    obtain ⟨t, ht, rfl⟩ := Option.map_eq_some_iff.1 h
    obtain ⟨husername, hhash, hhome, hshell, hinfo⟩ := hread
    obtain ⟨hu, hcomma, hh, hho, hsh, hi⟩ := hplain
    have htext : Text (info.getD username) := by
      cases info with
      | none => exact husername.text hu
      | some text => exact (hinfo text rfl).text (hi text rfl)
    exact ⟨hs.tables.adduser (husername.text hu) hcomma (hhash.text hh) (hhome.text hho) (hshell.text hsh) htext ht,
      hs.files⟩
  | rmuser username =>
    obtain ⟨t, ht, rfl⟩ := Option.map_eq_some_iff.1 h
    exact ⟨hs.tables.rmuser ht, hs.files⟩
  | hash username hash =>
    obtain ⟨table, htable, rfl⟩ := Option.map_eq_some_iff.1 h
    exact ⟨hs.tables.setHash (hread.text hplain) htable, hs.files⟩
  | gethash username =>
    obtain ⟨ent, -, rfl⟩ := Option.map_eq_some_iff.1 h
    exact ⟨hs.tables, hs.files⟩

/-- The commands of a script have no colon and no comma where there must be none. -/
def PlainScript (script : List (List UInt8)) : Prop :=
  ∀ line ∈ script, ∀ cmd, readLine line = .command cmd → cmd.Plain

theorem Userctl.Good.run (hs : s.Good) {script : List (List UInt8)} (hscript : PlainScript script) :
    (s.run script).Good := by
  induction script generalizing s with
  | nil => exact hs
  | cons line script ih =>
    have hrest : PlainScript script := fun l hl => hscript l (List.mem_cons_of_mem line hl)
    rw [Userctl.run]
    split
    · exact ih hs hrest
    · exact hs
    · rename_i cmd hline
      split
      · rename_i s' hexec
        exact ih (hs.exec (readLine_read hline) (hscript line List.mem_cons_self cmd hline) hexec) hrest
      · exact hs

theorem userctl_good {f : Files} {script : List (List UInt8)} (hf : ∃ t : Tables, t.Consistent ∧ f = t.save)
    (hscript : PlainScript script) : ∃ t : Tables, t.Consistent ∧ userctl f script = t.save := by
  obtain ⟨t, ht, rfl⟩ := hf
  rw [userctl, ht.proper.load_save]
  split_ifs
  · exact ⟨t, ht, rfl⟩
  · exact (Userctl.Good.run ⟨ht, t, ht, rfl⟩ hscript).files

/-! ## The installation -/

def ROOT : List UInt8 := word ['r', 'o', 'o', 't']
def ADMIN : List UInt8 := word ['a', 'd', 'm', 'i', 'n']
def ROOT_DIR : List UInt8 := word ['/', 'r', 'o', 'o', 't']
def HOME : List UInt8 := word ['/', 'h', 'o', 'm', 'e', '/']
def SHELL : List UInt8 := word ['/', 'b', 'i', 'n', '/', 's', 'h']
def NO_HASH : List UInt8 := word ['*']

/-- The text that a format of `userSetup` stands for. -/
def setupLine (fields : List (List UInt8)) : List UInt8 := [COLON].intercalate fields ++ [NEWLINE]

/-- `userSetup` of `gxsetup`: the files of a new system. -/
def userSetup (username fullname pwhash : List UInt8) : Files where
  passwd :=
    setupLine [ROOT, EX, word ['0'], word ['0'], ROOT, ROOT_DIR, SHELL] ++
      setupLine [username, EX, word ['1', '0', '0', '0'], word ['1', '0', '0', '0'], fullname,
        HOME ++ username, SHELL]
  group :=
    setupLine [ROOT, EX, word ['0'], ROOT] ++ setupLine [ADMIN, EX, word ['1'], ROOT ++ COMMA :: username] ++
      setupLine [username, EX, word ['1', '0', '0', '0'], username]
  shadow :=
    setupLine [ROOT, NO_HASH, RESV, RESV, RESV, RESV, RESV, RESV] ++
      setupLine [username, pwhash, RESV, RESV, RESV, RESV, RESV, RESV]

def setupTables (username fullname pwhash : List UInt8) : Tables where
  passwd := [⟨ROOT, EX, 0, 0, ROOT, ROOT_DIR, SHELL⟩,
    ⟨username, EX, 1000, 1000, fullname, HOME ++ username, SHELL⟩]
  group := [⟨ROOT, EX, 0, ROOT⟩, ⟨ADMIN, EX, 1, [COMMA].intercalate [ROOT, username]⟩,
    ⟨username, EX, 1000, username⟩]
  shadow := [⟨ROOT, NO_HASH, RESV, RESV, RESV, RESV, RESV, RESV⟩,
    ⟨username, pwhash, RESV, RESV, RESV, RESV, RESV, RESV⟩]

theorem printHu_zero : printHu 0 = word ['0'] := by
  simp [printHu, numeral, numeralLoop, digitChar, word]
  decide

theorem printHu_one : printHu 1 = word ['1'] := by
  simp [printHu, numeral, numeralLoop, digitChar, word]
  decide

theorem printHu_thousand : printHu 1000 = word ['1', '0', '0', '0'] := by
  simp [printHu, numeral, numeralLoop, digitChar, word]
  decide

variable {username fullname pwhash : List UInt8}

theorem userSetup_eq : userSetup username fullname pwhash = (setupTables username fullname pwhash).save := by
  simp [userSetup, setupTables, setupLine, Tables.save, printPasswd, printGroup, printShadow, printTable,
    PasswdEntry.fields, GroupEntry.fields, ShadowEntry.fields, printHu_zero, printHu_one, printHu_thousand,
    List.intercalate_cons_cons]

/-- The name of the first user, which `promptUserInfo` takes as it is typed. -/
structure SetupName (username : List UInt8) : Prop where
  text : Text username
  comma : COMMA ∉ username
  root : username ≠ ROOT
  admin : username ≠ ADMIN

theorem setupTables_consistent (hname : SetupName username) (hfullname : Text fullname)
    (hhash : Text pwhash) :
    (setupTables username fullname pwhash).Consistent := by
  have hroot : GroupEntry.users ⟨ROOT, EX, 0, ROOT⟩ = [ROOT] := users_singleton (by decide) (by decide)
  have hadmin : GroupEntry.users ⟨ADMIN, EX, 1, [COMMA].intercalate [ROOT, username]⟩ =
    [ROOT, username] := by
    refine tokens_intercalate fun u hu => ?_
    rcases List.mem_pair.1 hu with rfl | rfl
    · decide
    · exact ⟨hname.text.ne_nil, hname.comma⟩
  have huser : GroupEntry.users ⟨username, EX, 1000, username⟩ = [username] :=
    users_singleton hname.text.ne_nil hname.comma
  have hROOT : Text ROOT := by decide
  have hADM : Text ADMIN := by decide
  have hSHELL : Text SHELL := by decide
  have hDIR : Text ROOT_DIR := by decide
  have hRESV : Text RESV := by decide
  have hNO : Text NO_HASH := by decide
  have hHOME : Text (HOME ++ username) := Text.append (by decide) hname.text
  have hADMIN : Text ([COMMA].intercalate [ROOT, username]) := by
    rw [List.intercalate_cons_cons, List.intercalate_singleton]
    exact (hROOT.append (by decide)).append hname.text
  have hne : ROOT ≠ ADMIN := by decide
  refine ⟨⟨?_, ?_, ?_⟩, ?_, by simp [setupTables], ?_, by simp [setupTables], rfl, ?_, ?_, ?_⟩
  · intro ent hent
    rcases List.mem_pair.1 hent with rfl | rfl
    · exact ⟨hROOT, rfl, hROOT, hDIR, hSHELL⟩
    · exact ⟨hname.text, rfl, hfullname, hHOME, hSHELL⟩
  · intro g hg
    simp only [setupTables, List.mem_cons, List.not_mem_nil, or_false] at hg
    rcases hg with rfl | rfl | rfl
    · exact ⟨hROOT, rfl, hROOT⟩
    · exact ⟨hADM, rfl, hADMIN⟩
    · exact ⟨hname.text, rfl, hname.text⟩
  · intro ent hent
    rcases List.mem_pair.1 hent with rfl | rfl
    · simp [ShadowEntry.Proper, ShadowEntry.fields, hROOT, hNO, hRESV]
    · simp [ShadowEntry.Proper, ShadowEntry.fields, hname.text, hhash, hRESV]
  · simpa [setupTables] using hname.root.symm
  · simp [setupTables, hne, hname.root.symm, hname.admin.symm]
  · intro ent hent
    rcases List.mem_pair.1 hent with rfl | rfl
    · exact ⟨_, List.mem_cons_self, rfl, hroot ▸ List.mem_cons_self⟩
    · refine ⟨⟨username, EX, 1000, username⟩, by simp [setupTables], rfl, huser ▸ List.mem_cons_self⟩
  · intro g hg m hm
    simp only [setupTables, List.mem_cons, List.not_mem_nil, or_false] at hg
    rcases hg with rfl | rfl | rfl
    · rw [hroot, List.mem_singleton] at hm
      simp [setupTables, hm]
    · rw [hadmin] at hm
      simpa [setupTables] using hm
    · rw [huser, List.mem_singleton] at hm
      simp [setupTables, hm]
  · intro g hg
    simp only [setupTables, List.mem_cons, List.not_mem_nil, or_false] at hg
    rcases hg with rfl | rfl | rfl
    · rw [hroot]
      rfl
    · rw [hadmin]
    · rw [huser]
      simp

def ANN : List UInt8 := word ['a', 'n', 'n']
def BOB : List UInt8 := word ['b', 'o', 'b']

/-- `adduser bob h / sh`. -/
def ADD_BOB : List UInt8 :=
  word ['a', 'd', 'd', 'u', 's', 'e', 'r', ' ', 'b', 'o', 'b', ' ', 'h', ' ', '/', ' ', 's', 'h', '\n']

/-- The user is in the group of the name. -/
def Tables.IsMember (t : Tables) (groupname user : List UInt8) : Prop :=
  ∃ g ∈ t.group, g.groupname = groupname ∧ user ∈ g.users

/-- `rmuser` takes a user out of every table, and leaves everyone else in the groups they were in. -/
theorem rmuser_leaves_others (t t' : Tables) (ht : t.Consistent) (h : t.rmuser username = some t') :
    (∀ ent, ent ∈ t'.passwd ↔ ent ∈ t.passwd ∧ ent.username ≠ username) ∧
      (∀ ent, ent ∈ t'.shadow ↔ ent ∈ t.shadow ∧ ent.username ≠ username) ∧
      ∀ groupname user, t'.IsMember groupname user ↔ t.IsMember groupname user ∧ user ≠ username := by
  refine ⟨fun ent => ht.mem_rmuser_passwd h, fun ent => ht.mem_rmuser_shadow h,
    fun groupname user => ?_⟩
  obtain ⟨-, rfl⟩ := Tables.rmuser_some h
  constructor
  · rintro ⟨g', hg', rfl, huser⟩
    obtain ⟨g, hg, hrm⟩ := mem_removed hg'
    obtain ⟨hname, -, -, husers, -, -⟩ := removeFromGroup_some hrm
    rw [husers] at huser
    obtain ⟨huser, hne⟩ := List.mem_filter.1 huser
    exact ⟨⟨g, hg, hname.symm, huser⟩, of_decide_eq_true hne⟩
  · rintro ⟨⟨g, hg, rfl, huser⟩, hne⟩
    obtain ⟨g', hg', hname, -, huser'⟩ := Tables.rmuser_group hg huser hne
    exact ⟨g', hg', hname, huser'⟩

theorem ann_consistent : (setupTables ANN ANN NO_HASH).Consistent :=
  setupTables_consistent ⟨by decide, by decide, by decide, by decide⟩ (by decide) (by decide)

theorem rmuser_leaves_others_ann : ∃ t', (setupTables ANN ANN NO_HASH).rmuser ANN = some t' ∧
    ∀ groupname user, t'.IsMember groupname user ↔
      (setupTables ANN ANN NO_HASH).IsMember groupname user ∧ user ≠ ANN :=
  ⟨_, if_pos (by decide), (rmuser_leaves_others _ _ ann_consistent (if_pos (by decide))).2.2⟩

end Glidix.Users
