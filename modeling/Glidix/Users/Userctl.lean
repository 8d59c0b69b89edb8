import Glidix.Users.Tables

/-!
# `userctl`

The program reads the three tables, runs the commands of a control script on them and exits at the first that fails.
The files change when a command says `save`.
-/

namespace Glidix.Users

open Libc Libc.Strtok

abbrev HASH : UInt8 := 0x23

/-- What stands between the words of a command. -/
abbrev BLANKS : List UInt8 := [0x20, 0x09]

/-! ## The lines of the control script -/

inductive Command
  | print
  | save
  | adduser (username hash home shell : List UInt8) (info : Option (List UInt8))
  | rmuser (username : List UInt8)
  | hash (username hash : List UInt8)
  | gethash (username : List UInt8)
  deriving DecidableEq

inductive Line
  | blank
  | command (cmd : Command)
  | bad
  deriving DecidableEq

def word (letters : List Char) : List UInt8 := letters.map Char.toUInt8

def PRINT : List UInt8 := word ['p', 'r', 'i', 'n', 't']
def SAVE : List UInt8 := word ['s', 'a', 'v', 'e']
def ADDUSER : List UInt8 := word ['a', 'd', 'd', 'u', 's', 'e', 'r']
def RMUSER : List UInt8 := word ['r', 'm', 'u', 's', 'e', 'r']
def SETHASH : List UInt8 := word ['h', 'a', 's', 'h']
def GETHASH : List UInt8 := word ['g', 'e', 't', 'h', 'a', 's', 'h']

/-- A line of the script up to its newline or a comment. -/
def commandText (line : List UInt8) : List UInt8 :=
  ((line.takeWhile (· ≠ 0)).takeWhile (· ≠ NEWLINE)).takeWhile (· ≠ HASH)

/-- The arguments of `adduser`: the last one is the rest of the line. -/
def readAdduser (saveptr : Option (List UInt8)) : Line :=
  let username := strtok_r none BLANKS saveptr
  let hash := strtok_r none BLANKS username.2
  let home := strtok_r none BLANKS hash.2
  let shell := strtok_r none BLANKS home.2
  let info := strtok_r none [] shell.2
  match username.1, hash.1, home.1, shell.1 with
  | some username, some hash, some home, some shell => .command (.adduser username hash home shell info.1)
  | _, _, _, _ => .bad

/-- The one argument of `rmuser` and `gethash`. -/
def readName (cmd : List UInt8 → Command) (saveptr : Option (List UInt8)) : Line :=
  match (strtok_r none BLANKS saveptr).1 with
  | some username => .command (cmd username)
  | none => .bad

def readHash (saveptr : Option (List UInt8)) : Line :=
  let username := strtok_r none BLANKS saveptr
  let hash := strtok_r none BLANKS username.2
  match username.1, hash.1 with
  | some username, some hash => .command (.hash username hash)
  | _, _ => .bad

def readLine (line : List UInt8) : Line :=
  match strtok_r (some (commandText line)) BLANKS none with
  | (none, _) => .blank
  | (some cmd, saveptr) =>
    if cmd = PRINT then .command .print
    else if cmd = SAVE then .command .save
    else if cmd = ADDUSER then readAdduser saveptr
    else if cmd = RMUSER then readName .rmuser saveptr
    else if cmd = SETHASH then readHash saveptr
    else if cmd = GETHASH then readName .gethash saveptr
    else .bad

/-! ## The commands -/

/-- The first number from `id` on that is not in use, until the counter overflows. -/
def allocId (used : List UInt16) (id : UInt16) : Option UInt16 :=
  if id = 0 then none else if id ∈ used then allocId used (id + 1) else some id
termination_by if id = 0 then 0 else 65536 - id.toNat
decreasing_by
  rename_i hid _
  rw [if_neg hid]
  have hlt := id.toNat_lt
  split_ifs with hnext
  · omega
  · have hsucc : (id + 1).toNat = (id.toNat + 1) % 65536 := UInt16.toNat_add id 1
    have hne : (id + 1).toNat ≠ 0 := fun h => hnext (UInt16.toNat_inj.1 h)
    omega

/-- What the six reserved fields of a new entry hold. -/
abbrev RESV : List UInt8 := [0x30]

def Tables.adduser (t : Tables) (username hash home shell : List UInt8) (info : Option (List UInt8)) :
    Option Tables :=
  if t.passwd.any (·.username == username) then none
  else if t.group.any (·.groupname == username) then none
  else
    match allocId (t.passwd.map (·.uid)) 1000, allocId (t.group.map (·.gid)) 1000 with
    | some uid, some gid =>
      some
        { passwd := t.passwd ++ [⟨username, EX, uid, gid, info.getD username, home, shell⟩]
          group := t.group ++ [⟨username, EX, gid, username⟩]
          shadow := t.shadow ++ [⟨username, hash, RESV, RESV, RESV, RESV, RESV, RESV⟩] }
    | _, _ => none

/-- One round of the loop of `removeFromGroup`. -/
def keepMember (username newMembers tok : List UInt8) : List UInt8 :=
  if tok = username then newMembers else if newMembers = [] then tok else newMembers ++ COMMA :: tok

/-- The group without the user, or nothing when the group is empty now. -/
def removeFromGroup (username : List UInt8) (ent : GroupEntry) : Option GroupEntry :=
  let newMembers := (tokens [COMMA] ent.members).foldl (keepMember username) []
  if newMembers = [] then none else some { ent with members := newMembers }

def Tables.rmuser (t : Tables) (username : List UInt8) : Option Tables :=
  if t.passwd.any (·.username == username) then
    some
      { passwd := t.passwd.eraseP (·.username == username)
        group := t.group.filterMap (removeFromGroup username)
        shadow := t.shadow.eraseP (·.username == username) }
  else none

/-- The loop of `hash`. -/
def setHash (username hash : List UInt8) : List ShadowEntry → Option (List ShadowEntry)
  | [] => none
  | ent :: table =>
    if ent.username = username then some ({ ent with hash := hash } :: table)
    else (setHash username hash table).map (ent :: ·)

/-- The program while it runs the script. -/
structure Userctl where
  tables : Tables
  files : Files
  stdout : List UInt8

/-- The state after a command, or nothing when the program exits.  `print` writes to the standard error output. -/
def Userctl.exec (s : Userctl) : Command → Option Userctl
  | .print => some s
  | .save => some { s with files := s.tables.save }
  | .adduser username hash home shell info =>
    (s.tables.adduser username hash home shell info).map ({ s with tables := · })
  | .rmuser username => (s.tables.rmuser username).map ({ s with tables := · })
  | .hash username hash =>
    (setHash username hash s.tables.shadow).map fun shadow =>
      { s with tables := { s.tables with shadow := shadow } }
  | .gethash username =>
    (s.tables.shadow.find? (·.username == username)).map fun ent =>
      { s with stdout := s.stdout ++ ent.hash ++ [NEWLINE] }

/-- The loop over the script, up to the line at which the program exits. -/
def Userctl.run (s : Userctl) : List (List UInt8) → Userctl
  | [] => s
  | line :: script =>
    match readLine line with
    | .blank => s.run script
    | .bad => s
    | .command cmd =>
      match s.exec cmd with
      | some s' => s'.run script
      | none => s

/-- The files after `main`. -/
def userctl (f : Files) (script : List (List UInt8)) : Files :=
  match f.load with
  | some t => (Userctl.run ⟨t, f, []⟩ script).files
  | none => f

end Glidix.Users
