import Glidix.Libc.Scanf
import Glidix.Sh.Tokens

/-!
# Commands of the shell

`cmdRun` cuts a preprocessed line into tokens, collects them in a chain of groups, and executes the groups one after
the other.  A group is a pipeline; what its execution does is a parameter.
-/

namespace Glidix.Sh

open Libc (scanInteger)

/-! ## Chains -/

/-- The flags that a redirection opens its target with, besides `O_WRONLY | O_CREAT`. -/
inductive OFlag
  | O_TRUNC
  | O_APPEND
  deriving DecidableEq

structure CmdRedir where
  fd : ℤ
  oflag : OFlag
  targetName : List UInt8
  deriving DecidableEq

structure CmdMember where
  tokens : List (List UInt8)
  redir : List CmdRedir
  deriving DecidableEq

abbrev CmdMember.empty : CmdMember := ⟨[], []⟩

/-- The members of a group stand from right to left.  The last group of a chain does not set `mustSucceed`, unless it
is the first. -/
structure CmdGroup where
  members : List CmdMember
  mustSucceed : Option Bool
  deriving DecidableEq

/-! ## Tokens -/

abbrev EQUALS : UInt8 := 0x3D

def DEV_NULL : List UInt8 := [0x2F, 0x64, 0x65, 0x76, 0x2F, 0x6E, 0x75, 0x6C, 0x6C]

/-- The chain that the loop over the tokens has built.  `others` are the members that stand behind the current one,
and `nextRedir` is the redirection that lacks its target. -/
structure ParseState where
  groups : List CmdGroup
  currentMember : CmdMember
  others : List CmdMember
  mustSucceed : Option Bool
  isVarSetting : Bool
  nextRedir : Option (ℤ × OFlag)

def ParseState.init : ParseState := ⟨[], .empty, [], some false, true, none⟩

/-- Why the loop ends before the last token. -/
inductive ParseStop
  | crash (e : Crash)
  | subshell
  deriving DecidableEq

/-- `sscanf` with `%d`; the descriptor is 1 before. -/
def scanFd (token : List UInt8) : ℤ := (scanInteger .none .d token).stored.getD 1

def redirOf (token : List UInt8) : ℤ × OFlag :=
  if token.length = 1 then (1, .O_TRUNC)
  else if token = [GREATER, GREATER] then (1, .O_APPEND)
  else if token.drop (token.length - 2) = [GREATER, GREATER] then (scanFd token, .O_APPEND)
  else (scanFd token, .O_TRUNC)

/-- The current group is finished, and the next one begins. -/
def ParseState.nextGroup (s : ParseState) (mustSucceed : Bool) : ParseState :=
  { s with
    groups := s.groups ++ [⟨s.currentMember :: s.others, some mustSucceed⟩]
    currentMember := .empty
    others := []
    mustSucceed := none }

def ParseState.addRedir (s : ParseState) (redir : CmdRedir) : ParseState :=
  { s with
    currentMember := ⟨s.currentMember.tokens, s.currentMember.redir ++ [redir]⟩
    nextRedir := none }

def ParseState.addToken (s : ParseState) (token : List UInt8) (assigns : Bool) : ParseState :=
  { s with
    currentMember := ⟨s.currentMember.tokens ++ [token], s.currentMember.redir⟩
    isVarSetting := s.isVarSetting && assigns }

/-- The body of the loop over the tokens. -/
def parseToken (s : ParseState) (token : List UInt8) : Except ParseStop ParseState :=
  match s.nextRedir with
  | some (fd, oflag) => .ok (s.addRedir ⟨fd, oflag, token⟩)
  | none =>
    if token.getLast? = some GREATER then .ok { s with nextRedir := some (redirOf token) }
    else if token = [PIPE] then .ok { s with currentMember := .empty, others := s.currentMember :: s.others }
    else if token = [PIPE, PIPE] then .ok (s.nextGroup false)
    else if token = [AMPERSAND, AMPERSAND] then .ok (s.nextGroup true)
    else if token.head?.any isOpening ∧ s.currentMember.tokens ≠ [] then .error .subshell
    else
      match strCanon token with
      | .error e => .error (.crash e)
      | .ok word =>
        match strFind [EQUALS] QUOTES {} word with
        | .error e => .error (.crash e)
        | .ok found => .ok (s.addToken word found.isSome)

/-- A redirection at the end of the line without a target. -/
def ParseState.finish (s : ParseState) : ParseState :=
  match s.nextRedir with
  | some (fd, oflag) => s.addRedir ⟨fd, oflag, DEV_NULL⟩
  | none => s

def ParseState.chain (s : ParseState) : List CmdGroup :=
  s.groups ++ [⟨s.currentMember :: s.others, s.mustSucceed⟩]

def parseTokens (s : ParseState) (tokens : List (List UInt8)) : Except ParseStop ParseState :=
  tokens.foldlM parseToken s

/-- The parsing loop of `cmdRun` over a line, with what follows it. -/
def cmdParse (cmd : List UInt8) : Except ParseStop ParseState :=
  match strTokens (cmd.length + 2) (some cmd) with
  | .error e => .error (.crash e)
  | .ok tokens => (parseTokens .init tokens).map ParseState.finish

/-! ## Statuses -/

def WEXITSTATUS (ws : Int32) : Int32 := (ws &&& 0xFF00) >>> 8

def WTERMSIG (ws : Int32) : Int32 := ws &&& 0x7F

def WIFEXITED (ws : Int32) : Bool := WTERMSIG ws = 0

def WIFSIGNALED (status : Int32) : Bool := ((status &&& 0x7F) + 1).toInt8 >>> 1 > 0

/-- What `cmdRun` returns for a status. -/
def exitCode (status : Int32) : Int32 :=
  if WIFEXITED status then WEXITSTATUS status
  else if WIFSIGNALED status then 128 + WTERMSIG status
  else 255

/-- A group has succeeded. -/
def success (status : Int32) : Bool := WIFEXITED status && WEXITSTATUS status = 0

/-! ## Running a line -/

section Run

variable {W : Type} (executeGroup : W → List CmdMember → Int32 × W)

/-- The loop over the groups: which were executed, the last status, and the state of the world. -/
def executeLoop : List CmdGroup → Int32 → W → List (List CmdMember) × Int32 × W
  | [], status, w => ([], status, w)
  | group :: next, _, w =>
    let (status, w) := executeGroup w group.members
    if some (success status) ≠ group.mustSucceed then ([group.members], status, w)
    else
      let (executed, status, w) := executeLoop next status w
      (group.members :: executed, status, w)

/-- What `cmdRun` has done: the groups that it executed, the variables that it set, what it returns, and the state of
the world. -/
structure CmdResult (W : Type) where
  executed : List (List CmdMember)
  puts : List (List UInt8)
  ret : Int32
  world : W

/-- `cmdRun`.  The variable `status` holds any value before it is set. -/
def cmdRun (status : Int32) (w : W) (cmd : List UInt8) : Except Crash (CmdResult W) :=
  match cmdParse cmd with
  | .error (.crash e) => .error e
  | .error .subshell => .ok ⟨[], [], exitCode 1, w⟩
  | .ok s =>
    if s.isVarSetting then .ok ⟨[], s.currentMember.tokens, exitCode status, w⟩
    else
      let (executed, status, w) := executeLoop executeGroup s.chain status w
      .ok ⟨executed, [], exitCode status, w⟩

end Run

end Glidix.Sh
