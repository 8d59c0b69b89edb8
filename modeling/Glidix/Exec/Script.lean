import Glidix.Exec.ArgBlock
import Glidix.Lib.Runs

/-!
# Scripts

`elfExec` hands a file that begins with `#!` to `execScript`, which reads the name of the interpreter and an
argument from the first line, makes a new block of parameters, and calls `elfExec` for the interpreter.  The
arrays of `execScript` are on the stack; what they hold before they are written is a parameter of the call.
-/

namespace Glidix.Exec

/-- `isspace` -/
def isspace (c : UInt8) : Bool := c = 32 ∨ c = 9 ∨ c = 10

/-- A loop that copies bytes while they satisfy `p`: the bytes, and the place where it stops; `none` if it
runs over the end of the array. -/
def scanWhile (p : UInt8 → Bool) : List UInt8 → Option (List UInt8 × List UInt8)
  | [] => none
  | c :: scan =>
    if p c then (scanWhile p scan).map fun r => (c :: r.1, r.2) else some ([], c :: scan)

/-- The scans of `execScript` from behind `#!` on: the interpreter, and `nextPar` up to its end. -/
def scanLine (line : List UInt8) : Option (List UInt8 × List UInt8) := do
  let (_, scan) ← scanWhile isspace line
  let (interp, scan) ← scanWhile (fun c => !isspace c) scan
  let (_, scan) ← scanWhile (fun c => isspace c && c != 10) scan
  let (nextPar, _) ← scanWhile (fun c => !isspace c) scan
  some (interp, nextPar)

inductive ExecError where
  | EINVAL
  | ENOEXEC
  /-- The file is not there, not a regular one, or not executable. -/
  | notOpened
  deriving DecidableEq

/-- Where a call of `elfExec` has got to. -/
inductive ExecCall where
  | elfExec (path pars : List UInt8)
  | failed (error : ExecError)
  /-- The file is not a script, and the program is loaded with these parameters. -/
  | load (path pars : List UInt8)
  /-- An array has been left. -/
  | outside
  deriving DecidableEq

/-- The regular executable files; the empty path is that of a directory. -/
structure Files where
  content : (path : List UInt8) → Option (List UInt8)
  content_nil : content [] = none

/-- The 1024 bytes of `intline` once the file is read into them; `junk` is what they were before. -/
def intline (junk : Bytes) (read : List UInt8) : List UInt8 :=
  read ++ 0 :: (List.range' (read.length + 1) (1023 - read.length)).map junk

/-- `execScript` -/
def execScript (junk : Bytes) (file path pars : List UInt8) : ExecCall :=
  let read := file.take 1023
  let bufsz := read.length
  if bufsz < 4 then .failed .ENOEXEC
  else
    match scanLine ((intline junk read).drop 2) with
    | none => .outside
    | some (interp, word) =>
      let nextPar := word.takeWhile (· ≠ 0)
      let pars' := pars.dropWhile (· ≠ 0)
      let next := if nextPar.length ≠ 0 then nextPar ++ [0] else []
      let newPars := interp ++ [0] ++ next ++ path ++ pars'
      -- the sizes of `nextPar` and of the allocation
      if word.length + 1 > 1024 ∨ newPars.length > path.length + 2 + bufsz + pars.length then .outside
      else
        let newParsz := interp.length + next.length + path.length + pars'.length
        .elfExec (newPars.takeWhile (· ≠ 0)) (newPars.take newParsz)

/-- `elfExec` up to the check for a script. -/
def elfExecFile (fs : Files) (junk : Bytes) (path pars : List UInt8) : ExecCall :=
  let parsz := pars.length
  if parsz < 4 then .failed .EINVAL
  else if pars.getD (parsz - 1) 0 ≠ 0 ∨ pars.getD (parsz - 2) 0 ≠ 0 then .failed .EINVAL
  else
    match fs.content path with
    | none => .failed .notOpened
    | some file =>
      if file.length < 2 then .failed .ENOEXEC
      else if file.take 2 = [35, 33] then execScript junk file path pars
      else .load path pars

/-! ## Calls that call each other -/

/-- The interpreter that a script names, the first word behind `#!`. -/
def interpreter (file : List UInt8) : List UInt8 :=
  ((file.drop 2).dropWhile isspace).takeWhile fun c => !isspace c

/-- The word behind it on the line. -/
def optionalArg (file : List UInt8) : List UInt8 :=
  ((((file.drop 2).dropWhile isspace).dropWhile fun c => !isspace c).dropWhile
    fun c => isspace c && c != 10).takeWhile fun c => !isspace c

/-- The arguments that the interpreter should get. -/
def scriptArgs (file path : List UInt8) (args : List (List UInt8)) : List (List UInt8) :=
  interpreter file :: (if optionalArg file = [] then [] else [optionalArg file]) ++ path :: args.tail

/-- A call and how many calls of `elfExec` are below it on the stack; the parameters of the first one; and
the arguments and the environment that the program should get. -/
structure ExecChain where
  call : ExecCall
  depth : ℕ
  first : List UInt8
  args : List (List UInt8)
  envs : List (List UInt8)

/-- The next call of `elfExec`, or the end of the last one. -/
def ExecChain.step (fs : Files) (s : ExecChain) (junk : Bytes) : Option ExecChain :=
  match s.call with
  | .elfExec path pars =>
    match elfExecFile fs junk path pars with
    | .elfExec path' pars' =>
      some { s with
        call := .elfExec path' pars'
        depth := s.depth + 1
        args := scriptArgs ((fs.content path).getD []) path s.args }
    | call => some { s with call }
  | _ => none

/-- A path is a string without its terminator. -/
def execSystem (fs : Files) : System ExecChain Bytes where
  init s := ∃ path pars, 0 ∉ path ∧
    s = ⟨.elfExec path pars, 0, pars, argStrings pars, envStrings pars⟩
  step s junk s' := s.step fs junk = some s'

end Glidix.Exec
