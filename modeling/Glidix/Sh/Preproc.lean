import Mathlib.Data.Int.Notation
import Glidix.Sh.Strops

/-!
# The preprocessor of the shell

A line goes through three passes: variables are expanded, then the commands between backticks, then the
operators `>`, `&&` and `||` get spaces around them.
-/

namespace Glidix.Sh

/-- What the passes read besides the line.  `commandOutput n` is what the `n`-th command of a line appends to
the result. -/
structure ShellEnv where
  shLastStatus : ℤ
  pid : ℤ
  shScriptArgs : List (List UInt8)
  getVarValue : List UInt8 → Option (List UInt8)
  commandOutput : ℕ → List UInt8 → List UInt8

/-! ## Variables -/

def decimal (n : ℤ) : List UInt8 := (toString n).toList.map fun c => c.toNat.toUInt8

def isNameChar (c : UInt8) : Bool :=
  c = 0x5F || (0x30 ≤ c && c ≤ 0x39) || (0x61 ≤ c && c ≤ 0x7A) || (0x41 ≤ c && c ≤ 0x5A)

/-- The size of `varname`. -/
def VARNAME_SIZE : ℕ := 256

/-- The value of what stands behind a dollar, and the rest of the line.  The loop that reads a name stops after
`VARNAME_SIZE` characters, and the terminator is then written behind the buffer. -/
def varValue (env : ShellEnv) (scan : List UInt8) : Except Crash (Option (List UInt8) × List UInt8) :=
  let c := scan.headD 0
  if c = QUESTION then .ok (some (decimal env.shLastStatus), scan.tail)
  else if c = DOLLAR then .ok (some (decimal env.pid), scan.tail)
  else if 0x30 ≤ c ∧ c ≤ 0x39 then .ok (env.shScriptArgs[(c - 0x30).toNat]?, scan.tail)
  else if c = HASH then .ok (some (decimal env.shScriptArgs.length), scan.tail)
  else
    let varname := scan.takeWhile isNameChar
    if VARNAME_SIZE ≤ varname.length then .error .overrun
    else .ok (env.getVarValue varname, scan.drop varname.length)

def varsLoop (env : ShellEnv) : ℕ → List UInt8 → List UInt8 → Except Crash (List UInt8)
  | 0, _, _ => .error .endless
  | fuel + 1, scan, result =>
    if scan = [] then .ok result
    else
      match strFind [DOLLAR] [SINGLE] {} scan with
      | .error e => .error e
      | .ok none => .ok (result ++ scan)
      | .ok (some i) =>
        match varValue env (scan.drop (i + 1)) with
        | .error e => .error e
        | .ok (value, rest) => varsLoop env fuel rest (result ++ scan.take i ++ value.getD [])

def preprocVars (env : ShellEnv) (line : List UInt8) : Except Crash (List UInt8) :=
  varsLoop env (line.length + 1) line []

example (env : ShellEnv) : preprocVars env [] = .ok [] := rfl

/-! ## Commands -/

/-- When the second backtick is missing, the rest of the line is dropped. -/
def backticksLoop (env : ShellEnv) : ℕ → ℕ → List UInt8 → List UInt8 → Except Crash (List UInt8)
  | 0, _, _, _ => .error .endless
  | fuel + 1, n, scan, result =>
    if scan = [] then .ok result
    else
      match strFind [BACKTICK] [SINGLE] {} scan with
      | .error e => .error e
      | .ok none => .ok (result ++ scan)
      | .ok (some i) =>
        match strFind [BACKTICK] [SINGLE] {} (scan.drop (i + 1)) with
        | .error e => .error e
        | .ok none => .ok (result ++ scan.take i)
        | .ok (some j) =>
          backticksLoop env fuel (n + 1) ((scan.drop (i + 1)).drop (j + 1))
            (result ++ scan.take i ++ env.commandOutput n ((scan.drop (i + 1)).take j))

def preprocBackticks (env : ShellEnv) (line : List UInt8) : Except Crash (List UInt8) :=
  backticksLoop env (line.length + 1) 0 line []

/-! ## Operators -/

/-- The loop of `preprocAutospace`: `prev` is the byte before the scanned one. -/
def autospace : Option UInt8 → UInt8 → List UInt8 → List UInt8
  | _, _, [] => []
  | prev, quote, c :: rest =>
    if quote ≠ 0 then c :: autospace (some c) (if quote = c then 0 else quote) rest
    else if c = GREATER then
      (if prev.any fun p => p < 0x30 || 0x39 < p then [BLANK] else []) ++
        GREATER :: BLANK :: autospace (some c) 0 rest
    else
      match rest with
      | [] => [c]
      | d :: rest' =>
        if c = d ∧ (c = AMPERSAND ∨ c = PIPE) then BLANK :: c :: d :: BLANK :: autospace (some d) 0 rest'
        else c :: autospace (some c) (if c = SINGLE ∨ c = DOUBLE then c else 0) (d :: rest')

example (env : ShellEnv) : preprocBackticks env [] = .ok [] := rfl

example : autospace none 0 [PIPE] = [PIPE] := rfl

/-- The buffer has three bytes for each byte of the line, and one for the terminator. -/
def preprocAutospace (line : List UInt8) : Except Crash (List UInt8) :=
  let out := autospace none 0 line
  if out.length + 1 ≤ line.length * 3 + 1 then .ok out else .error .overrun

/-! ## A line -/

def preprocLine (env : ShellEnv) (line : List UInt8) : Except Crash (List UInt8) := do
  let line ← preprocVars env line
  let line ← preprocBackticks env line
  preprocAutospace line

/-- The words of a line: its tokens with the quotes removed. -/
def strWords (line : List UInt8) : Except Crash (List (List UInt8)) := do
  let tokens ← strTokens (line.length + 2) (some line)
  tokens.mapM strCanon

/-- The words the shell makes of a line. -/
def shWords (env : ShellEnv) (line : List UInt8) : Except Crash (List (List UInt8)) := do
  let line ← preprocLine env line
  strWords line

end Glidix.Sh
