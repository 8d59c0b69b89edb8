import Mathlib.Data.List.Basic

/-!
# The string operations of the shell

`str_find`, `str_token` and `str_canon` scan a line byte by byte and follow its quotes and brackets.  A line is
the list of its bytes before the terminating 0.  After a backslash all of them step over the next byte, and when
that is the terminator the scan goes on behind the string.
-/

namespace Glidix.Sh

/-! ## Characters -/

abbrev TAB : UInt8 := 0x09
abbrev NEWLINE : UInt8 := 0x0A
abbrev BLANK : UInt8 := 0x20
abbrev DOUBLE : UInt8 := 0x22
abbrev HASH : UInt8 := 0x23
abbrev DOLLAR : UInt8 := 0x24
abbrev AMPERSAND : UInt8 := 0x26
abbrev SINGLE : UInt8 := 0x27
abbrev GREATER : UInt8 := 0x3E
abbrev QUESTION : UInt8 := 0x3F
abbrev BACKSLASH : UInt8 := 0x5C
abbrev BACKTICK : UInt8 := 0x60
abbrev PIPE : UInt8 := 0x7C

/-- The opening and the closing brackets. -/
def isOpening (c : UInt8) : Bool := c = 0x28 || c = 0x7B

def isClosing (c : UInt8) : Bool := c = 0x29 || c = 0x7D

def WHITESPACES : List UInt8 := [BLANK, TAB, NEWLINE]

def QUOTES : List UInt8 := [DOUBLE, SINGLE]

/-- How a function ends when it does not return. -/
inductive Crash
  /-- It reads or writes behind the end of a string or of a buffer. -/
  | overrun
  /-- It does not return. -/
  | endless
  deriving DecidableEq

/-- Whether `strchr` returns a place: the terminator counts as a byte of the string. -/
def strchr (s : List UInt8) (c : UInt8) : Bool := c = 0 || s.contains c

/-- The quote that is open, 0 for none, and how many brackets are. -/
structure ScanState where
  quote : UInt8 := 0
  bracketLevel : ℕ := 0
  deriving DecidableEq

/-! ## Finding and cutting -/

/-- The loop body of `str_find` for a byte that is no backslash: `none` when the byte is found. -/
def findStep (needleList quoteChars : List UInt8) (s : ScanState) (c : UInt8) : Option ScanState :=
  if !strchr quoteChars s.quote && s.bracketLevel = 0 && strchr needleList c then none
  else if s.quote = 0 then
    if isOpening c then some { s with bracketLevel := s.bracketLevel + 1 }
    else if isClosing c then some { s with bracketLevel := s.bracketLevel - 1 }
    else if strchr QUOTES c then some { s with quote := c }
    else if s.bracketLevel ≠ 0 then some s
    else if strchr needleList c then none
    else some s
  else if s.quote = c then some { s with quote := 0 }
  else some s

/-- The place of the first needle outside of quotes and brackets. -/
def strFind (needleList quoteChars : List UInt8) : ScanState → List UInt8 → Except Crash (Option ℕ)
  | _, [] => .ok none
  | s, c :: rest =>
    if c = BACKSLASH then
      match rest with
      | [] => .error .overrun
      | _ :: rest => (strFind needleList quoteChars s rest).map (Option.map (· + 2))
    else
      match findStep needleList quoteChars s c with
      | none => .ok (some 0)
      | some s => (strFind needleList quoteChars s rest).map (Option.map (· + 1))

example : strFind [DOLLAR] [SINGLE] {} [BACKSLASH] = .error .overrun := rfl

example : strFind [DOLLAR] [SINGLE] {} [DOLLAR] = .ok (some 0) := rfl

/-- The next token, and where to look for the one after it. -/
def strToken (delimiterList quoteChars : List UInt8) :
    Option (List UInt8) → Except Crash (Option (List UInt8) × Option (List UInt8))
  | none => .ok (none, none)
  | some str =>
    let token := str.dropWhile (delimiterList.contains ·)
    if token = [] then .ok (none, none)
    else
      match strFind delimiterList quoteChars {} token with
      | .error e => .error e
      | .ok none => .ok (some token, none)
      | .ok (some i) => .ok (some (token.take i), some (token.drop (i + 1)))

/-- All the tokens of a line, `fuel` bounding their number. -/
def strTokens : ℕ → Option (List UInt8) → Except Crash (List (List UInt8))
  | 0, _ => .error .endless
  | fuel + 1, strp =>
    match strToken WHITESPACES QUOTES strp with
    | .error e => .error e
    | .ok (none, _) => .ok []
    | .ok (some token, strp) => (strTokens fuel strp).map (token :: ·)

/-! ## Removing the quotes -/

/-- The loop body of `str_canon` for a byte that is no backslash: what is written and the new state. -/
def canonStep (s : ScanState) (c : UInt8) : List UInt8 × ScanState :=
  if s.quote ≠ 0 then
    if c = s.quote then (if s.bracketLevel ≠ 0 then [c] else [], { s with quote := 0 })
    else ([c], s)
  else if isOpening c then ([c], { s with bracketLevel := s.bracketLevel + 1 })
  else if isClosing c then ([c], { s with bracketLevel := s.bracketLevel - 1 })
  else if strchr QUOTES c then (if s.bracketLevel ≠ 0 then [c] else [], { s with quote := c })
  else ([c], s)

def canonLoop : ScanState → List UInt8 → Except Crash (List UInt8)
  | _, [] => .ok []
  | s, c :: rest =>
    if c = BACKSLASH then
      match rest with
      | [] => .error .overrun
      | d :: rest => (canonLoop s rest).map (d :: ·)
    else (canonLoop (canonStep s c).2 rest).map ((canonStep s c).1 ++ ·)

example : canonLoop {} [BACKSLASH] = .error .overrun := rfl

example : canonLoop {} [DOLLAR] = .ok [DOLLAR] := rfl

/-- The string is replaced in its own buffer. -/
def strCanon (str : List UInt8) : Except Crash (List UInt8) :=
  match canonLoop {} str with
  | .error e => .error e
  | .ok out => if out.length ≤ str.length then .ok out else .error .overrun

end Glidix.Sh
