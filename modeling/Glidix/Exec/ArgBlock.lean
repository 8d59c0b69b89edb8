import Glidix.Lib.Cstring
import Glidix.Lib.Packed

/-!
# The argument block of a program

`elfExec` scans the block for the arguments and the environment of the new program, writes where each
string will be into `argOffsets`, and copies the block, the auxiliary vector, the offsets and `argc` to the
stack, one below the other.  What it does with the files of the program in between is left out.
-/

namespace Glidix.Exec

open Bytes Cstring

/-! ## Memory of the program -/

structure UserMem where
  bytes : Bytes
  mapped : ℕ → Bool

def ADDR_MIN : ℕ := 0x200000

def ADDR_MAX : ℕ := 0x8000000000

/-- `memcpy_k2u`; it fails at an address that is not mapped. -/
def memcpy_k2u (m : UserMem) (dst : ℕ) (src : List UInt8) : Option UserMem :=
  let stop := (dst + src.length) % 2 ^ 64
  if src.length = 0 then some m
  else if dst < ADDR_MIN ∨ dst ≥ ADDR_MAX then none
  else if stop < ADDR_MIN ∨ stop ≥ ADDR_MAX then none
  else if stop < dst then none
  else if (List.range src.length).all fun k => m.mapped (dst + k) then
    some { m with bytes := setRange m.bytes dst src }
  else none

/-- The memory once the segments of the program are mapped; `elfExec` refuses segments below 0x400000. -/
structure Image extends UserMem where
  above : ∀ a < 0x400000, mapped a = false

/-- The stack of 2 MiB is mapped. -/
def Image.mapStack (image : Image) : UserMem where
  bytes a := if 0x200000 ≤ a ∧ a < 0x400000 then 0 else image.bytes a
  mapped a := decide (0x200000 ≤ a ∧ a < 0x400000) || image.mapped a

/-! ## The scan of the block -/

/-- `argOffsets` up to `totalTokens`, and the other variables of the scan. -/
structure Scan where
  argOffsets : List ℕ
  stillArgs : Bool
  argc : ℕ
  deriving DecidableEq

/-- `argOffsets[totalTokens++] = offset`; `none` if that is outside of the array. -/
def Scan.put (s : Scan) (offset : ℕ) : Option Scan :=
  if s.argOffsets.length < 2048 then some { s with argOffsets := s.argOffsets ++ [offset] } else none

/-- The loop of `elfExec` over the block; `inside` tells whether it is in the inner loop, which looks for
the end of a string. -/
def scanPars (uptrPars : ℕ) : (scan : ℕ) → (inside : Bool) → List UInt8 → Scan → Option Scan
  | _, _, [], s => some s
  | scan, true, c :: pars, s =>
    if c = 0 then scanPars uptrPars (scan + 1) false pars s
    else scanPars uptrPars (scan + 1) true pars s
  | scan, false, c :: pars, s =>
    if c = 0 then
      (s.put 0).bind fun s =>
        if s.stillArgs then scanPars uptrPars (scan + 1) false pars { s with stillArgs := false }
        else some s
    else
      (s.put ((uptrPars + scan) % 2 ^ 64)).bind fun s =>
        scanPars uptrPars (scan + 1) true pars
          { s with argc := if s.stillArgs then s.argc + 1 else s.argc }

/-! ## The stack -/

/-- The difference of two addresses. -/
def back (a n : ℕ) : ℕ := (a + (2 ^ 64 - n)) % 2 ^ 64

/-- Words of 64 bits. -/
def words (ws : List ℕ) : List UInt8 := ws.flatMap (leBytes 8)

def AT_EXECFD : ℕ := 2

/-- The two entries of `auxv`, with the file handle of a program that has an interpreter. -/
def auxv : (execfd : Option ℕ) → List ℕ
  | none => [0, 0, 0, 0]
  | some fd => [AT_EXECFD, fd, 0, 0]

def uptrPars (parsz : ℕ) : ℕ := back 0x400000 parsz / 16 * 16

/-- Copy the block and the vectors to the stack; the stack pointer and the memory. -/
def placeArgs (m : UserMem) (execfd : Option ℕ) (pars : List UInt8) (s : Scan) :
    Option (ℕ × UserMem) := do
  let uptrPars := uptrPars pars.length
  let totalTokens := s.argOffsets.length
  let m ← memcpy_k2u m uptrPars pars
  let uptrAuxv := if totalTokens % 2 = 0 then back (back uptrPars 32) 8 else back uptrPars 32
  let m ← memcpy_k2u m uptrAuxv (words (auxv execfd))
  let uptrList := back uptrAuxv (8 * totalTokens)
  let m ← memcpy_k2u m uptrList (words s.argOffsets)
  let stack := back uptrList 8
  let m ← memcpy_k2u m stack (words [s.argc])
  some (stack, m)

inductive ExecResult where
  /-- The block is refused with `EINVAL`. -/
  | refused
  /-- The scan writes behind the end of `argOffsets`. -/
  | overrun
  | panic
  | started (rsp : ℕ) (m : UserMem)

/-- `elfExec` for a program. -/
def elfExec (image : Image) (execfd : Option ℕ) (pars : List UInt8) : ExecResult :=
  let parsz := pars.length
  if parsz < 4 then .refused
  else if pars.getD (parsz - 1) 0 ≠ 0 ∨ pars.getD (parsz - 2) 0 ≠ 0 then .refused
  else
    match scanPars (uptrPars parsz) 0 false pars ⟨[], true, 0⟩ with
    | none => .overrun
    | some s =>
      match placeArgs image.mapStack execfd pars s with
      | none => .panic
      | some (rsp, m) => .started rsp m

/-! ## Strings of the block -/

/-- The strings of the block up to the first empty one. -/
def argStrings (pars : List UInt8) : List (List UInt8) := (splitStrings [] pars).1

/-- What stands behind the empty string that ends the arguments. -/
def behindArgs (pars : List UInt8) : List UInt8 := (splitStrings [] pars).2.getD []

def envStrings (pars : List UInt8) : List (List UInt8) := (splitStrings [] (behindArgs pars)).1

variable {pars : List UInt8}

/-- A block that ends in two terminators: its arguments, an empty string, and behind that nothing or the
environment and another empty string. -/
theorem block_cases (h : [0, 0] <:+ pars) :
    (∀ s ∈ argStrings pars, IsString s) ∧ pars = terminated (argStrings pars) ++ 0 :: behindArgs pars ∧
      (behindArgs pars ≠ [] → (∀ s ∈ envStrings pars, IsString s) ∧
        ∃ rest, behindArgs pars = terminated (envStrings pars) ++ 0 :: rest) := by
  obtain ⟨behind, hbehind, hend⟩ := @splitStrings_isSome [] pars (.inl h)
  have hget : behindArgs pars = behind := by rw [behindArgs, hbehind, Option.getD_some]
  obtain ⟨hargs, heq⟩ := splitStrings_spec List.not_mem_nil (Prod.ext rfl hbehind)
  rw [hget]
  refine ⟨hargs, heq, fun hne => ?_⟩
  have hend : [0, 0] <:+ behind ∨ [] = ([] : List UInt8) ∧ behind = [0] :=
    (hend.resolve_left hne).symm.imp_right fun h => ⟨rfl, h⟩
  obtain ⟨rest, hrest, -⟩ := splitStrings_isSome hend
  obtain ⟨henvs, heq⟩ := splitStrings_spec List.not_mem_nil (Prod.ext rfl hrest)
  rw [envStrings, hget]
  exact ⟨henvs, rest, heq⟩

end Glidix.Exec
