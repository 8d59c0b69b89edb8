import Mathlib.Data.List.TakeWhile
import Glidix.Libc.Numeral

/-!
# Internet addresses as text

A string is the list of the bytes that may be read, its terminator the last of them, and a function
that reads behind them answers `none`.  The groups of an IPv6 address are numbers: the bytes are
swapped where the text is read and where it is written.
-/

namespace Glidix.Libc.Inet

abbrev DOT : UInt8 := 0x2E
abbrev COLON : UInt8 := 0x3A

def INET_ADDRSTRLEN : ℕ := 16
def INET6_ADDRSTRLEN : ℕ := 82

/-- `::` -/
def GAP : List UInt8 := [COLON, COLON]

/-- `::ffff:` -/
def MAPPED : List UInt8 := [COLON, COLON, 0x66, 0x66, 0x66, 0x66, COLON]

/-- A value that is stored into an `int`. -/
def int32 (v : ℤ) : ℤ := (v + 2 ^ 31) % 2 ^ 32 - 2 ^ 31

/-- `memcmp(src, text, strlen(text)) == 0`, which stops at the first difference. -/
def memcmpEq : List UInt8 → List UInt8 → Option Bool
  | [], _ => some true
  | _ :: _, [] => none
  | c :: text, d :: src => if c = d then memcmpEq text src else some false

/-! ## Addresses to text -/

/-- `"%d.%d.%d.%d"`. -/
def quadText (src : List UInt8) : List UInt8 :=
  List.intercalate [DOT] (src.map fun byte => numeral 10 byte.toNat)

def inet_ntop4 (src : List UInt8) (size : ℕ) : Option (List UInt8) :=
  if size < INET_ADDRSTRLEN then none else some (quadText src)

/-- The two bytes of a group. -/
def groupBytes (group : UInt16) : List UInt8 :=
  [UInt8.ofNat (group.toNat / 256), UInt8.ofNat (group.toNat % 256)]

def is_4map6_addr (src : List UInt16) : Bool := src.take 6 = [0, 0, 0, 0, 0, 0xFFFF]

/-- The trail of zeroes that starts at a group. -/
def trailSize (src : List UInt16) (i : ℕ) : ℕ := ((src.drop i).takeWhile (· = 0)).length

/-- The first of the longest trails: where it starts, `-1` when there is none, and its size. -/
def longestTrail (src : List UInt16) : ℤ × ℕ :=
  (List.range 8).foldl (fun found i =>
    if found.2 < trailSize src i then ((i : ℤ), trailSize src i) else found) (-1, 0)

/-- What one turn of the loop over the groups appends. -/
def groupText (idxStartTrail : ℤ) (sizeTrail : ℕ) (i : ℕ) (group : UInt16) : List UInt8 :=
  (if (i : ℤ) < idxStartTrail ∨ idxStartTrail + sizeTrail ≤ i then
    numeral 16 group.toNat ++ (if (i : ℤ) ≠ idxStartTrail - 1 ∧ i ≠ 7 then [COLON] else [])
  else []) ++ if (i : ℤ) = idxStartTrail - 1 then GAP else []

def inet_ntop6 (src : List UInt16) (size : ℕ) : Option (List UInt8) :=
  if size < INET6_ADDRSTRLEN then none
  else if is_4map6_addr src then
    some (MAPPED ++ quadText ((src.drop 6).flatMap groupBytes))
  else
    let (idxStartTrail, sizeTrail) := longestTrail src
    some ((if idxStartTrail = 0 then GAP else []) ++
      (src.mapIdx (groupText idxStartTrail sizeTrail)).flatten)

/-! ## Text to addresses -/

/-- The loop of `inet_pton4`: the bytes found, and the number that is being read. -/
def pton4Loop : List UInt8 → ℤ → List UInt8 → Option (Option (List UInt8))
  | _, _, [] => none
  | dst, nextNum, c :: src =>
    if isDigit 10 c then pton4Loop dst (int32 (nextNum * 10 + (c.toNat - 0x30 : ℤ))) src
    else if 255 < nextNum then some none
    else
      let dst := dst ++ [UInt8.ofNat (nextNum % 256).toNat]
      if dst.length = 4 then (if c ≠ 0 then some none else some (some dst))
      else if c ≠ DOT then some none
      else pton4Loop dst 0 src

def inet_pton4 (src : List UInt8) : Option (Option (List UInt8)) := pton4Loop [] 0 src

/-- A group of 1 to 4 digits, and what follows it. -/
def nextgroupLoop : ℕ → ℕ → List UInt8 → Option (Option (UInt16 × List UInt8))
  | _, _, [] => none
  | count, result, c :: src =>
    if c = 0 then some (if count = 0 then none else some (UInt16.ofNat result, c :: src))
    else
      match digitOf c with
      | some digit =>
        if digit < 16 then
          if count = 4 then some none else nextgroupLoop (count + 1) (result * 16 + digit) src
        else some (if count = 0 then none else some (UInt16.ofNat result, c :: src))
      | none => some (if count = 0 then none else some (UInt16.ofNat result, c :: src))

def inet6_nextgroup (src : List UInt8) : Option (Option (UInt16 × List UInt8)) :=
  nextgroupLoop 0 0 src

/-- The groups before and behind `::`, and which of them are being read. -/
structure Groups where
  start : List UInt16
  stop : List UInt16
  gap : Bool

def Groups.add (groups : Groups) (group : UInt16) : Option Groups :=
  if groups.gap then
    if groups.stop.length = 8 then none else some { groups with stop := groups.stop ++ [group] }
  else
    if groups.start.length = 8 then none else some { groups with start := groups.start ++ [group] }

def groupsLoop : ℕ → Groups → List UInt8 → Option (Option Groups)
  | 0, _, _ => none
  | fuel + 1, groups, src => do
    let some (group, src) ← inet6_nextgroup src | return none
    let some groups := groups.add group | return none
    let c ← src.head?
    if c = 0 then return some groups
    else if ← memcmpEq GAP src then
      if groups.gap then return none
      else
        let src := src.drop 2
        let d ← src.head?
        if d = 0 then return some { groups with gap := true }
        else groupsLoop fuel { groups with gap := true } src
    else if c ≠ COLON then return none
    else groupsLoop fuel groups src.tail

/-- The groups of an address, with zeroes between the two lists. -/
def Groups.address (groups : Groups) : List UInt16 :=
  groups.start ++ List.replicate (8 - (groups.start.length + groups.stop.length)) 0 ++ groups.stop

/-- An IPv4 address as the end of a mapped one. -/
def mapped (quad : List UInt8) : List UInt16 :=
  [0, 0, 0, 0, 0, 0xFFFF, UInt16.ofNat ((quad.getD 0 0).toNat * 256 + (quad.getD 1 0).toNat),
    UInt16.ofNat ((quad.getD 2 0).toNat * 256 + (quad.getD 3 0).toNat)]

/-- The general case, behind the three special ones. -/
def ptonGroups (src : List UInt8) : Option (Option (List UInt16)) := do
  let leading ← memcmpEq GAP src
  let src := if leading then src.drop 2 else src
  let some groups ← groupsLoop (src.length + 1) ⟨[], [], leading⟩ src | return none
  if 8 < groups.start.length + groups.stop.length then return none
  else return some groups.address

def inet_pton6 (src : List UInt8) : Option (Option (List UInt16)) := do
  if let some quad ← inet_pton4 src then return some (mapped quad)
  else if ← memcmpEq (GAP ++ [0]) src then return some (List.replicate 8 0)
  else if ← memcmpEq MAPPED src then
    if let some quad ← inet_pton4 (src.drop 7) then return some (mapped quad) else ptonGroups src
  else ptonGroups src

end Glidix.Libc.Inet
