import Mathlib.Algebra.Order.Ring.Int
import Mathlib.Data.Nat.Bitwise
import Mathlib.Tactic.Common
import Glidix.Lib.Bytes

/-!
# Routes

A packet leaves through the first interface that has a route to its destination.  The address it gets as its source
is looked for separately, before there is a packet, and with the addresses compared word by word instead of byte by
byte.  The two searches end at the same interface and the same route.
-/

namespace Glidix.Net.Routes

/-- `IPRoute4` and `IPRoute6`. -/
structure Route where
  dest : Bytes
  mask : Bytes
  gateway : Bytes
  domain : ℕ

structure IfAddr where
  addr : Bytes
  domain : ℕ

/-- An interface, with its routes and addresses of one family. -/
structure NetIf where
  name : List UInt8
  scopeID : ℕ
  routes : List Route
  addrs : List IfAddr

/-- Sizes of the addresses of the two families. -/
abbrev SIZE4 : ℕ := 4
abbrev SIZE6 : ℕ := 16

def zeroes : Bytes := fun _ => 0

def isMatchingMask (a b mask : Bytes) (count : ℕ) : Bool :=
  (List.range count).all fun i => a i &&& mask i == b i &&& mask i

/-- An empty name is none. -/
def givenName (ifname : Option (List UInt8)) : Option (List UInt8) := ifname.filter (· ≠ [])

def isNamed (ifname : Option (List UInt8)) (netif : NetIf) : Bool :=
  match givenName ifname with
  | none => true
  | some name => name = netif.name

/-! ## Sending -/

/-- The gateway of a route: the destination itself when it is zero. -/
def gatewayOf (size : ℕ) (dest : Bytes) (route : Route) : Bytes :=
  if (List.range size).all fun i => route.gateway i == 0 then dest else route.gateway

/-- Whether `sendPacketEx` may use the interface: only IPv6 destinations have a scope that is not zero. -/
def useThisOne (ifname : Option (List UInt8)) (scope : ℕ) (netif : NetIf) : Bool :=
  isNamed ifname netif && (scope == 0 || scope == netif.scopeID)

/-- The interface and the gateway that `sendPacketEx` hands a complete packet to. -/
def sendVia (size : ℕ) (dontRoute : Bool) (dest : Bytes) (scope : ℕ) (ifname : Option (List UInt8))
    (iflist : List NetIf) : Option (NetIf × Bytes) :=
  iflist.findSome? fun netif =>
    if useThisOne ifname scope netif then
      if dontRoute then some (netif, dest)
      else
        (netif.routes.find? fun route => isMatchingMask route.dest dest route.mask size).map fun route =>
          (netif, gatewayOf size dest route)
    else none

/-! ## Default addresses -/

/-- The first address of the domain. -/
def addrOf (netif : NetIf) (route : Route) : Bytes :=
  match netif.addrs.find? (·.domain == route.domain) with
  | some addr => addr.addr
  | none => zeroes

def getDefaultAddr (matching : Route → Bool) (ifname : Option (List UInt8)) (iflist : List NetIf) : Bytes :=
  (iflist.findSome? fun netif =>
    if isNamed ifname netif then (netif.routes.find? matching).map (addrOf netif) else none).getD zeroes

/-- The comparison of 32-bit words. -/
def matches4 (dest : Bytes) (route : Route) : Bool :=
  Bytes.leNat 4 dest &&& Bytes.leNat 4 route.mask == Bytes.leNat 4 route.dest &&& Bytes.leNat 4 route.mask

/-- The comparison of two 64-bit words. -/
def matches6 (dest : Bytes) (route : Route) : Bool :=
  (dest.getQuad 0 &&& route.mask.getQuad 0 == route.dest.getQuad 0 &&& route.mask.getQuad 0) &&
    (dest.getQuad 1 &&& route.mask.getQuad 1 == route.dest.getQuad 1 &&& route.mask.getQuad 1)

def getDefaultAddr4 (dest : Bytes) (ifname : Option (List UInt8)) (iflist : List NetIf) : Bytes :=
  getDefaultAddr (matches4 dest) ifname iflist

def getDefaultAddr6 (dest : Bytes) (ifname : Option (List UInt8)) (iflist : List NetIf) : Bytes :=
  getDefaultAddr (matches6 dest) ifname iflist

/-! ## Words and bytes -/

section Words

variable {a b mask : Bytes} {n x y k : ℕ}

theorem and_low (hx : x < 256) (hy : y < 256) (A M : ℕ) :
    (x + 256 * A) &&& (y + 256 * M) = (x &&& y) + 256 * (A &&& M) := by
  have hxy : x &&& y < 2 ^ 8 := Nat.and_lt_two_pow x hy
  refine Nat.eq_of_testBit_eq fun j => ?_
  rw [Nat.testBit_and, Nat.add_comm x, Nat.add_comm y, Nat.add_comm (x &&& y)]
  have hleft := Nat.testBit_two_pow_mul_add A (show x < 2 ^ 8 from hx) j
  have hright := Nat.testBit_two_pow_mul_add M (show y < 2 ^ 8 from hy) j
  have hboth := Nat.testBit_two_pow_mul_add (A &&& M) hxy j
  norm_num at hleft hright hboth
  rw [hleft, hright, hboth]
  split_ifs <;> rfl

theorem leNat_and (n : ℕ) (a mask : Bytes) :
    Bytes.leNat n a &&& Bytes.leNat n mask = Bytes.leNat n fun k => a k &&& mask k := by
  induction n generalizing a mask with
  | zero => exact Nat.and_self 0
  | succ n ih =>
    rw [Bytes.leNat, Bytes.leNat, Bytes.leNat, and_low (a 0).toNat_lt (mask 0).toNat_lt, ih, UInt8.toNat_and]

theorem leNat_inj : Bytes.leNat n a = Bytes.leNat n b ↔ ∀ k < n, a k = b k := by
  refine ⟨fun h => ?_, Bytes.leNat_congr⟩
  induction n generalizing a b with
  | zero => exact fun k hk => absurd hk (Nat.not_lt_zero k)
  | succ n ih =>
    have ha := (a 0).toNat_lt
    have hb := (b 0).toNat_lt
    rw [Bytes.leNat, Bytes.leNat] at h
    have hhead : (a 0).toNat = (b 0).toNat := by omega
    have hrest := ih (a := fun k => a (k + 1)) (b := fun k => b (k + 1)) (by omega)
    intro k hk
    cases k with
    | zero => exact UInt8.toNat_inj.1 hhead
    | succ k => exact hrest k (by omega)

/-- A masked comparison of words compares their bytes. -/
theorem word_eq_iff (n : ℕ) (a b mask : Bytes) :
    Bytes.leNat n a &&& Bytes.leNat n mask = Bytes.leNat n b &&& Bytes.leNat n mask ↔
      ∀ k < n, a k &&& mask k = b k &&& mask k := by
  rw [leNat_and, leNat_and, leNat_inj]

theorem isMatchingMask_iff :
    isMatchingMask a b mask n = true ↔ ∀ k < n, a k &&& mask k = b k &&& mask k := by
  simp [isMatchingMask]

end Words

variable {dest : Bytes} {route : Route} {iflist : List NetIf} {ifname : Option (List UInt8)} {netif : NetIf}
  {gateway : Bytes} {size : ℕ} {matching : Route → Bool}

theorem matches4_eq (dest : Bytes) (route : Route) :
    matches4 dest route = isMatchingMask route.dest dest route.mask SIZE4 := by
  rw [Bool.eq_iff_iff, isMatchingMask_iff, matches4, beq_iff_eq, word_eq_iff]
  exact ⟨fun h k hk => (h k hk).symm, fun h k hk => (h k hk).symm⟩

theorem matches6_eq (dest : Bytes) (route : Route) :
    matches6 dest route = isMatchingMask route.dest dest route.mask SIZE6 := by
  rw [Bool.eq_iff_iff, isMatchingMask_iff, matches6, Bool.and_eq_true, beq_iff_eq, beq_iff_eq]
  unfold Bytes.getQuad
  rw [word_eq_iff, word_eq_iff]
  have hsize : SIZE6 = 16 := rfl
  constructor
  · rintro ⟨hlow, hhigh⟩ k hk
    by_cases hk8 : k < 8
    · have hbyte := hlow k hk8
      simpa using hbyte.symm
    · have hbyte := hhigh (k - 8) (by omega)
      have hindex : 8 * 1 + (k - 8) = k := by omega
      rw [hindex] at hbyte
      exact hbyte.symm
  · intro h
    exact ⟨fun k hk => (h _ (by omega)).symm, fun k hk => (h _ (by omega)).symm⟩

/-! ## The two searches -/

/-- What a source address has to do with where its packet goes: it is the address of the interface in the domain of
the route that the gateway is from, and zero when the packet goes nowhere. -/
def SourceFits (size : ℕ) (dest source : Bytes) : Option (NetIf × Bytes) → Prop
  | some (netif, gateway) =>
    ∃ route ∈ netif.routes, (∀ k < size, route.dest k &&& route.mask k = dest k &&& route.mask k) ∧
      gateway = gatewayOf size dest route ∧ source = addrOf netif route
  | none => source = zeroes

/-- One interface at a time: both searches stop at it, or both go on. -/
theorem sourceFits_of_matching (hmatching : ∀ route, matching route = isMatchingMask route.dest dest route.mask size) :
    SourceFits size dest (getDefaultAddr matching ifname iflist) (sendVia size false dest 0 ifname iflist) := by
  have hfun : matching = fun route => isMatchingMask route.dest dest route.mask size := funext hmatching
  induction iflist with
  | nil => rfl
  | cons netif iflist ih =>
    unfold getDefaultAddr sendVia at ih ⊢
    have huse : useThisOne ifname 0 netif = isNamed ifname netif := by simp [useThisOne]
    rw [List.findSome?_cons, List.findSome?_cons, huse, hfun]
    rw [hfun] at ih
    cases isNamed ifname netif with
    | false => exact ih
    | true =>
      cases hfind : netif.routes.find? fun route => isMatchingMask route.dest dest route.mask size with
      | none => exact ih
      | some route =>
        have hmask := List.find?_some hfind
        exact ⟨route, List.mem_of_find?_eq_some hfind, isMatchingMask_iff.1 hmask, rfl, rfl⟩

end Glidix.Net.Routes
