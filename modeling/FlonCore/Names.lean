import Mathlib.Data.List.DropRight
import FlonCore.Types

/-!
# Names

A name is a 64-bit word that holds up to thirteen characters, five bits each from the
highest ones on and four bits for the last. Dots at the end do not count.
-/

namespace FlonCore

abbrev PermissionName := UInt64
abbrev ActionName := UInt64

def charToSymbol (c : Char) : UInt64 :=
  if 'a' ≤ c ∧ c ≤ 'z' then UInt64.ofNat (c.toNat - 'a'.toNat + 6)
  else if '1' ≤ c ∧ c ≤ '5' then UInt64.ofNat (c.toNat - '1'.toNat + 1)
  else 0

/-- The loop over the first twelve characters, of which `i` have been read. -/
def stringToNameLoop : ℕ → List Char → UInt64 → UInt64
  | _, [], n => n
  | 12, c :: _, n => n ||| (charToSymbol c &&& 0x0F)
  | i, c :: rest, n =>
    stringToNameLoop (i + 1) rest
      (n ||| ((charToSymbol c &&& 0x1f) <<< UInt64.ofNat (64 - 5 * (i + 1))))

def stringToName (str : String) : UInt64 := stringToNameLoop 0 str.toList 0

def charmap : List Char := ".12345abcdefghijklmnopqrstuvwxyz".toList

def nameToStringLoop : ℕ → UInt64 → UInt64 → UInt64 → List Char → List Char
  | 0, _, _, _, str => str
  | n + 1, mask, shift, tmp, str =>
    nameToStringLoop n 0x1f 5 (tmp >>> shift) (charmap.getD (tmp &&& mask).toNat '.' :: str)

def nameToString (value : UInt64) : List Char :=
  (nameToStringLoop 13 0x0f 4 value []).rdropWhile (· == '.')

/-- `name::set` -/
def nameSet (str : List Char) : Except Failure UInt64 := do
  eosAssert (str.length ≤ 13) .nameTypeException "Name is longer than 13 characters (${name}) "
  let value := stringToNameLoop 0 str 0
  eosAssert (nameToString value = str) .nameTypeException
    "Name not properly normalized (name: ${name}, normalized: ${normalized}) "
  return value

/-- The loop of `prefix` over the characters that are left, from the last one on. -/
def prefixLoop (value : UInt64) : ℕ → ℕ → UInt64 → Bool → UInt64
  | 0, _, _, _ => value
  | n + 1, offset, mask, notDotSeen =>
    let next := if offset = 0 then 4 else offset + 5
    if (value >>> UInt64.ofNat offset) &&& mask = 0 then
      if notDotSeen then (value >>> UInt64.ofNat offset) <<< UInt64.ofNat offset
      else prefixLoop value n next 0x1f notDotSeen
    else prefixLoop value n next 0x1f true

/-- `name::prefix` -/
def namePrefix (value : UInt64) : UInt64 := prefixLoop value 13 0 0x0f false

def systemNamePrefix : List Char := "flon.".toList
def systemAccountName : AccountName := stringToName "flon"
def nullAccountName : AccountName := stringToName "flon.null"
def producersAccountName : AccountName := stringToName "flon.prods"
def gasAccountName : AccountName := stringToName "flon.gas"
def majorityProducersPermissionName : PermissionName := stringToName "prod.major"
def minorityProducersPermissionName : PermissionName := stringToName "prod.minor"
def activeName : PermissionName := stringToName "active"
def ownerName : PermissionName := stringToName "owner"
def eosioAnyName : PermissionName := stringToName "flon.any"
def eosioCodeName : PermissionName := stringToName "flon.code"

/-- `str.find(prefix) == 0` -/
def hasSystemPrefix (name : UInt64) : Bool := systemNamePrefix.isPrefixOf (nameToString name)

example : nameToString producersAccountName = "flon.prods".toList := by decide +kernel

theorem ownerName_ne_zero : ownerName ≠ 0 := by decide +kernel
theorem activeName_ne_zero : activeName ≠ 0 := by decide +kernel
theorem ownerName_ne_activeName : ownerName ≠ activeName := by decide +kernel

theorem nativeAccounts_ne_zero : systemAccountName ≠ 0 ∧ nullAccountName ≠ 0 ∧
    producersAccountName ≠ 0 ∧ gasAccountName ≠ 0 := by decide +kernel

theorem producersPermissions_ne : majorityProducersPermissionName ≠ 0 ∧
    majorityProducersPermissionName ≠ ownerName ∧ minorityProducersPermissionName ≠ 0 ∧
    minorityProducersPermissionName ≠ ownerName := by decide +kernel

end FlonCore
