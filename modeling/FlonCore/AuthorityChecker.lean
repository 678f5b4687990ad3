import Mathlib.Data.Finset.Basic
import Mathlib.Logic.Function.Basic
import Mathlib.Order.Lattice
import FlonCore.Names

/-!
# Checking authorities

A permission is satisfied by the keys, permissions and the delay that are provided,
through the authorities of the accounts it names. The checker descends into nested
permissions up to a depth, keeps what it found out about each permission in a cache,
and marks the keys it used; the marks made for an authority that fails are taken back.
-/

namespace FlonCore

structure PermissionLevel where
  actor : AccountName
  permission : PermissionName
deriving DecidableEq, Repr

def PermissionLevel.before (a b : PermissionLevel) : Bool :=
  a.actor < b.actor || (a.actor == b.actor && a.permission < b.permission)

structure PermissionLevelWeight where
  permission : PermissionLevel
  weight : UInt16
deriving DecidableEq, Repr

structure WaitWeight where
  waitSec : UInt32
  weight : UInt16
deriving DecidableEq, Repr

structure Authority (Key : Type) where
  threshold : UInt32
  keys : List (KeyWeight Key)
  accounts : List PermissionLevelWeight
  waits : List WaitWeight
deriving DecidableEq, Repr

def strictlyAscending {α : Type} (before : α → α → Bool) : List α → Bool
  | a :: b :: rest => before a b && strictlyAscending before (b :: rest)
  | _ => true

variable {Key : Type}

def Authority.weights (auth : Authority Key) : List UInt16 :=
  auth.keys.map (·.weight) ++ auth.accounts.map (·.weight) ++ auth.waits.map (·.weight)

def addWeights (total : UInt32) (weights : List UInt16) : UInt32 :=
  weights.foldl (fun total weight => total + weight.toUInt32) total

def Authority.validate [LinearOrder Key] (auth : Authority Key) : Bool :=
  if 2 ^ 16 < auth.keys.length + auth.accounts.length + auth.waits.length then false
  else if auth.threshold = 0 then false
  else
    strictlyAscending (fun a b => decide (a.key < b.key)) auth.keys &&
    strictlyAscending (fun a b => a.permission.before b.permission) auth.accounts &&
    (auth.waits.head?.all fun w => w.waitSec != 0) &&
    strictlyAscending (fun a b => decide (a.waitSec < b.waitSec)) auth.waits &&
    decide (auth.threshold ≤ addWeights 0 auth.weights)

inductive Factor (Key : Type)
  | account (a : PermissionLevelWeight)
  | key (k : KeyWeight Key)
  | wait (w : WaitWeight)
deriving DecidableEq, Repr

namespace Factor

def weight : Factor Key → UInt16
  | .account a => a.weight
  | .key k => k.weight
  | .wait w => w.weight

def priority : Factor Key → ℕ
  | .account _ => 1
  | .key _ => 2
  | .wait _ => 3

def stays (f g : Factor Key) : Bool :=
  g.weight < f.weight || (g.weight == f.weight && g.priority ≤ f.priority)

def addTo (f : Factor Key) (counts : Bool) (total : UInt32) : UInt32 :=
  if counts then total + f.weight.toUInt32 else total

end Factor

def emplaceFactor (permissions : List (Factor Key)) (f : Factor Key) : List (Factor Key) :=
  permissions.takeWhile (·.stays f) ++ f :: permissions.dropWhile (·.stays f)

def Authority.factors (auth : Authority Key) : List (Factor Key) :=
  (auth.accounts.map Factor.account ++ auth.keys.map Factor.key ++
    auth.waits.map Factor.wait).foldl emplaceFactor []

inductive PermissionCacheStatus
  | beingEvaluated
  | permissionUnsatisfied
  | permissionSatisfied
deriving DecidableEq, Repr

abbrev PermissionCache := PermissionLevel → Option PermissionCacheStatus

/-- An entry for the actor without a permission name stands for all its permissions. -/
def permissionStatusInCache (cache : PermissionCache) (level : PermissionLevel) :
    Option PermissionCacheStatus :=
  match cache level with
  | some status => some status
  | none => cache ⟨level.actor, 0⟩

structure AuthorityChecker (Key : Type) where
  permissions : PermissionLevel → Option (Authority Key)
  recursionDepthLimit : UInt16
  providedKeys : Finset Key
  providedPermissions : Finset PermissionLevel
  providedDelay : ℤ

structure CheckerState (Key : Type) where
  cache : PermissionCache
  usedKeys : Finset Key

abbrev Evaluator (Key : Type) := Authority Key → CheckerState Key → Bool × CheckerState Key

namespace AuthorityChecker
variable [DecidableEq Key] (checker : AuthorityChecker Key)

omit [DecidableEq Key] in
def findPermission (level : PermissionLevel) : Except Failure (Option (Authority Key)) := do
  eosAssert (level.actor != 0 && level.permission != 0) .permissionQueryException
    "Failed to retrieve permission: ${level}"
  return checker.permissions level

/-- No authority is found if the lookup throws or finds nothing. -/
def permissionToAuthority (level : PermissionLevel) : Option (Authority Key) :=
  match checker.findPermission level with
  | .ok auth => auth
  | .error _ => none

def initializePermissionCache : PermissionCache := fun level =>
  if level ∈ checker.providedPermissions then some .permissionSatisfied else none

def visitWait (w : WaitWeight) : Bool :=
  decide ((w.waitSec.toNat : ℤ) * 1000000 ≤ checker.providedDelay)

def visitKey (key : Key) (s : CheckerState Key) : Bool × CheckerState Key :=
  if key ∈ checker.providedKeys then (true, { s with usedKeys := insert key s.usedKeys })
  else (false, s)

/-- A permission that is being evaluated counts as not satisfied. The evaluator is absent
at the recursion depth limit. -/
def visitPermission (nested : Option (Evaluator Key)) (level : PermissionLevel)
    (s : CheckerState Key) : Bool × CheckerState Key :=
  match permissionStatusInCache s.cache level with
  | some status => (status == .permissionSatisfied, s)
  | none =>
    match nested, checker.permissionToAuthority level with
    | some satisfied, some auth =>
      let (r, s') := satisfied auth
        { s with cache := Function.update s.cache level (some .beingEvaluated) }
      let status := if r then .permissionSatisfied else .permissionUnsatisfied
      (r, { s' with cache := Function.update s'.cache level (some status) })
    | _, _ => (false, s)

def visit (nested : Option (Evaluator Key)) (f : Factor Key) (s : CheckerState Key) :
    Bool × CheckerState Key :=
  match f with
  | .account a => checker.visitPermission nested a.permission s
  | .key k => checker.visitKey k.key s
  | .wait w => (checker.visitWait w, s)

/-- The loop over the factors, which ends when there is enough weight. -/
def tally (nested : Option (Evaluator Key)) (threshold : UInt32) :
    List (Factor Key) → UInt32 → CheckerState Key → Bool × CheckerState Key
  | [], _, s => (false, s)
  | f :: rest, total, s =>
    let (counts, s') := checker.visit nested f s
    let total' := f.addTo counts total
    if threshold ≤ total' then (true, s') else tally nested threshold rest total' s'

def evaluate (nested : Option (Evaluator Key)) : Evaluator Key := fun auth s =>
  let (r, s') := checker.tally nested auth.threshold auth.factors 0 s
  (r, if r then s' else { s' with usedKeys := s.usedKeys })

/-- The check of nested authorities when `n` levels are left. -/
def nested : ℕ → Option (Evaluator Key)
  | 0 => none
  | n + 1 => some (checker.evaluate (nested n))

def satisfied (level : PermissionLevel) (s : CheckerState Key) : Bool × CheckerState Key :=
  checker.visitPermission (checker.nested checker.recursionDepthLimit.toNat) level s

def satisfiedAuthority : Evaluator Key :=
  checker.evaluate (checker.nested checker.recursionDepthLimit.toNat)

def satisfiedAlone (level : PermissionLevel) (usedKeys : Finset Key) : Bool × Finset Key :=
  let (r, s) := checker.satisfied level ⟨checker.initializePermissionCache, usedKeys⟩
  (r, s.usedKeys)

/-- The loop of `get_required_keys` over the declared authorizations. -/
def requireAll : List PermissionLevel → Finset Key → Except Failure (Finset Key)
  | [], usedKeys => .ok usedKeys
  | level :: rest, usedKeys => do
    let (r, usedKeys') := checker.satisfiedAlone level usedKeys
    eosAssert r .unsatisfiedAuthorization
      "transaction declares authority '${auth}', but does not have signatures for it."
    requireAll rest usedKeys'

def getRequiredKeys (declared : List PermissionLevel) : Except Failure (Finset Key) :=
  { checker with providedPermissions := ∅ }.requireAll declared ∅

/-- The loop of `check_authorization` over the permissions to satisfy and their delays. -/
def checkAll (checkButDontFail : Bool) :
    List (PermissionLevel × ℤ) → Finset Key → Except Failure (Finset Key)
  | [], usedKeys => .ok usedKeys
  | (level, delay) :: rest, usedKeys => do
    let (r, usedKeys') := { checker with providedDelay := delay }.satisfiedAlone level usedKeys
    eosAssert (r || checkButDontFail) .unsatisfiedAuthorization
      ("transaction declares authority '${auth}', " ++
        "but does not have signatures for it under a provided delay of ${provided_delay} ms, " ++
        "provided permissions ${provided_permissions}, provided keys ${provided_keys}, " ++
        "and a delay max limit of ${delay_max_limit_ms} ms")
    checkAll checkButDontFail rest usedKeys'

/-- The end of `check_authorization`, which checks the permissions that were collected. -/
def checkAuthorization (permissionsToSatisfy : List (PermissionLevel × ℤ))
    (allowUnusedKeys checkButDontFail : Bool) : Except Failure Unit := do
  let usedKeys ← checker.checkAll checkButDontFail permissionsToSatisfy ∅
  if allowUnusedKeys then return ()
  else
    eosAssert (decide (checker.providedKeys ⊆ usedKeys) || checkButDontFail) .txIrrelevantSig
      "transaction bears irrelevant signatures from these keys: ${keys}"

end AuthorityChecker
end FlonCore
