import FlonCore.NativeActions
import FlonCore.Library.Outcome

/-!
# Checking the authorizations of a transaction

Before a transaction runs, each of its actions has to declare an authorization that is
at or above the least permission the action needs, and the declared authorizations have
to be satisfied by the keys and the delay of the transaction. All of this is checked on
the tables as they are before the first action.
-/

namespace FlonCore
open Library

structure AuthorizationConfig where
  maxTransactionDelay : UInt32
  maxAuthorityDepth : UInt16
  fixLinkauthRestriction : Bool
deriving DecidableEq, Repr

def updateauthName : ActionName := stringToName "updateauth"
def deleteauthName : ActionName := stringToName "deleteauth"
def linkauthName : ActionName := stringToName "linkauth"
def unlinkauthName : ActionName := stringToName "unlinkauth"
def canceldelayName : ActionName := stringToName "canceldelay"

def unlinkableNames : List ActionName :=
  [updateauthName, deleteauthName, linkauthName, unlinkauthName, canceldelayName]

namespace NativeDb
variable {Key : Type} (db : NativeDb Key)

def lookupLinkedPermission (account scope : AccountName) (actName : ActionName) :
    Option PermissionName :=
  match db.links.find (account, scope, actName) with
  | some link => some link.2.requiredPermission
  | none => (db.links.find (account, scope, 0)).map fun link => link.2.requiredPermission

def checkMinimumLookup (scope : AccountName) (actName : ActionName) : Except Failure Unit :=
  if scope = systemAccountName then
    eosAssert (actName ∉ unlinkableNames) .unlinkableMinPermissionAction
      ("cannot call lookup_minimum_permission on native actions that are not allowed to be " ++
        "linked to minimum permissions")
  else .ok ()

/-- No permission is needed where any is enough. -/
def lookupMinimumPermission (account scope : AccountName) (actName : ActionName) :
    Except Failure (Option PermissionName) := do
  checkMinimumLookup scope actName
  match db.lookupLinkedPermission account scope actName with
  | none => return some activeName
  | some linked => return if linked = eosioAnyName then none else some linked

def onlyDeclared (account : AccountName) (auths : List PermissionLevel) (single actor : String) :
    Except Failure PermissionLevel :=
  match auths with
  | [auth] => do
    eosAssert (auth.actor == account) .irrelevantAuthException actor
    return auth
  | _ => .error ⟨.irrelevantAuthException, single⟩

def checkSatisfies (auth : PermissionLevel) (minPermission : ℕ × PermissionObject Key)
    (message : String) : Outcome Failure Unit := do
  let permission ← .ofExcept (db.getPermission auth)
  let satisfied ← .ofOption
    (satisfies db.permissions db.permissions.nextId permission minPermission)
  .ofExcept (eosAssert satisfied .irrelevantAuthException message)

def minimumForUpdate (update : UpdateAuth Key) : Except Failure (ℕ × PermissionObject Key) := do
  match ← db.findPermission ⟨update.account, update.permission⟩ with
  | some permission => return permission
  | none => db.getPermission ⟨update.account, update.parent⟩

def checkUpdateauthAuthorization (update : UpdateAuth Key) (auths : List PermissionLevel) :
    Outcome Failure Unit := do
  let auth ← .ofExcept (onlyDeclared update.account auths
    "updateauth action should only have one declared authorization"
    ("the owner of the affected permission needs to be the actor of the declared " ++
      "authorization"))
  let minPermission ← .ofExcept (db.minimumForUpdate update)
  db.checkSatisfies auth minPermission
    "updateauth action declares irrelevant authority '${auth}'; minimum authority is ${min}"

def checkDeleteauthAuthorization (remove : DeleteAuth) (auths : List PermissionLevel) :
    Outcome Failure Unit := do
  let auth ← .ofExcept (onlyDeclared remove.account auths
    "deleteauth action should only have one declared authorization"
    ("the owner of the permission to delete needs to be the actor of the declared " ++
      "authorization"))
  let minPermission ← .ofExcept (db.getPermission ⟨remove.account, remove.permission⟩)
  db.checkSatisfies auth minPermission
    "updateauth action declares irrelevant authority '${auth}'; minimum authority is ${min}"

variable (config : AuthorizationConfig)

/-- Before the protocol feature, actions of other contracts with these names could not be
linked either. -/
def checkLinkType (link : LinkAuth) : Except Failure Unit :=
  if link.code = systemAccountName ∨ config.fixLinkauthRestriction = false then do
    eosAssert (link.type != updateauthName) .actionValidateException
      "Cannot link eosio::updateauth to a minimum permission"
    eosAssert (link.type != deleteauthName) .actionValidateException
      "Cannot link eosio::deleteauth to a minimum permission"
    eosAssert (link.type != linkauthName) .actionValidateException
      "Cannot link eosio::linkauth to a minimum permission"
    eosAssert (link.type != unlinkauthName) .actionValidateException
      "Cannot link eosio::unlinkauth to a minimum permission"
    eosAssert (link.type != canceldelayName) .actionValidateException
      "Cannot link eosio::canceldelay to a minimum permission"
  else .ok ()

/-- The end of both checks for links; without a name, any permission is enough. -/
def checkLinked (account : AccountName) (auth : PermissionLevel) (linked : Option PermissionName)
    (message : String) : Outcome Failure Unit :=
  match linked with
  | none => .returns ()
  | some name => do
    let minPermission ← .ofExcept (db.getPermission ⟨account, name⟩)
    db.checkSatisfies auth minPermission message

def checkLinkauthAuthorization (link : LinkAuth)
    (auths : List PermissionLevel) : Outcome Failure Unit := do
  let auth ← .ofExcept (onlyDeclared link.account auths
    "link action should only have one declared authorization"
    ("the owner of the linked permission needs to be the actor of the declared " ++
      "authorization"))
  .ofExcept (checkLinkType config link)
  let linked ← .ofExcept (db.lookupMinimumPermission link.account link.code link.type)
  db.checkLinked link.account auth linked
    "link action declares irrelevant authority '${auth}'; minimum authority is ${min}"

def unlinkedPermission (unlink : UnlinkAuth) : Except Failure (Option PermissionName) :=
  match db.lookupLinkedPermission unlink.account unlink.code unlink.type with
  | none => .error ⟨.transactionException, "cannot unlink non-existent permission link of " ++
      "account '${account}' for actions matching '${code}::${action}'"⟩
  | some linked => .ok (if linked = eosioAnyName then none else some linked)

def checkUnlinkauthAuthorization (unlink : UnlinkAuth) (auths : List PermissionLevel) :
    Outcome Failure Unit := do
  let auth ← .ofExcept (onlyDeclared unlink.account auths
    "unlink action should only have one declared authorization"
    ("the owner of the linked permission needs to be the actor of the declared " ++
      "authorization"))
  let linked ← .ofExcept (db.unlinkedPermission unlink)
  db.checkLinked unlink.account auth linked
    "unlink action declares irrelevant authority '${auth}'; minimum authority is ${min}"

section Transactions

def NativeAction.name : NativeAction Key → ActionName
  | .newaccount _ => stringToName "newaccount"
  | .setcode _ => stringToName "setcode"
  | .setabi _ => stringToName "setabi"
  | .updateauth _ => updateauthName
  | .deleteauth _ => deleteauthName
  | .linkauth _ => linkauthName
  | .unlinkauth _ => unlinkauthName

def checkSpecialCase (auths : List PermissionLevel) : NativeAction Key → Outcome Failure Unit
  | .updateauth update => db.checkUpdateauthAuthorization update auths
  | .deleteauth remove => db.checkDeleteauthAuthorization remove auths
  | .linkauth link => db.checkLinkauthAuthorization config link auths
  | .unlinkauth unlink => db.checkUnlinkauthAuthorization unlink auths
  | _ => .returns ()

def checkDeclared (action : NativeAction Key) (auth : PermissionLevel) : Outcome Failure Unit :=
  match action with
  | .updateauth _ | .deleteauth _ | .linkauth _ | .unlinkauth _ => .returns ()
  | _ => do
    let minimum ← .ofExcept (db.lookupMinimumPermission auth.actor systemAccountName action.name)
    db.checkLinked auth.actor auth minimum
      "action declares irrelevant authority '${auth}'; minimum authority is ${min}"

def emplaceDelay (level : PermissionLevel) (delay : ℤ) :
    List (PermissionLevel × ℤ) → List (PermissionLevel × ℤ)
  | [] => [(level, delay)]
  | (l, d) :: rest =>
    if l = level then (l, if delay < d then delay else d) :: rest
    else if level.before l then (level, delay) :: (l, d) :: rest
    else (l, d) :: emplaceDelay level delay rest

variable (config : AuthorizationConfig) (satisfiedAuthorizations : Finset PermissionLevel)
  (delay : ℤ)

/-- The inner loop, over the authorizations that an action declares. -/
def collectDeclared (action : NativeAction Key) :
    List PermissionLevel → List (PermissionLevel × ℤ) →
    Outcome Failure (List (PermissionLevel × ℤ))
  | [], permissionsToSatisfy => .returns permissionsToSatisfy
  | auth :: rest, permissionsToSatisfy => do
    db.checkDeclared action auth
    collectDeclared action rest
      (if auth ∈ satisfiedAuthorizations then permissionsToSatisfy
        else emplaceDelay auth delay permissionsToSatisfy)

def collectActions : List (DeclaredAction Key) → List (PermissionLevel × ℤ) →
    Outcome Failure (List (PermissionLevel × ℤ))
  | [], permissionsToSatisfy => .returns permissionsToSatisfy
  | a :: rest, permissionsToSatisfy => do
    db.checkSpecialCase config a.authorization a.data
    let permissionsToSatisfy ← db.collectDeclared satisfiedAuthorizations delay a.data
      a.authorization permissionsToSatisfy
    collectActions rest permissionsToSatisfy

/-- `fc::microseconds::maximum()` -/
def maximumMicroseconds : ℤ := 2 ^ 63 - 1

def effectiveDelay (providedDelay : ℤ) : ℤ :=
  if (config.maxTransactionDelay.toNat : ℤ) * 1000000 ≤ providedDelay then maximumMicroseconds
  else providedDelay

def checkAuthorization [DecidableEq Key] (actions : List (DeclaredAction Key))
    (providedKeys : Finset Key) (providedPermissions : Finset PermissionLevel)
    (providedDelay : ℤ) (allowUnusedKeys checkButDontFail : Bool) : Outcome Failure Unit := do
  let checker : AuthorityChecker Key :=
    { permissions := fun level => (db.permissions.find level).map fun p => p.2.auth
      recursionDepthLimit := config.maxAuthorityDepth
      providedKeys, providedPermissions
      providedDelay := effectiveDelay config providedDelay }
  let permissionsToSatisfy ← db.collectActions config satisfiedAuthorizations
    (effectiveDelay config providedDelay) actions []
  .ofExcept (checker.checkAuthorization permissionsToSatisfy allowUnusedKeys checkButDontFail)

end Transactions
end NativeDb
end FlonCore
