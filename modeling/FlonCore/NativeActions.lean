import FlonCore.NativeObjects

/-!
# The native actions

The handlers of the actions that create accounts, set their code and ABI, and change
their permissions and links. Every handler is given the tables as the actions before it
left them, and throws without an effect or returns the changed tables.
-/

namespace FlonCore
open Library

structure NewAccount (Key : Type) where
  (creator name : AccountName)
  (owner active : Authority Key)
deriving DecidableEq, Repr

structure SetCode where
  account : AccountName
  (vmType vmVersion : UInt8)
  code : List UInt8
deriving DecidableEq, Repr

structure SetAbi where
  account : AccountName
  abi : List UInt8
deriving DecidableEq, Repr

structure UpdateAuth (Key : Type) where
  account : AccountName
  (permission parent : PermissionName)
  auth : Authority Key
deriving DecidableEq, Repr

structure DeleteAuth where
  account : AccountName
  permission : PermissionName
deriving DecidableEq, Repr

structure LinkAuth where
  (account code : AccountName)
  type : ActionName
  requirement : PermissionName
deriving DecidableEq, Repr

structure UnlinkAuth where
  (account code : AccountName)
  type : ActionName
deriving DecidableEq, Repr

/-- The actor is among the declared authorizations, whatever the permission. -/
def ApplyContext.requireAuthorization {Key : Type} (context : ApplyContext Key)
    (account : AccountName) : Except Failure Unit :=
  eosAssert (context.authorization.any fun level => level.actor == account) .missingAuthException
    "missing authority of ${account}"

namespace NativeDb
variable {Key : Type} [LinearOrder Key] (ext : Externals Key) (context : ApplyContext Key)
  (db : NativeDb Key)

def validateAccount (a : PermissionLevelWeight) : Except Failure Unit := do
  eosAssert (db.accounts.find a.permission.actor).isSome .actionValidateException
    "account '${account}' does not exist"
  if a.permission.permission = ownerName ∨ a.permission.permission = activeName ∨
      a.permission.permission = eosioCodeName then
    return ()
  else
    match db.getPermission a.permission with
    | .ok _ => return ()
    | .error _ => .error ⟨.actionValidateException, "permission '${perm}' does not exist"⟩

def validateAuthorityPrecondition (auth : Authority Key) : Except Failure Unit := do
  auth.accounts.forM db.validateAccount
  if context.enforceWhiteblacklist && context.isSpeculativeBlock then
    auth.keys.forM fun k => eosAssert (k.key ∉ context.keyBlacklist) .keyBlacklistException
      "public key '${key}' is on the key blacklist"
  else
    return ()

/-- The end of `newaccount`: both permissions and the RAM for the account. -/
def createAccountPermissions (name : AccountName) (owner active : Authority Key)
    (creationTime : ℤ) : Except Failure (NativeDb Key) := do
  let (ownerId, db) ← db.createPermission ext context name ownerName 0 owner creationTime
  let (_, db) ← db.createPermission ext context name activeName ownerId active creationTime
  return db.addRamUsage name (overheadPerAccountRamBytes + 2 * permissionObjectSize +
    owner.billableSize ext.packSize + active.billableSize ext.packSize)

def applyEosioNewaccount (create : NewAccount Key) : Except Failure (NativeDb Key) := do
  eosAssert (!context.isReadOnly) .actionValidateException
    "newaccount not allowed in read-only transaction"
  context.requireAuthorization create.creator
  eosAssert create.owner.validate .actionValidateException "Invalid owner authority"
  eosAssert create.active.validate .actionValidateException "Invalid active authority"
  eosAssert (create.name != 0) .actionValidateException "account name cannot be empty"
  eosAssert ((nameToString create.name).length ≤ 12) .actionValidateException
    "account names can only be 12 chars long"
  let creator ← getRow (db.metadata.find create.creator)
  eosAssert (creator.2.privileged || !hasSystemPrefix create.name) .actionValidateException
    "only privileged accounts can have names that start with '${p}'"
  eosAssert (db.accounts.find create.name).isNone .accountNameExistsException
    "Cannot create account named ${name}, as that name is already taken"
  let accounts ← createRow db.accounts ⟨create.name, context.pendingBlockTime, []⟩
  let metadata ← createRow db.metadata ⟨create.name, 0, 0, 0, 0, false, 0, 0⟩
  let db := { db with accounts, metadata }
  db.validateAuthorityPrecondition context create.owner
  db.validateAuthorityPrecondition context create.active
  db.createAccountPermissions ext context create.name create.owner create.active
    context.pendingBlockTime

def releaseCode (account : AccountMetadataObject) (codeHash : Digest) :
    Except Failure (ℤ × NativeDb Key) := do
  if account.codeHash = 0 then return (0, db)
  else
    let old ← getRow (db.codes.find (account.codeHash, account.vmType, account.vmVersion))
    eosAssert (old.2.codeHash != codeHash) .setExactCode
      "contract is already running this version of code"
    let codes := if old.2.codeRefCount = 1 then db.codes.remove old.1
      else db.codes.modify old.1 CodeObject.released CodeObject.released_hashKey
    return (old.2.code.length * setcodeRamBytesMultiplier, { db with codes })

def acquireCode (act : SetCode) (codeHash : Digest) : Except Failure (NativeDb Key) := do
  if act.code = [] then return db
  else
    match db.codes.find (codeHash, act.vmType, act.vmVersion) with
    | some new =>
      return { db with
        codes := db.codes.modify new.1 CodeObject.acquired CodeObject.acquired_hashKey }
    | none =>
      let codes ← createRow db.codes
        ⟨codeHash, act.code, 1, context.headBlockNum + 1, act.vmType, act.vmVersion⟩
      return { db with codes }

/-- Zero stands for no code. -/
def codeHashOf (code : List UInt8) : Digest := if code = [] then 0 else ext.sha256 code

def validateCode (code : List UInt8) : Except Failure Unit :=
  if code = [] then .ok () else ext.validateWasm code

def applyEosioSetcode (act : SetCode) : Except Failure (NativeDb Key) := do
  eosAssert (!context.isReadOnly) .actionValidateException
    "setcode not allowed in read-only transaction"
  context.requireAuthorization act.account
  eosAssert (act.vmType == 0) .invalidContractVmType "code should be 0"
  eosAssert (act.vmVersion == 0) .invalidContractVmVersion "version should be 0"
  let codeHash := codeHashOf ext act.code
  validateCode ext act.code
  let account ← getRow (db.metadata.find act.account)
  eosAssert (act.code != [] || account.2.codeHash != 0) .setExactCode "contract is already cleared"
  let newSize : ℤ := act.code.length * setcodeRamBytesMultiplier
  let (oldSize, db) ← db.releaseCode account.2 codeHash
  let db ← db.acquireCode context act codeHash
  let db := { db with
    metadata := db.metadata.modify account.1
      (.withCode codeHash act.vmType act.vmVersion context.pendingBlockTime)
      (AccountMetadataObject.withCode_name _ _ _ _) }
  return if newSize ≠ oldSize then db.addRamUsage act.account (newSize - oldSize) else db

def applyEosioSetabi (act : SetAbi) : Except Failure (NativeDb Key) := do
  eosAssert (!context.isReadOnly) .actionValidateException
    "setabi ot allowed in read-only transaction"
  context.requireAuthorization act.account
  let account ← getRow (db.accounts.find act.account)
  let oldSize : ℤ := account.2.abi.length
  let newSize : ℤ := act.abi.length
  let db := { db with
    accounts := db.accounts.modify account.1 (.withAbi act.abi) (AccountObject.withAbi_name _) }
  let metadata ← getRow (db.metadata.find act.account)
  let db := { db with
    metadata := db.metadata.modify metadata.1 .nextAbi AccountMetadataObject.nextAbi_name }
  return if newSize ≠ oldSize then db.addRamUsage act.account (newSize - oldSize) else db

variable (update : UpdateAuth Key)

def parentId : Except Failure ℕ := do
  if update.permission = ownerName then return 0
  else
    let parent ← db.getPermission ⟨update.account, update.parent⟩
    return parent.1

def checkUpdateauth : Except Failure Unit := do
  eosAssert (update.permission != 0) .actionValidateException
    "Cannot create authority with empty name"
  eosAssert (!hasSystemPrefix update.permission) .actionValidateException
    "Permission names that start with '${p}' are reserved"
  eosAssert (update.permission != update.parent) .actionValidateException
    "Cannot set an authority as its own parent"
  let _ ← getRow (db.accounts.find update.account)
  eosAssert update.auth.validate .actionValidateException "Invalid authority: ${auth}"
  eosAssert (update.permission != activeName || update.parent == ownerName)
    .actionValidateException "Cannot change active authority's parent from owner"
  if update.permission = ownerName then
    eosAssert (update.parent == 0) .actionValidateException "Cannot change owner authority's parent"
  else
    eosAssert (update.parent != 0) .actionValidateException
      "Only owner permission can have empty parent"
  eosAssert (update.auth.waits.getLast?.all fun w => w.waitSec ≤ context.maxTransactionDelay)
    .actionValidateException
    "Cannot set delay longer than max_transacton_delay, which is ${max_delay} seconds"

def applyEosioUpdateauth : Except Failure (NativeDb Key) := do
  eosAssert (!context.isReadOnly) .actionValidateException
    "updateauth not allowed in read-only transaction"
  context.requireAuthorization update.account
  db.checkUpdateauth context update
  db.validateAuthorityPrecondition context update.auth
  let permission ← db.findPermission ⟨update.account, update.permission⟩
  let parent ← db.parentId update
  match permission with
  | some permission =>
    eosAssert (parent == permission.2.parent) .actionValidateException
      "Changing parent authority is not currently supported"
    let oldSize : ℤ := permissionObjectSize + permission.2.auth.billableSize ext.packSize
    let db ← db.modifyPermission ext context permission.1 update.auth
    let newSize : ℤ := permissionObjectSize + update.auth.billableSize ext.packSize
    return db.addRamUsage permission.2.owner (newSize - oldSize)
  | none =>
    let (_, db) ← db.createPermission ext context update.account update.permission parent
      update.auth context.pendingBlockTime
    return db.addRamUsage update.account
      (permissionObjectSize + update.auth.billableSize ext.packSize)

def applyEosioDeleteauth (remove : DeleteAuth) : Except Failure (NativeDb Key) := do
  eosAssert (!context.isReadOnly) .actionValidateException
    "deleteauth not allowed in read-only transaction"
  context.requireAuthorization remove.account
  eosAssert (remove.permission != activeName) .actionValidateException
    "Cannot delete active authority"
  eosAssert (remove.permission != ownerName) .actionValidateException
    "Cannot delete owner authority"
  eosAssert (!db.links.rows.any fun l =>
      l.2.account == remove.account && l.2.requiredPermission == remove.permission)
    .actionValidateException
    ("Cannot delete a linked authority. Unlink the authority first. " ++
      "This authority is linked to ${code}::${type}.")
  let permission ← db.getPermission ⟨remove.account, remove.permission⟩
  let oldSize : ℤ := permissionObjectSize + permission.2.auth.billableSize ext.packSize
  let db ← db.removePermission permission.1
  return db.addRamUsage remove.account (-oldSize)

/-- Before the protocol feature, a permission of any account with that name was enough. -/
def checkRequirement (requirement : LinkAuth) : Except Failure Unit :=
  if requirement.requirement = eosioAnyName then .ok ()
  else
    eosAssert (if context.onlyLinkToExistingPermission then
        (db.permissions.find ⟨requirement.account, requirement.requirement⟩).isSome
      else db.permissions.rows.any fun p => p.2.name == requirement.requirement)
      .permissionQueryException "Failed to retrieve permission: ${permission}"

def applyEosioLinkauth (requirement : LinkAuth) : Except Failure (NativeDb Key) := do
  eosAssert (!context.isReadOnly) .actionValidateException
    "linkauth not allowed in read-only transaction"
  eosAssert (requirement.requirement != 0) .actionValidateException
    "Required permission cannot be empty"
  context.requireAuthorization requirement.account
  eosAssert (db.accounts.find requirement.account).isSome .accountQueryException
    "Failed to retrieve account: ${account}"
  eosAssert (db.accounts.find requirement.code).isSome .accountQueryException
    "Failed to retrieve code for account: ${account}"
  db.checkRequirement context requirement
  match db.links.find (requirement.account, requirement.code, requirement.type) with
  | some link =>
    eosAssert (link.2.requiredPermission != requirement.requirement) .actionValidateException
      "Attempting to update required authority, but new requirement is same as old"
    return { db with
      links := db.links.modify link.1 (.withRequirement requirement.requirement)
        (PermissionLinkObject.withRequirement_actionName _) }
  | none =>
    let links ← createRow db.links
      ⟨requirement.account, requirement.code, requirement.type, requirement.requirement⟩
    return { db with links }.addRamUsage requirement.account permissionLinkObjectSize

def applyEosioUnlinkauth (unlink : UnlinkAuth) : Except Failure (NativeDb Key) := do
  eosAssert (!context.isReadOnly) .actionValidateException
    "unlinkauth not allowed in read-only transaction"
  context.requireAuthorization unlink.account
  match db.links.find (unlink.account, unlink.code, unlink.type) with
  | none =>
    .error ⟨.actionValidateException, "Attempting to unlink authority, but no link found"⟩
  | some link =>
    return { db with links := db.links.remove link.1 }.addRamUsage link.2.account
      (-permissionLinkObjectSize)

inductive NativeAction (Key : Type)
  | newaccount (create : NewAccount Key)
  | setcode (act : SetCode)
  | setabi (act : SetAbi)
  | updateauth (update : UpdateAuth Key)
  | deleteauth (remove : DeleteAuth)
  | linkauth (requirement : LinkAuth)
  | unlinkauth (unlink : UnlinkAuth)
deriving DecidableEq, Repr

def applyAction : NativeAction Key → Except Failure (NativeDb Key)
  | .newaccount create => db.applyEosioNewaccount ext context create
  | .setcode act => db.applyEosioSetcode ext context act
  | .setabi act => db.applyEosioSetabi context act
  | .updateauth update => db.applyEosioUpdateauth ext context update
  | .deleteauth remove => db.applyEosioDeleteauth ext context remove
  | .linkauth requirement => db.applyEosioLinkauth context requirement
  | .unlinkauth unlink => db.applyEosioUnlinkauth context unlink

structure DeclaredAction (Key : Type) where
  authorization : List PermissionLevel
  data : NativeAction Key
deriving DecidableEq, Repr

def applyDeclared (a : DeclaredAction Key) : Except Failure (NativeDb Key) :=
  db.applyAction ext { context with authorization := a.authorization } a.data

def applyActions (db : NativeDb Key) : List (DeclaredAction Key) → Except Failure (NativeDb Key)
  | [] => .ok db
  | a :: rest => do
    let db ← db.applyDeclared ext context a
    applyActions db rest

def createNativeAccount (initialTimestamp : ℤ) (abi : List UInt8) (name : AccountName)
    (owner active : Authority Key) (isPrivileged : Bool) : Except Failure (NativeDb Key) := do
  let accounts ← createRow db.accounts
    ⟨name, initialTimestamp, if name = systemAccountName then abi else []⟩
  let metadata ← createRow db.metadata ⟨name, 0, 0, 0, 0, isPrivileged, 0, 0⟩
  { db with accounts, metadata }.createAccountPermissions ext context name owner active
    initialTimestamp

def initialTables : Except Failure (NativeDb Key) := do
  let permissions ← createRow (Table.empty PermissionObject.level) ⟨0, 0, 0, 0, ⟨0, [], [], []⟩⟩
  return {
    accounts := .empty _, metadata := .empty _, permissions, links := .empty _, codes := .empty _
    ramDeltas := fun _ => 0 }

def systemAuthority (initialKey : Key) : Authority Key := ⟨1, [⟨initialKey, 1⟩], [], []⟩
def emptyAuthority : Authority Key := ⟨1, [], [], []⟩
def producersAuthority : Authority Key := ⟨1, [], [⟨⟨systemAccountName, activeName⟩, 1⟩], []⟩

def initializeDatabase (initialTimestamp : ℤ) (initialKey : Key) (abi : List UInt8) :
    Except Failure (NativeDb Key) := do
  let native := createNativeAccount ext context
  let db ← initialTables
  let db ← native db initialTimestamp abi systemAccountName (systemAuthority initialKey)
    (systemAuthority initialKey) true
  let db ← native db initialTimestamp abi nullAccountName emptyAuthority emptyAuthority false
  let db ← native db initialTimestamp abi producersAccountName emptyAuthority
    producersAuthority false
  let db ← native db initialTimestamp abi gasAccountName emptyAuthority producersAuthority false
  let active ← db.getPermission ⟨producersAccountName, activeName⟩
  let (majority, db) ← db.createPermission ext context producersAccountName
    majorityProducersPermissionName active.1 producersAuthority initialTimestamp
  let (_, db) ← db.createPermission ext context producersAccountName
    minorityProducersPermissionName majority producersAuthority initialTimestamp
  return db

end NativeDb
end FlonCore
