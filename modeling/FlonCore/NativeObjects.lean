import FlonCore.AuthorityChecker
import FlonCore.Library.Table

/-!
# Accounts, permissions, links and code

The objects that the native actions create and change, the tables they are in, and the
lookups of the authorization manager. RAM that is billed for them is kept as the sum of
the deltas charged to each account.
-/

namespace FlonCore
open Library

section Objects
variable (Key : Type)

/-- The parent is an id; the id 0 is reserved and stands for no parent. -/
structure PermissionObject where
  parent : ℕ
  owner : AccountName
  name : PermissionName
  lastUpdated : ℤ
  auth : Authority Key
deriving DecidableEq, Repr

variable {Key}

def PermissionObject.level (p : PermissionObject Key) : PermissionLevel := ⟨p.owner, p.name⟩

def PermissionObject.withAuth (auth : Authority Key) (time : ℤ) (p : PermissionObject Key) :
    PermissionObject Key := { p with auth, lastUpdated := time }

theorem PermissionObject.withAuth_level (auth : Authority Key) (time : ℤ)
    (p : PermissionObject Key) : (p.withAuth auth time).level = p.level := rfl

structure PermissionLinkObject where
  (account code : AccountName)
  messageType : ActionName
  requiredPermission : PermissionName
deriving DecidableEq, Repr

def PermissionLinkObject.actionName (l : PermissionLinkObject) :
    AccountName × AccountName × ActionName := (l.account, l.code, l.messageType)

def PermissionLinkObject.withRequirement (requirement : PermissionName)
    (l : PermissionLinkObject) : PermissionLinkObject :=
  { l with requiredPermission := requirement }

theorem PermissionLinkObject.withRequirement_actionName (requirement : PermissionName)
    (l : PermissionLinkObject) : (l.withRequirement requirement).actionName = l.actionName := rfl

structure AccountObject where
  name : AccountName
  creationDate : ℤ
  abi : List UInt8
deriving DecidableEq, Repr

def AccountObject.withAbi (abi : List UInt8) (a : AccountObject) : AccountObject := { a with abi }

theorem AccountObject.withAbi_name (abi : List UInt8) (a : AccountObject) :
    (a.withAbi abi).name = a.name := rfl

structure AccountMetadataObject where
  name : AccountName
  (codeSequence abiSequence : UInt64)
  codeHash : Digest
  lastCodeUpdate : ℤ
  privileged : Bool
  (vmType vmVersion : UInt8)
deriving DecidableEq, Repr

def AccountMetadataObject.withCode (codeHash : Digest) (vmType vmVersion : UInt8) (time : ℤ)
    (a : AccountMetadataObject) : AccountMetadataObject :=
  { a with
    codeSequence := a.codeSequence + 1, codeHash, vmType, vmVersion, lastCodeUpdate := time }

theorem AccountMetadataObject.withCode_name (codeHash : Digest) (vmType vmVersion : UInt8)
    (time : ℤ) (a : AccountMetadataObject) :
    (a.withCode codeHash vmType vmVersion time).name = a.name := rfl

def AccountMetadataObject.nextAbi (a : AccountMetadataObject) : AccountMetadataObject :=
  { a with abiSequence := a.abiSequence + 1 }

theorem AccountMetadataObject.nextAbi_name (a : AccountMetadataObject) :
    a.nextAbi.name = a.name := rfl

structure CodeObject where
  codeHash : Digest
  code : List UInt8
  codeRefCount : UInt64
  firstBlockUsed : ℕ
  (vmType vmVersion : UInt8)
deriving DecidableEq, Repr

variable (c : CodeObject)

def CodeObject.hashKey : Digest × UInt8 × UInt8 :=
  (c.codeHash, c.vmType, c.vmVersion)

def CodeObject.released : CodeObject :=
  { c with codeRefCount := c.codeRefCount - 1 }

def CodeObject.acquired : CodeObject :=
  { c with codeRefCount := c.codeRefCount + 1 }

theorem CodeObject.released_hashKey : c.released.hashKey = c.hashKey := rfl
theorem CodeObject.acquired_hashKey : c.acquired.hashKey = c.hashKey := rfl

end Objects

variable {Key : Type}

def billableAlignment : ℕ := 16

/-- `billable_size_v`: sizes are rounded up to the alignment. -/
def billableSizeV (value : ℕ) : ℕ :=
  (value + billableAlignment - 1) / billableAlignment * billableAlignment

def overheadPerRowPerIndexRamBytes : ℕ := 32
def overheadPerAccountRamBytes : ℕ := 2 * 1024
def setcodeRamBytesMultiplier : ℕ := 10
def fixedOverheadSharedVectorRamBytes : ℕ := 16

def sharedAuthoritySize : ℕ := 3 * fixedOverheadSharedVectorRamBytes + 4

def permissionObjectSize : ℕ :=
  billableSizeV (billableSizeV sharedAuthoritySize + 64 + 5 * overheadPerRowPerIndexRamBytes)

def permissionLinkObjectSize : ℕ := billableSizeV (40 + overheadPerRowPerIndexRamBytes * 3)

def Authority.billableSize (packSize : Key → ℕ) (auth : Authority Key) : ℕ :=
  auth.accounts.length * billableSizeV 24 + auth.waits.length * billableSizeV 16 +
    (auth.keys.map fun k => billableSizeV 8 + packSize k.key).sum

structure Externals (Key : Type) where
  (keyWhich packSize : Key → ℕ)
  sha256 : List UInt8 → Digest
  validateWasm : List UInt8 → Except Failure Unit

structure ApplyContext (Key : Type) where
  isReadOnly : Bool
  authorization : List PermissionLevel
  (enforceWhiteblacklist isSpeculativeBlock : Bool)
  keyBlacklist : List Key
  pendingBlockTime : ℤ
  headBlockNum : ℕ
  maxTransactionDelay : UInt32
  numSupportedKeyTypes : ℕ
  onlyLinkToExistingPermission : Bool

structure NativeDb (Key : Type) where
  accounts : Table AccountObject.name
  metadata : Table AccountMetadataObject.name
  permissions : Table (@PermissionObject.level Key)
  links : Table PermissionLinkObject.actionName
  codes : Table CodeObject.hashKey
  ramDeltas : AccountName → ℤ

namespace NativeDb
variable (db : NativeDb Key)

/-- `create` fails if a unique index has an equal key. -/
def createRow {α κ : Type} {key : α → κ} [DecidableEq κ] (t : Table key) (a : α) :
    Except Failure (Table key) :=
  match t.create a with
  | some t' => .ok t'
  | none => .error ⟨.uniquenessViolated,
      "could not insert object, most likely a uniqueness constraint was violated"⟩

def addRamUsage (account : AccountName) (delta : ℤ) : NativeDb Key :=
  { db with ramDeltas := Function.update db.ramDeltas account (db.ramDeltas account + delta) }

/-- The loop up the parents of `other`. It stops when the id or the root is found; a parent
that is not found is an invalid reference, and the loop may not end. -/
def satisfiesLoop (permissions : Table (@PermissionObject.level Key)) (id : ℕ) :
    ℕ → PermissionObject Key → Option Bool
  | 0, _ => none
  | n + 1, parent =>
    if id = parent.parent then some true
    else if parent.parent = 0 then some false
    else (permissions.get parent.parent).bind (satisfiesLoop permissions id n)

def satisfies (permissions : Table (@PermissionObject.level Key)) (n : ℕ)
    (permission other : ℕ × PermissionObject Key) : Option Bool :=
  if permission.2.owner ≠ other.2.owner then some false
  else if permission.1 = other.1 ∨ permission.1 = other.2.parent then some true
  else (permissions.get other.2.parent).bind (satisfiesLoop permissions permission.1 n)

section Permissions

variable (level : PermissionLevel)

def invalidLevel : Bool := level.actor == 0 || level.permission == 0

def failedToRetrieve : Failure :=
  ⟨.permissionQueryException, "Failed to retrieve permission: ${level}"⟩

def findPermission : Except Failure (Option (ℕ × PermissionObject Key)) :=
  if invalidLevel level then .error failedToRetrieve else .ok (db.permissions.find level)

def getPermission : Except Failure (ℕ × PermissionObject Key) :=
  if invalidLevel level then .error failedToRetrieve
  else
    match db.permissions.find level with
    | some permission => .ok permission
    | none => .error failedToRetrieve

variable (ext : Externals Key) (context : ApplyContext Key)

def checkKeyTypes (auth : Authority Key) (message : String) : Except Failure Unit :=
  auth.keys.forM fun k =>
    eosAssert (ext.keyWhich k.key < context.numSupportedKeyTypes) .unactivatedKeyType message

def createPermission (account : AccountName) (name : PermissionName) (parent : ℕ)
    (auth : Authority Key) (creationTime : ℤ) : Except Failure (ℕ × NativeDb Key) := do
  checkKeyTypes ext context auth "Unactivated key type used when creating permission"
  let permissions ← createRow db.permissions ⟨parent, account, name, creationTime, auth⟩
  return (db.permissions.nextId, { db with permissions })

def modifyPermission (id : ℕ) (auth : Authority Key) : Except Failure (NativeDb Key) := do
  checkKeyTypes ext context auth "Unactivated key type used when modifying permission"
  return { db with
    permissions := db.permissions.modify id (.withAuth auth context.pendingBlockTime)
      (PermissionObject.withAuth_level _ _) }

def removePermission (id : ℕ) : Except Failure (NativeDb Key) := do
  eosAssert (!db.permissions.rows.any fun r => r.2.parent == id) .actionValidateException
    "Cannot remove a permission which has children. Remove the children first."
  return { db with permissions := db.permissions.remove id }

end Permissions
end NativeDb
end FlonCore
