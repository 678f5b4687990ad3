import Mathlib.Data.Fintype.Defs
import FlonCore.Library.Outcome
import FlonCore.NativeActions

/-!
# The tables of contracts

A contract stores rows under a code, a scope and a table name. A table id object is made
with the first row of a table and paid for by who pays for that row; it counts the rows of
the primary index and of the five kinds of secondary indices, and goes with the last one.
Contracts name rows by iterators, which are handed out by a cache in each action.
-/

namespace FlonCore
open Library Function

inductive SecondaryKind
  | idx64
  | idx128
  | idx256
  | idxDouble
  | idxLongDouble
deriving DecidableEq, Repr

inductive RowKind
  | primary
  | secondary (kind : SecondaryKind)
deriving DecidableEq, Repr

instance : Fintype RowKind where
  elems := {.primary, .secondary .idx64, .secondary .idx128, .secondary .idx256,
    .secondary .idxDouble, .secondary .idxLongDouble}
  complete := by
    rintro (_ | (_ | _ | _ | _ | _)) <;> decide

abbrev SecondaryKey : SecondaryKind → Type
  | .idx64 => UInt64
  | .idx128 => BitVec 128
  | .idx256 => BitVec 128 × BitVec 128
  | .idxDouble => UInt64
  | .idxLongDouble => BitVec 128

abbrev Payload : RowKind → Type
  | .primary => List UInt8
  | .secondary kind => SecondaryKey kind

structure TableIdObject where
  code : AccountName
  (scope table : UInt64)
  payer : AccountName
  count : UInt32
deriving DecidableEq, Repr

variable (t : TableIdObject)

def TableIdObject.name : AccountName × UInt64 × UInt64 :=
  (t.code, t.scope, t.table)

def TableIdObject.incremented : TableIdObject :=
  { t with count := t.count + 1 }

def TableIdObject.decremented : TableIdObject :=
  { t with count := t.count - 1 }

theorem TableIdObject.incremented_name : t.incremented.name = t.name := rfl
theorem TableIdObject.decremented_name : t.decremented.name = t.name := rfl

/-- A `key_value_object` or an `index_object`. -/
structure TableRow (k : RowKind) where
  tId : ℕ
  primaryKey : UInt64
  payer : AccountName
  payload : Payload k

def TableRow.key {k : RowKind} (r : TableRow k) : ℕ × UInt64 := (r.tId, r.primaryKey)

def TableRow.updated {k : RowKind} (payer : AccountName) (payload : Payload k)
    (r : TableRow k) : TableRow k :=
  { r with payer, payload }

theorem TableRow.updated_key {k : RowKind} (payer : AccountName) (payload : Payload k)
    (r : TableRow k) : (r.updated payer payload).key = r.key := rfl

def tableIdObjectSize : ℕ := billableSizeV (44 + overheadPerRowPerIndexRamBytes * 2)

def keyValueObjectSize : ℕ := billableSizeV (32 + 8 + 4 + overheadPerRowPerIndexRamBytes * 2)

def SecondaryKind.keySize : SecondaryKind → ℕ
  | .idx64 => 8
  | .idx128 => 16
  | .idx256 => 32
  | .idxDouble => 8
  | .idxLongDouble => 16

def SecondaryKind.billableSize (kind : SecondaryKind) : ℕ :=
  billableSizeV (24 + kind.keySize + overheadPerRowPerIndexRamBytes * 3)

def payloadSize : (k : RowKind) → Payload k → ℤ
  | .primary, value => value.length + keyValueObjectSize
  | .secondary kind, _ => kind.billableSize

def TableRow.size {k : RowKind} (r : TableRow k) : ℤ := payloadSize k r.payload

structure IteratorCache where
  tables : List ℕ
  objects : List (Option ℕ)
deriving DecidableEq, Repr

namespace IteratorCache
variable (cache : IteratorCache)

def empty : IteratorCache := ⟨[], []⟩

def toInt (n : ℤ) : ℤ := n.bmod (2 ^ 32)

def cacheTable (id : ℕ) : ℤ × IteratorCache :=
  if id ∈ cache.tables then (toInt (-(cache.tables.idxOf id + 2 : ℤ)), cache)
  else (toInt (-(cache.tables.length + 2 : ℤ)), { cache with tables := cache.tables ++ [id] })

def getTable (id : ℕ) : Except Failure Unit :=
  eosAssert (id ∈ cache.tables) .tableNotInCache "an invariant was broken, table should be in cache"

/-- The object that an iterator stands for. -/
def get (iterator : ℤ) : Except Failure ℕ := do
  eosAssert (iterator != -1) .invalidTableIterator "invalid iterator"
  eosAssert (0 ≤ iterator) .tableOperationNotPermitted "dereference of end iterator"
  eosAssert (iterator.toNat < cache.objects.length) .invalidTableIterator "iterator out of range"
  match cache.objects.getD iterator.toNat none with
  | none => .error ⟨.tableOperationNotPermitted, "dereference of deleted object"⟩
  | some id => .ok id

def remove (iterator : ℤ) : Except Failure IteratorCache := do
  eosAssert (iterator != -1) .invalidTableIterator "invalid iterator"
  eosAssert (0 ≤ iterator) .tableOperationNotPermitted "cannot call remove on end iterators"
  eosAssert (iterator.toNat < cache.objects.length) .invalidTableIterator "iterator out of range"
  return { cache with objects := cache.objects.set iterator.toNat none }

def add (id : ℕ) : ℤ × IteratorCache :=
  if some id ∈ cache.objects then (toInt (cache.objects.idxOf (some id)), cache)
  else (toInt cache.objects.length, { cache with objects := cache.objects ++ [some id] })

end IteratorCache

structure ContractContext where
  (receiver actAccount : AccountName)
  authorization : List PermissionLevel
  (privileged isReadOnly ramRestrictions ramBillingInNotifyAllowed : Bool)
deriving DecidableEq, Repr

/-- The tables, the RAM charged to each account, and the action that runs with its iterators. -/
structure ContractDb where
  tables : Table TableIdObject.name
  rows : (k : RowKind) → Table (@TableRow.key k)
  ramDeltas : AccountName → ℤ
  context : ContractContext
  caches : RowKind → IteratorCache

namespace ContractDb
variable (db : ContractDb)

def requireAuthorization (account : AccountName) : Except Failure Unit :=
  eosAssert (db.context.authorization.any fun level => level.actor == account)
    .missingAuthException "missing authority of ${account}"

def checkCharge (payer : AccountName) (delta : ℤ) : Except Failure Unit :=
  if 0 < delta ∧ !(db.context.privileged || payer == db.context.receiver ||
      db.context.ramRestrictions) then do
    eosAssert (db.context.ramBillingInNotifyAllowed ||
        db.context.receiver == db.context.actAccount) .subjectiveBlockProductionException
      "Cannot charge RAM to other accounts during notify."
    db.requireAuthorization payer
  else .ok ()

def updateDbUsage (payer : AccountName) (delta : ℤ) : Except Failure ContractDb := do
  db.checkCharge payer delta
  return { db with
    ramDeltas := update db.ramDeltas payer (db.ramDeltas payer + delta) }

def findOrCreateTable (code : AccountName) (scope table : UInt64) (payer : AccountName) :
    Except Failure (ℕ × ContractDb) := do
  match db.tables.find (code, scope, table) with
  | some existing => return (existing.1, db)
  | none =>
    let db ← db.updateDbUsage payer tableIdObjectSize
    let tables ← NativeDb.createRow db.tables ⟨code, scope, table, payer, 0⟩
    return (db.tables.nextId, { db with tables })

def removeTable (id : ℕ) (table : TableIdObject) : Except Failure ContractDb := do
  let db ← db.updateDbUsage table.payer (-tableIdObjectSize)
  return { db with tables := db.tables.remove id }

def createRowIn (k : RowKind) (row : TableRow k) : Except Failure (ℕ × ContractDb) := do
  let rows ← NativeDb.createRow (db.rows k) row
  return ((db.rows k).nextId,
    { db with
      rows := update db.rows k rows
      tables := db.tables.modify row.tId .incremented TableIdObject.incremented_name })

def cacheRow (k : RowKind) (tableId id : ℕ) : ℤ × ContractDb :=
  let added := ((db.caches k).cacheTable tableId).2.add id
  (added.1, { db with caches := update db.caches k added.2 })

/-- The row of an iterator and its table, which the contract may only change if it is its
own. Both are references that have to be valid. -/
def writableRow (k : RowKind) (iterator : ℤ) :
    Outcome Failure ((ℕ × TableRow k) × TableIdObject) := do
  let id ← .ofExcept ((db.caches k).get iterator)
  let row ← .ofOption ((db.rows k).get id)
  .ofExcept ((db.caches k).getTable row.tId)
  let table ← .ofOption (db.tables.get row.tId)
  .ofExcept (eosAssert (table.code == db.context.receiver) .tableAccessViolation
    "db access violation")
  return ((id, row), table)

def checkStore : Except Failure Unit :=
  eosAssert (!db.context.isReadOnly) .tableOperationNotPermitted
    "cannot store a db record when executing a readonly transaction"

def checkPayer (payer : AccountName) : Except Failure Unit :=
  eosAssert (payer != 0) .invalidTablePayer "must specify a valid account to pay for new record"

def dbStoreI64 (scope table : UInt64) (payer : AccountName) (id : UInt64)
    (value : List UInt8) : Except Failure (ℤ × ContractDb) := do
  db.checkStore
  let (tableId, db) ← db.findOrCreateTable db.context.receiver scope table payer
  checkPayer payer
  let (rowId, db) ← db.createRowIn .primary ⟨tableId, id, payer, value⟩
  let db ← db.updateDbUsage payer (value.length + keyValueObjectSize)
  return db.cacheRow .primary tableId rowId

/-- `generic_index::store` -/
def indexStore (kind : SecondaryKind) (scope table : UInt64) (payer : AccountName)
    (id : UInt64) (value : SecondaryKey kind) : Except Failure (ℤ × ContractDb) := do
  db.checkStore
  checkPayer payer
  let (tableId, db) ← db.findOrCreateTable db.context.receiver scope table payer
  let (rowId, db) ← db.createRowIn (.secondary kind) ⟨tableId, id, payer, value⟩
  let db ← db.updateDbUsage payer kind.billableSize
  return db.cacheRow (.secondary kind) tableId rowId

def checkUpdate : Except Failure Unit :=
  eosAssert (!db.context.isReadOnly) .tableOperationNotPermitted
    "cannot update a db record when executing a readonly transaction"

def changePayer (oldPayer : AccountName) (oldSize : ℤ) (payer : AccountName) (newSize : ℤ) :
    Except Failure ContractDb := do
  let db ← db.updateDbUsage oldPayer (-oldSize)
  db.updateDbUsage payer newSize

def chargeUpdateI64 (row : TableRow .primary) (payer : AccountName) (value : List UInt8) :
    Except Failure ContractDb :=
  let oldSize : ℤ := row.payload.length + keyValueObjectSize
  let newSize : ℤ := value.length + keyValueObjectSize
  if row.payer ≠ payer then db.changePayer row.payer oldSize payer newSize
  else if oldSize ≠ newSize then db.updateDbUsage row.payer (newSize - oldSize)
  else .ok db

/-- The size of a secondary row does not change. -/
def chargeIndexUpdate {kind : SecondaryKind} (row : TableRow (.secondary kind))
    (payer : AccountName) : Except Failure ContractDb :=
  let billingSize : ℤ := kind.billableSize
  if row.payer ≠ payer then db.changePayer row.payer billingSize payer billingSize
  else .ok db

def modifyRow {k : RowKind} (id : ℕ) (payer : AccountName) (payload : Payload k) : ContractDb :=
  { db with
    rows := update db.rows k ((db.rows k).modify id (.updated payer payload)
      (TableRow.updated_key _ _)) }

def dbUpdateI64 (iterator : ℤ) (payer : AccountName) (value : List UInt8) :
    Outcome Failure ContractDb := do
  .ofExcept db.checkUpdate
  let ((id, row), _) ← db.writableRow .primary iterator
  let payer := if payer = 0 then row.payer else payer
  let db ← .ofExcept (db.chargeUpdateI64 row payer value)
  return db.modifyRow (k := .primary) id payer value

/-- `generic_index::update` -/
def indexUpdate (kind : SecondaryKind) (iterator : ℤ) (payer : AccountName)
    (secondary : SecondaryKey kind) : Outcome Failure ContractDb := do
  .ofExcept db.checkUpdate
  let ((id, row), _) ← db.writableRow (.secondary kind) iterator
  let payer := if payer = 0 then row.payer else payer
  let db ← .ofExcept (db.chargeIndexUpdate row payer)
  return db.modifyRow (k := .secondary kind) id payer secondary

def dropRow (k : RowKind) (id : ℕ) (row : TableRow k) (table : TableIdObject) :
    Except Failure ContractDb :=
  let db := { db with
    tables := db.tables.modify row.tId .decremented TableIdObject.decremented_name
    rows := update db.rows k ((db.rows k).remove id) }
  if table.decremented.count = 0 then db.removeTable row.tId table else .ok db

/-- `db_remove_i64` and `generic_index::remove` -/
def removeRow (k : RowKind) (iterator : ℤ) : Outcome Failure ContractDb := do
  .ofExcept (eosAssert (!db.context.isReadOnly) .tableOperationNotPermitted
    "cannot remove a db record when executing a readonly transaction")
  let ((id, row), table) ← db.writableRow k iterator
  let db ← .ofExcept (db.updateDbUsage row.payer (-row.size))
  let db ← .ofExcept (db.dropRow k id row table)
  let cache ← .ofExcept ((db.caches k).remove iterator)
  return { db with caches := update db.caches k cache }

def dbRemoveI64 (iterator : ℤ) : Outcome Failure ContractDb := db.removeRow .primary iterator

def indexRemove (kind : SecondaryKind) (iterator : ℤ) : Outcome Failure ContractDb :=
  db.removeRow (.secondary kind) iterator

/-- `db_find_i64` and `generic_index::find_primary`; -1 if there is no table. -/
def findRow (k : RowKind) (code : AccountName) (scope table id : UInt64) : ℤ × ContractDb :=
  match db.tables.find (code, scope, table) with
  | none => (-1, db)
  | some tab =>
    let (tableEnd, cache) := (db.caches k).cacheTable tab.1
    match (db.rows k).find (tab.1, id) with
    | none => (tableEnd, { db with caches := update db.caches k cache })
    | some row =>
      let (iterator, cache) := cache.add row.1
      (iterator, { db with caches := update db.caches k cache })

def startAction (context : ContractContext) : ContractDb :=
  { db with context, caches := fun _ => .empty }

inductive Call
  | start (context : ContractContext)
  | find (k : RowKind) (code : AccountName) (scope table id : UInt64)
  | storeI64 (scope table : UInt64) (payer : AccountName) (id : UInt64) (value : List UInt8)
  | updateI64 (iterator : ℤ) (payer : AccountName) (value : List UInt8)
  | removeI64 (iterator : ℤ)
  | store (kind : SecondaryKind) (scope table : UInt64) (payer : AccountName) (id : UInt64)
      (value : SecondaryKey kind)
  | update (kind : SecondaryKind) (iterator : ℤ) (payer : AccountName)
      (secondary : SecondaryKey kind)
  | remove (kind : SecondaryKind) (iterator : ℤ)

def call : Call → Outcome Failure ContractDb
  | .start context => .returns (db.startAction context)
  | .find k code scope table id => .returns (db.findRow k code scope table id).2
  | .storeI64 scope table payer id value =>
    .ofExcept ((db.dbStoreI64 scope table payer id value).map Prod.snd)
  | .updateI64 iterator payer value => db.dbUpdateI64 iterator payer value
  | .removeI64 iterator => db.dbRemoveI64 iterator
  | .store kind scope table payer id value =>
    .ofExcept ((db.indexStore kind scope table payer id value).map Prod.snd)
  | .update kind iterator payer secondary => db.indexUpdate kind iterator payer secondary
  | .remove kind iterator => db.indexRemove kind iterator

def initial (context : ContractContext) : ContractDb where
  tables := .empty _
  rows := fun _ => .empty _
  ramDeltas := fun _ => 0
  context
  caches := fun _ => .empty

end ContractDb
end FlonCore
