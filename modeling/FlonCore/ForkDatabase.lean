import FlonCore.Library.Forest
import FlonCore.Library.Outcome
import FlonCore.Types
import Mathlib.Data.List.Sort
import Mathlib.Data.Prod.Lex

/-!
# The fork database

The fork database keeps the blocks above the last irreversible one, its root. It
is generic in the block state, as the program is: blocks before and after the
switch to Savanna are kept by two instances. The index holds each block once and
is read by id, by previous id and in the order of the best branch.

A call that throws still hands back the database it leaves behind: adding a block
may move the pending root before it fails.
-/

namespace FlonCore
open Library

/-- What the fork database reads of a block state. -/
class ForkBlock (B : Type) where
  id : B → BlockId
  previous : B → BlockId
  blockNum : B → ℕ
  /-- The composite key of the best branch index, which ends in the id; the greatest key
  comes first. -/
  bestBranchKey : B → ℕ ×ₗ ℕ ×ₗ ℕ
  bestBranchKey_id : ∀ a b, bestBranchKey a = bestBranchKey b → id a = id b
  /-- The block a strong claim names. The legacy state makes no claim. -/
  strongClaim : B → Option ℕ
  /-- The id of the block that the latest claim of the state's own core names. -/
  latestQcClaimId : B → Option BlockId

structure ForkDatabase (B : Type) where
  root : Option B
  pendingSavannaLibId : BlockId
  index : List B
deriving DecidableEq, Repr

open ForkBlock hiding id
open ForkBlock renaming id → idOf

namespace ForkDatabase
variable {B : Type} [ForkBlock B] (db : ForkDatabase B)

def empty : ForkDatabase B := ⟨none, 0, []⟩

variable (id : BlockId)

def getBlock : Option B := nodeAt idOf db.index id

/-- `getBlock` with the root included. -/
def getBlockOrRoot : Option B :=
  match db.root with
  | some r => if idOf r = id then some r else db.getBlock id
  | none => db.getBlock id

def branchOf : List B := ancestry idOf previous db.index id

def searchOnBranch (h : BlockId) (blockNum : ℕ) (includeRoot : Bool) : Option B :=
  match db.root with
  | none => none
  | some r =>
    if includeRoot ∧ idOf r = h ∧ ForkBlock.blockNum r = blockNum then some r
    else if blockNum ≤ ForkBlock.blockNum r then none
    else (db.branchOf h).find? fun b => ForkBlock.blockNum b = blockNum

def byBestBranch : List B :=
  db.index.insertionSort fun a b => bestBranchKey b ≤ bestBranchKey a

def head (includeRoot : Bool) : Option B :=
  match db.byBestBranch with
  | b :: _ => some b
  | [] => if includeRoot then db.root else none

def setPendingSavannaLibId : ForkDatabase B :=
  if numFromId db.pendingSavannaLibId < numFromId id then { db with pendingSavannaLibId := id }
  else db

def resetRoot (rootBsp : B) : ForkDatabase B := { db with root := some rootBsp, index := [] }

/-- A strong claim on a block of the branch makes what that block claims the pending root.
Undefined where the core of the claimed block lacks the reference. -/
def noteClaim (n : B) : Option (ForkDatabase B) :=
  match strongClaim n with
  | none => some db
  | some num =>
    match db.searchOnBranch (previous n) num false with
    | none => some db
    | some claimed => (latestQcClaimId claimed).map db.setPendingSavannaLibId

/-- `compatible` says whether the validator accepts the block on top of its parent. -/
def insert (n : B) (ignoreDuplicate : Bool) (compatible : B → B → Bool) :
    Except Failure (ForkDatabase B) :=
  match db.getBlockOrRoot (previous n) with
  | none => .error ⟨.unlinkableBlockException, "forkdb unlinkable block ${id} previous ${p}"⟩
  | some prev => do
    eosAssert (compatible prev n) .forkDatabaseException
      "serialized fork database is incompatible with configured protocol features"
    if (db.getBlock (idOf n)).isSome then
      eosAssert ignoreDuplicate .forkDatabaseException "duplicate block added: ${id}"
      return db
    else
      return { db with index := db.index ++ [n] }

def addImpl (n : B) (ignoreDuplicate : Bool) (compatible : B → B → Bool) :
    Outcome (Failure × ForkDatabase B) (ForkDatabase B) :=
  match db.root with
  | none => .throws (⟨.forkDatabaseException, "root not yet set"⟩, db)
  | some _ => do
    let noted ← .ofOption (db.noteClaim n)
    .ofExcept ((noted.insert n ignoreDuplicate compatible).mapError (·, noted))

def add (n : B) (ignoreDuplicate : Bool) : Outcome (Failure × ForkDatabase B) (ForkDatabase B) :=
  db.addImpl n ignoreDuplicate fun _ _ => true

def remove : Option (ForkDatabase B) :=
  (removeBelow idOf previous db.index id).map fun index =>
    { db with index := index }

def checkAdvance (isValid : B → Bool) (id : BlockId) : Except Failure (B × List BlockId) :=
  match db.root with
  | none => .error ⟨.forkDatabaseException, "root not yet set"⟩
  | some r =>
    match db.getBlock id with
    | none => .error ⟨.forkDatabaseException,
        "cannot advance root to a block that does not exist in the fork database"⟩
    | some newRoot => do
      eosAssert (isValid newRoot) .forkDatabaseException
        "cannot advance root to a block that has not yet been validated"
      eosAssert (((db.branchOf id).map previous).getLast? = some (idOf r))
        .forkDatabaseException "invariant violation: orphaned branch was present in forked database"
      return (newRoot, (db.branchOf id).map previous)

/-- `isValid` is the state of the validation flags at the call. The new root leaves the
index alone; each of its ancestors leaves with everything that still hangs from it. -/
def advanceRoot (isValid : B → Bool) (id : BlockId) :
    Outcome (Failure × ForkDatabase B) (ForkDatabase B) := do
  let (newRoot, blocksToRemove) ← .ofExcept ((db.checkAdvance isValid id).mapError (·, db))
  let index ← .ofOption (blocksToRemove.foldlM (removeBelow idOf previous)
    (db.index.filter fun b => idOf b ≠ id))
  return { db with root := some newRoot, index := index }

end ForkDatabase

inductive ForkCall (B : Type)
  | resetRoot (rootBsp : B)
  | setPendingSavannaLibId (id : BlockId)
  | add (n : B) (ignoreDuplicate : Bool)
  | remove (id : BlockId)
  | advanceRoot (isValid : B → Bool) (id : BlockId)

namespace ForkDatabase
variable {B : Type} [ForkBlock B]

def call (db : ForkDatabase B) : ForkCall B → Outcome (Failure × ForkDatabase B) (ForkDatabase B)
  | .resetRoot rootBsp => .returns (db.resetRoot rootBsp)
  | .setPendingSavannaLibId id => .returns (db.setPendingSavannaLibId id)
  | .add n ignoreDuplicate => db.add n ignoreDuplicate
  | .remove id => .ofOption (db.remove id)
  | .advanceRoot isValid id => db.advanceRoot isValid id

end ForkDatabase

end FlonCore
