import FlonCore.Library.UndoLog
import FlonCore.Types

/-!
# The history database and its undo log

The transaction history lives in a key-value database. The rows of an accepted
block are written in one batch together with an undo record, which holds what the
batch replaces; public rows are append-only, so for them the record only says to
erase. A rollback reads the records from the current block down and writes them
back, several blocks to a batch.
-/

namespace FlonCore
open Library
variable {K V : Type}

structure HistoryBlockUndoRecord (K V : Type) where
  blockNum : ℕ
  undo : Undo K V

/-- The keys and values of the database. Packing may refuse a record; what it packs it
unpacks again. -/
structure HistoryCodec (K V : Type) where
  /-- `make_undo_key` -/
  undoKey : ℕ → K
  /-- `_internal_last_accepted_block_num` -/
  cursorKey : K
  /-- starts with `_internal_` -/
  isInternal : K → Bool
  /-- starts with `acc:` -/
  isAccountRow : K → Bool
  keySize : K → ℕ
  valueSize : V → ℕ
  /-- the size of a batch in the database's own encoding -/
  dataSize : List (StoreWrite K V) → ℕ
  packUndo : HistoryBlockUndoRecord K V → Option V
  unpackUndo : V → Option (HistoryBlockUndoRecord K V)
  /-- `std::to_string` -/
  numText : ℕ → V
  stoul : V → Option ℕ
  undoKey_injective : Function.Injective undoKey
  undoKey_internal : ∀ n, isInternal (undoKey n) = true
  cursorKey_internal : isInternal cursorKey = true
  cursorKey_ne : ∀ n, cursorKey ≠ undoKey n
  accountRow_public : ∀ k, isAccountRow k = true → isInternal k = false
  unpack_pack : ∀ r v, packUndo r = some v → unpackUndo v = some r
  stoul_numText : ∀ n, stoul (numText n) = some n

abbrev HistoryDb (K V : Type) := List (K × V)

namespace HistoryCodec
variable [DecidableEq K] (c : HistoryCodec K V)

/-- What `capture_previous` has seen so far. -/
structure Captured (K V : Type) where
  captured : List K
  undo : Undo K V

variable (db : HistoryDb K V)

/-- The lambda `capture_previous`; `none` is its `false`. -/
def capturePrevious (blockNum : ℕ) (s : Captured K V) (key : K)
    (appendOnly : Bool) : Option (Captured K V) :=
  if key ∈ s.captured then none
  else if key = c.undoKey blockNum then none
  else if appendOnly then
    if c.isAccountRow key && (find db key).isSome then none
    else some ⟨s.captured ++ [key], s.undo.restore, s.undo.erase ++ [key]⟩
  else match find db key with
    | some previous => some ⟨s.captured ++ [key], s.undo.restore ++ [(key, previous)], s.undo.erase⟩
    | none => some ⟨s.captured ++ [key], s.undo.restore, s.undo.erase ++ [key]⟩

def captureAll (blockNum : ℕ) (writes : List (K × V)) (deletes : List K) :
    Option (Captured K V) := do
  let s ← writes.foldlM (fun s e => c.capturePrevious db blockNum s e.1 (!c.isInternal e.1))
    ⟨[], [], []⟩
  deletes.foldlM (fun s key => c.capturePrevious db blockNum s key false) s

def blockWrites (writes : List (K × V)) (deletes : List K) : List (StoreWrite K V) :=
  writes.map (fun e => .put e.1 e.2) ++ deletes.map .delete

def serializedBytes (blockNum : ℕ) (undoValue : V) (writes : List (K × V)) (deletes : List K) : ℕ :=
  c.keySize (c.undoKey blockNum) + c.valueSize undoValue +
    (writes.map fun e => c.keySize e.1 + c.valueSize e.2).sum + (deletes.map c.keySize).sum

/-- `batch_write_with_undo`: the database afterwards, or `none` when the batch is refused.
A limit of zero bytes is no limit. -/
def batchWriteWithUndo (blockNum : ℕ) (writes : List (K × V))
    (deletes : List K) (maxTotalBytes : ℕ) : Option (HistoryDb K V) :=
  if (find db (c.undoKey blockNum)).isSome then none
  else do
    let s ← c.captureAll db blockNum writes deletes
    let undoValue ← c.packUndo ⟨blockNum, s.undo⟩
    if maxTotalBytes ≠ 0 ∧ maxTotalBytes < c.serializedBytes blockNum undoValue writes deletes then
      none
    else
      return applyBatch db (.put (c.undoKey blockNum) undoValue :: blockWrites writes deletes)

def maxGroupBlocks : ℕ := 64
def maxGroupBytes : ℕ := 16 * 1024 * 1024

/-- A rollback in progress: the database, the batch being collected with the number of its
blocks, and all states the database has been in, the latest first. -/
structure RollbackState (K V : Type) where
  db : HistoryDb K V
  batch : List (StoreWrite K V)
  groupBlocks : ℕ
  durable : List (HistoryDb K V)

variable (s : RollbackState K V)

def flushGroup : RollbackState K V :=
  if s.groupBlocks = 0 then s
  else ⟨applyBatch s.db s.batch, [], 0, applyBatch s.db s.batch :: s.durable⟩

def groupFull (undoSize : ℕ) : Bool :=
  s.groupBlocks ≠ 0 && (decide (maxGroupBlocks ≤ s.groupBlocks) ||
    decide (maxGroupBytes ≤ undoSize) || decide (maxGroupBytes - undoSize < c.dataSize s.batch))

def undoBlockStep (undoBlock : ℕ) : Option (RollbackState K V) := do
  let undoValue ← find s.db (c.undoKey undoBlock)
  let record ← c.unpackUndo undoValue
  if record.blockNum ≠ undoBlock then none
  else
    let s := if c.groupFull s (c.valueSize undoValue) then flushGroup s else s
    return { s with
      batch := s.batch ++ (record.undo.writes ++ [.delete (c.undoKey undoBlock)])
      groupBlocks := s.groupBlocks + 1 }

/-- The loop from block `blockNum + n` down to `blockNum + 1` and the last flush. -/
def undoBlocks (blockNum : ℕ) : ℕ → RollbackState K V → Bool × RollbackState K V
  | 0, s => (true, flushGroup s)
  | n + 1, s =>
    match c.undoBlockStep s (blockNum + n + 1) with
    | none => (false, s)
    | some s' => undoBlocks blockNum n s'

/-- `rollback_with_undo`: its result, and the states of the database on the way. The first
one is the last; a process that stops leaves any of them. -/
def rollbackWithUndo (blockNum : ℕ) : Bool × List (HistoryDb K V) :=
  match (find db c.cursorKey).bind c.stoul with
  | none => (false, [db])
  | some text =>
    let current := u32 text
    if current < blockNum then (false, [db])
    else
      let (ok, s) := c.undoBlocks blockNum (current - blockNum) ⟨db, [], 0, [db]⟩
      (ok && decide ((find s.db c.cursorKey).bind c.stoul = some blockNum), s.durable)

end HistoryCodec
end FlonCore
