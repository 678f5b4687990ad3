import FlonCore.HistoryIndexing

/-!
# The transaction history plugin

The plugin takes the events of the chain in order: a block is started on a parent,
transactions are applied, the block is accepted. Starting a block drops what was
staged for an aborted one and rolls the database back when the parent lies below
the last accepted block. Whatever the plugin cannot record ends in a gap, after
which it records nothing more.
-/

namespace FlonCore
open Library

structure HistoryState where
  db : HistoryDb HistoryKey HistoryValue
  healthy : Bool
  pending : PendingBlock
  /-- the keys of the ordered map `rollback_points_` -/
  rollbackPoints : List ℕ

inductive HistoryEvent where
  | blockStart (parentBlockNum : ℕ) (parentBlockId : String)
  | appliedTransaction (trace : TransactionTrace)
  /-- `lowSpace i` says if there is too little space at the `i`-th look at the disk. -/
  | acceptedBlock (blockNum : ℕ) (blockId : String) (irreversibleBlockNum : ℕ)
      (lowSpace : ℕ → Bool)

def HistoryValue.asText : HistoryValue → Option String
  | .text s => some s
  | _ => none

namespace HistoryState
variable (cfg : HistoryConfig) (s : HistoryState)

def recordHistoryGap (blockNum : ℕ) (reason : String) : HistoryState :=
  if s.healthy then
    { s with
      healthy := false
      db := applyBatch s.db [.put .historyGapBlock (.number blockNum),
        .put .historyGapReason (.text (String.ofList (reason.toList.take 512)))] }
  else s

def appliedTransaction (trace : TransactionTrace) : HistoryState :=
  match trace.status with
  | none => s
  | some status =>
    if !s.healthy then s
    else if status ≠ .executed ∧ status ≠ .softFail then s
    else match trace.retainedBytes with
      | none =>
        s.recordHistoryGap trace.blockNum "failed to measure retained transaction history size"
      | some retained =>
        if cfg.maxTraceSize < retained then
          s.recordHistoryGap trace.blockNum
            "transaction history trace exceeds configured size limit"
        else match processTransaction cfg s.db s.pending trace with
          | .ok pending => { s with pending := pending }
          | .error reason => s.recordHistoryGap trace.blockNum reason

def hasUndoPoint (blockNum : ℕ) : Bool := (find s.db (.undo blockNum)).isSome

/-- `rollback_manager::rollback_to_block`; a point without a record would be a directory of
an older version. -/
def rollbackToBlock (blockNum : ℕ) : Bool × HistoryState :=
  if blockNum ∉ s.rollbackPoints then (false, s)
  else if !s.hasUndoPoint blockNum then (false, s)
  else
    let (ok, states) := (historyCodec cfg.sizes).rollbackWithUndo s.db blockNum
    let s := { s with db := states.headD s.db }
    if ok then (true, { s with rollbackPoints := s.rollbackPoints.filter (· ≤ blockNum) })
    else (false, s)

/-- The end of `ensure_chain_parent`, when the parent is not the last accepted block. -/
def rollbackToParent (parentBlockNum : ℕ) (parentBlockId : String) : HistoryState :=
  match s.rollbackToBlock cfg parentBlockNum with
  | (false, s) => s.recordHistoryGap parentBlockNum "no usable rollback point for fork parent"
  | (true, s) =>
    let s := { s with pending := .cleared }
    if (find s.db .lastAcceptedBlockId).bind HistoryValue.asText = some parentBlockId then s
    else s.recordHistoryGap parentBlockNum "fork rollback point belongs to a different branch"

def ensureChainParent (parentBlockNum : ℕ) (parentBlockId : String) : HistoryState :=
  if !s.healthy then s
  else
    let s := if s.pending.blockNum ≠ 0 then { s with pending := .cleared } else s
    match find s.db .lastAcceptedBlockNum, find s.db .lastAcceptedBlockId with
    | some storedNum, some storedId => match storedNum.stoul with
      | none =>
        s.recordHistoryGap parentBlockNum "invalid accepted block number in history database"
      | some n =>
        if u32 n = parentBlockNum ∧ storedId.asText = some parentBlockId then s
        else if u32 n < parentBlockNum then
          s.recordHistoryGap (u32 (u32 n + 1))
            "chain advanced beyond the persisted history baseline"
        else s.rollbackToParent cfg parentBlockNum parentBlockId
    | _, _ =>
      { s with db := applyBatch s.db [.put .lastAcceptedBlockNum (.number parentBlockNum),
          .put .lastAcceptedBlockId (.text parentBlockId)] }

/-- The batch of `commit_accepted_block`. -/
def acceptedWrites (blockNum : ℕ) (blockId : String) : HistoryWrites :=
  s.pending.writes ++
    (s.pending.accountSequences.map fun e => (.accountSequence e.1, .number e.2)) ++
    [(.lastBlockNumber, .number blockNum), (.lastAcceptedBlockNum, .number blockNum),
      (.lastAcceptedBlockId, .text blockId), (.schemaVersion, .number 2)] ++
    if s.pending.accountIndexGap && (find s.db .accountIndexGapBlock).isNone then
      [(.accountIndexGapBlock, .number blockNum)]
    else []

/-- `block_batch_write_with_retry`: the database afterwards, or `none` for `false`. A batch
that fails although the block's record is there counts as written. -/
def blockBatchWriteWithRetry (blockNum : ℕ) (writes : HistoryWrites) :
    Option (HistoryDb HistoryKey HistoryValue) :=
  match (historyCodec cfg.sizes).batchWriteWithUndo s.db blockNum writes []
      cfg.maxWriteBatchBytes with
  | some db => some db
  | none =>
    if s.hasUndoPoint blockNum &&
        decide ((find s.db .lastAcceptedBlockNum).bind HistoryValue.stoul = some blockNum) then
      some s.db
    else none

def commitAcceptedBlock (blockNum : ℕ) (blockId : String) : Bool × HistoryState :=
  if s.pending.blockNum ≠ 0 ∧ s.pending.blockNum ≠ blockNum then
    (false, { s with pending := .cleared })
  else match s.blockBatchWriteWithRetry cfg blockNum (s.acceptedWrites blockNum blockId) with
    | some db => (true, { s with db := db, pending := .cleared })
    | none => (false, { s with pending := .cleared })

/-- `create_rollback_point`; a block without a record gets an empty one. -/
def createRollbackPoint (blockNum : ℕ) : HistoryState :=
  if blockNum ∈ s.rollbackPoints then s
  else { s with
    db := if s.hasUndoPoint blockNum then s.db
      else applyBatch s.db [.put (.undo blockNum) (.undo blockNum [] [])]
    rollbackPoints := s.rollbackPoints.orderedInsert (· ≤ ·) blockNum }

def dropRollbackPoints (count : ℕ) : HistoryState :=
  { s with
    db := applyBatch s.db ((s.rollbackPoints.take count).map fun p => .delete (.undo p))
    rollbackPoints := s.rollbackPoints.drop count }

def cleanupIrreversibleRollbackPoints (irreversibleBlockNum : ℕ) : HistoryState :=
  s.dropRollbackPoints (s.rollbackPoints.takeWhile (· < irreversibleBlockNum)).length

/-- The number of points the loop of `cleanup_old_rollback_points` removes. -/
def oldPoints (keepBlocks oldestRequired : ℕ) (lowSpace : ℕ → Bool) : ℕ → List ℕ → ℕ
  | i, p :: q :: rest =>
    if (decide (keepBlocks < rest.length + 2) || lowSpace i) && decide (p < oldestRequired) then
      oldPoints keepBlocks oldestRequired lowSpace (i + 1) (q :: rest) + 1
    else 0
  | _, _ => 0

def cleanupOldRollbackPoints (keepBlocks oldestRequired : ℕ) (lowSpace : ℕ → Bool) :
    HistoryState :=
  s.dropRollbackPoints (oldPoints keepBlocks oldestRequired lowSpace 0 s.rollbackPoints)

def acceptedBlock (blockNum : ℕ) (blockId : String) (irreversibleBlockNum : ℕ)
    (lowSpace : ℕ → Bool) : HistoryState :=
  if !s.healthy then s
  else match s.commitAcceptedBlock cfg blockNum blockId with
    | (false, s) =>
      s.recordHistoryGap blockNum "failed to atomically persist accepted block history"
    | (true, s) =>
      let s := s.createRollbackPoint blockNum
      let s := s.cleanupIrreversibleRollbackPoints irreversibleBlockNum
      s.cleanupOldRollbackPoints cfg.maxRetainedBlocks irreversibleBlockNum lowSpace

def step : HistoryEvent → HistoryState
  | .blockStart parentBlockNum parentBlockId => s.ensureChainParent cfg parentBlockNum parentBlockId
  | .appliedTransaction trace => s.appliedTransaction cfg trace
  | .acceptedBlock blockNum blockId irreversibleBlockNum lowSpace =>
    s.acceptedBlock cfg blockNum blockId irreversibleBlockNum lowSpace

def startup (headNum : ℕ) (headId : String) : HistoryState :=
  ⟨[(.lastBlockNumber, .number headNum), (.lastAcceptedBlockNum, .number headNum),
    (.lastAcceptedBlockId, .text headId), (.undo headNum, .undo headNum [] [])], true, .cleared,
    [headNum]⟩

end HistoryState
end FlonCore
