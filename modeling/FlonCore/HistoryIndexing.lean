import FlonCore.HistoryRows
import Mathlib.Data.List.Sort

/-!
# Recording a transaction

The rows of an applied transaction: its actions that pass the filters, the
transaction itself, and for each action with a receipt one row per account that
takes part. The account rows continue the sequence of their account, which is
looked up in the transaction, then in the staged block, then in the database.
Budgets for actions, rows and bytes may cut the account rows off at any point.
Everything is staged until the block is accepted.
-/

namespace FlonCore
open Library
open HistoryKey

structure FilterEntry where
  receiver : AccountName
  action : ActionName
  actor : AccountName
  deriving DecidableEq

structure HistoryConfig where
  filterOnStar : Bool
  (filterOn filterOut : List FilterEntry)
  (maxTraceSize maxActionsPerTx maxAccountIndexesPerTx maxWriteBatchBytes maxRetainedBlocks : ℕ)
  sizes : HistorySizes

inductive TransactionStatus where
  | executed
  | softFail
  | hardFail
  | delayed
  | expired
  deriving DecidableEq

structure TransactionTrace where
  id : TransactionId
  blockNum : ℕ
  /-- the status of the receipt, if there is one -/
  status : Option TransactionStatus
  /-- `estimate_retained_trace_size`; `none` when it overflows -/
  retainedBytes : Option ℕ
  actions : List ActionTrace

/-- The lambda `matches`; the empty name is zero. -/
def matchesFilters (action : ActionTrace) (filters : List FilterEntry) : Bool :=
  let receiver := (action.receipt.map ActionReceipt.receiver).getD action.account
  decide (⟨receiver, 0, 0⟩ ∈ filters) || decide (⟨receiver, action.name, 0⟩ ∈ filters) ||
    action.authorization.any fun actor =>
      decide (⟨receiver, 0, actor⟩ ∈ filters) || decide (⟨receiver, action.name, actor⟩ ∈ filters)

def filterAction (cfg : HistoryConfig) (action : ActionTrace) : Bool :=
  if !cfg.filterOnStar && !matchesFilters action cfg.filterOn then false
  else !matchesFilters action cfg.filterOut

abbrev HistoryWrites := List (HistoryKey × HistoryValue)

/-- The members `pending_…`: what is staged for the block being built. -/
structure PendingBlock where
  blockNum : ℕ
  accountIndexGap : Bool
  (writeBytes sequenceBytes : ℕ)
  writes : HistoryWrites
  accountSequences : List (AccountName × ℕ)

/-- `clear_pending_block` -/
def PendingBlock.cleared : PendingBlock := ⟨0, false, 0, 0, [], []⟩

def processingException (what : String) : String :=
  "transaction history processing exception: " ++ what

/-- What a failed `EOS_ASSERT` leaves as the reason. -/
def pluginException : String := processingException "Plugin exception"

def isRowOf (account : AccountName) : HistoryKey → Bool
  | .accountAction a _ => a == account
  | _ => false

def readAccountSequence (db : HistoryDb HistoryKey HistoryValue) (account : AccountName) :
    Except String ℕ :=
  let name := String.ofList (nameToString account)
  match find db (.accountSequence account) with
  | none =>
    if db.any fun e => isRowOf account e.1 then
      .error (processingException ("Missing history sequence for existing account " ++ name))
    else .ok 0
  | some (.number n) =>
    if n < 2 ^ 64 - 1 then .ok n
    else if n = 2 ^ 64 - 1 then
      .error (processingException ("Exhausted history sequence for " ++ name))
    else .error (processingException ("Invalid history sequence for " ++ name))
  | some _ => .error (processingException ("Invalid history sequence for " ++ name))

/-- The local variables of a task: the writes of the transaction with their bytes, the next
sequences of the accounts it has met, and how far the index has come. -/
structure IndexState where
  writes : HistoryWrites
  writeBytes : ℕ
  nextSequences : List (AccountName × ℕ)
  (accountIndexes indexedActions : ℕ)
  indexBudgetExhausted : Bool

def IndexState.start : IndexState := ⟨[], 0, [], 0, 0, false⟩

section Task
variable (cfg : HistoryConfig) (db : HistoryDb HistoryKey HistoryValue) (pending : PendingBlock)
  (trace : TransactionTrace)

def entryBytes (key : HistoryKey) (value : HistoryValue) : ℕ :=
  key.text.length + value.size cfg.sizes

/-- The lambda `append_write`; `none` is its `false`. -/
def appendWrite (s : IndexState) (key : HistoryKey) (value : HistoryValue) : Option IndexState :=
  let candidate := s.writeBytes + entryBytes cfg key value
  if cfg.maxWriteBatchBytes < candidate then none
  else some { s with writes := s.writes ++ [(key, value)], writeBytes := candidate }

/-- One round of the loop over the filtered actions that stores the actions. -/
def appendAction (acc : List TraceEntry × IndexState) (action : ActionTrace) :
    Except String (List TraceEntry × IndexState) :=
  match action.receipt with
  | none => .ok (acc.1 ++ [.embedded action], acc.2)
  | some receipt =>
    let key := .action receipt.globalSequence
    match appendWrite cfg acc.2 key (.action ⟨trace.id, trace.blockNum, receipt.globalSequence,
        receipt.receiver, action.name, action⟩) with
    | none => .error "normalized action exceeds configured batch limit"
    | some s => .ok (acc.1 ++ [.actionRef key], s)

def transactionRow (traces : List TraceEntry) (complete : Bool) : TransactionRow :=
  ⟨trace.id, trace.blockNum, !cfg.filterOnStar || !cfg.filterOut.isEmpty, traces, complete⟩

/-- The rows of the actions, of the transaction and of its place in the block. The
transaction's row has the longer `false` for now. -/
def recordTransaction (filtered : List ActionTrace) :
    Except String (List TraceEntry × IndexState) := do
  let (traces, s) ← filtered.foldlM (appendAction cfg trace) ([], IndexState.start)
  let trxKey := transaction trace.id
  let blockKey := blockTransaction trace.blockNum trace.id
  let row := .transaction (transactionRow cfg trace traces false)
  let baseBytes := entryBytes cfg trxKey row + entryBytes cfg blockKey (.reference trxKey)
  if cfg.maxWriteBatchBytes < baseBytes then
    .error "transaction history write exceeds configured batch limit"
  else match appendWrite cfg s trxKey row with
    | none => .error "transaction history write exceeds configured batch limit"
    | some s => match appendWrite cfg s blockKey (.reference trxKey) with
      | none => .error pluginException
      | some s => .ok (traces, s)

/-- The `std::set` of the receiver and the actors. -/
def indexedAccounts (receipt : ActionReceipt) (action : ActionTrace) : List AccountName :=
  (receipt.receiver :: action.authorization).dedup.insertionSort (· ≤ ·)

def accountSequenceOf (nextSequences : List (AccountName × ℕ)) (account : AccountName) :
    Except String ℕ :=
  match find nextSequences account with
  | some sequence => .ok sequence
  | none => match find pending.accountSequences account with
    | some sequence => .ok sequence
    | none => readAccountSequence db account

def accountRow (receipt : ActionReceipt) (action : ActionTrace) (sequence : ℕ) :
    AccountActionRow :=
  ⟨trace.id, trace.blockNum, receipt.globalSequence, receipt.receiver, action.name, sequence,
    .action receipt.globalSequence⟩

/-- One round of the loop over the accounts of an action. A spent budget leaves the loop. -/
def indexAccount (receipt : ActionReceipt) (action : ActionTrace) (s : IndexState)
    (account : AccountName) : Except String IndexState :=
  if s.indexBudgetExhausted then .ok s
  else if cfg.maxAccountIndexesPerTx ≤ s.accountIndexes then
    .ok { s with indexBudgetExhausted := true }
  else do
    let sequence ← accountSequenceOf db pending s.nextSequences account
    if sequence < 2 ^ 64 - 1 then
      let key := accountAction account sequence
      let value := .accountAction (accountRow trace receipt action sequence)
      let indexBytes := entryBytes cfg key value
      if cfg.maxWriteBatchBytes < indexBytes ∨ cfg.maxWriteBatchBytes - indexBytes < s.writeBytes
      then .ok { s with indexBudgetExhausted := true }
      else match appendWrite cfg s key value with
        | none => .error pluginException
        | some s => .ok { s with
            nextSequences := assign s.nextSequences account (sequence + 1)
            accountIndexes := s.accountIndexes + 1 }
    else .error pluginException

/-- One round of the loop over the filtered actions that indexes the accounts. -/
def indexAction (s : IndexState) (action : ActionTrace) : Except String IndexState :=
  match action.receipt with
  | none => .ok s
  | some receipt =>
    if s.indexedActions < cfg.maxActionsPerTx ∧ s.indexBudgetExhausted = false then do
      let s ← (indexedAccounts receipt action).foldlM
        (indexAccount cfg db pending trace receipt action) s
      return { s with indexedActions := s.indexedActions + 1 }
    else .ok s

def receiptedActions (actions : List ActionTrace) : ℕ :=
  actions.countP fun action => action.receipt.isSome

def IndexState.incomplete (s : IndexState) (filtered : List ActionTrace) : Bool :=
  s.indexBudgetExhausted || decide (s.indexedActions < receiptedActions filtered)

def replaceFirst (key : HistoryKey) (value : HistoryValue) : HistoryWrites → HistoryWrites
  | [] => []
  | e :: rest => if e.1 = key then (key, value) :: rest else e :: replaceFirst key value rest

/-- Writes `account_index_complete` into the row of the transaction. -/
def completeTransaction (traces : List TraceEntry) (incomplete : Bool) (s : IndexState) :
    Except String IndexState :=
  let key := transaction trace.id
  match find s.writes key with
  | none => .ok s
  | some value =>
    let updated := .transaction (transactionRow cfg trace traces !incomplete)
    if updated.size cfg.sizes ≤ value.size cfg.sizes then
      .ok { s with
        writes := replaceFirst key updated s.writes
        writeBytes := s.writeBytes - (value.size cfg.sizes - updated.size cfg.sizes) }
    else .error pluginException

def sequenceEntryBytes (account : AccountName) (sequence : ℕ) : ℕ :=
  entryBytes cfg (.accountSequence account) (.number sequence)

/-- One round of the loop that computes `updated_sequence_bytes`. -/
def addSequenceBytes (bytes : ℕ) (e : AccountName × ℕ) : Except String ℕ :=
  match find pending.accountSequences e.1 with
  | none => .ok (bytes + sequenceEntryBytes cfg e.1 e.2)
  | some old =>
    if sequenceEntryBytes cfg e.1 old ≤ bytes then
      .ok (bytes - sequenceEntryBytes cfg e.1 old + sequenceEntryBytes cfg e.1 e.2)
    else .error pluginException

def acceptedBlockMetadataReserve : ℕ := 512

def exceedsBlockBudget (used addition : ℕ) : Bool :=
  decide (cfg.maxWriteBatchBytes < used) || decide (cfg.maxWriteBatchBytes - used < addition)

def stageTransaction (s : IndexState) (incomplete : Bool) : Except String PendingBlock :=
  if pending.blockNum ≠ 0 ∧ pending.blockNum ≠ trace.blockNum then
    .error "accepted-block event missing before next transaction"
  else do
    let sequenceBytes ← s.nextSequences.foldlM (addSequenceBytes cfg pending) pending.sequenceBytes
    if exceedsBlockBudget cfg pending.writeBytes sequenceBytes ||
        exceedsBlockBudget cfg (pending.writeBytes + sequenceBytes) s.writeBytes ||
        exceedsBlockBudget cfg (pending.writeBytes + sequenceBytes + s.writeBytes)
          acceptedBlockMetadataReserve then
      .error "accepted block history exceeds configured batch limit"
    else return {
      blockNum := trace.blockNum
      accountIndexGap := pending.accountIndexGap || incomplete
      writeBytes := pending.writeBytes + s.writeBytes
      sequenceBytes := sequenceBytes
      writes := pending.writes ++ s.writes
      accountSequences :=
        s.nextSequences.foldl (fun m e => assign m e.1 e.2) pending.accountSequences }

/-- The worker's task for a transaction: the staged block afterwards, or the reason why the
history has a gap. -/
def processTransaction : Except String PendingBlock :=
  let filtered := trace.actions.filter (filterAction cfg)
  if filtered.isEmpty then .ok pending
  else do
    let (traces, s) ← recordTransaction cfg trace filtered
    let s ← filtered.foldlM (indexAction cfg db pending trace) s
    let incomplete := s.incomplete filtered
    let s ← completeTransaction cfg trace traces incomplete s
    stageTransaction cfg pending trace s incomplete

end Task
end FlonCore
