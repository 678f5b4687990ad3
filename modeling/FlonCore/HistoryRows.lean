import FlonCore.Names
import FlonCore.RocksdbManager

/-!
# Keys and rows of the transaction history

Public rows are the transactions, their actions once under the global sequence,
the account index with its own sequence per account, and the transactions of a
block. Internal keys hold the cursors, the counters and the markers of the plugin.
-/

namespace FlonCore
open Library

abbrev TransactionId := BitVec 256

inductive HistoryKey where
  | transaction (id : TransactionId)
  | action (globalSequence : ℕ)
  | accountAction (account : AccountName) (sequence : ℕ)
  | blockTransaction (blockNum : ℕ) (id : TransactionId)
  | undo (blockNum : ℕ)
  | accountSequence (account : AccountName)
  | lastBlockNumber
  | lastAcceptedBlockNum
  | lastAcceptedBlockId
  | schemaVersion
  | accountIndexGapBlock
  | historyGapBlock
  | historyGapReason
  deriving DecidableEq

namespace HistoryKey

/-- `std::setw` with zeros for fill characters -/
def padLeft (width : ℕ) (digits : List Char) : List Char :=
  List.replicate (width - digits.length) '0' ++ digits

def fixedWidthNumber (value width : ℕ) : List Char := padLeft width (Nat.toDigits 10 value)

def idText (id : TransactionId) : List Char := padLeft 64 (Nat.toDigits 16 id.toNat)

def text : HistoryKey → List Char
  | transaction id => "trx:".toList ++ idText id
  | action globalSequence => "act:".toList ++ fixedWidthNumber globalSequence 20
  | accountAction account sequence =>
    "acc:".toList ++ (nameToString account ++ (":".toList ++ fixedWidthNumber sequence 20))
  | blockTransaction blockNum id =>
    "blk:".toList ++ (fixedWidthNumber blockNum 10 ++ (":".toList ++ idText id))
  | undo blockNum => "_internal_undo:".toList ++ Nat.toDigits 10 blockNum
  | accountSequence account => "_internal_account_sequence:".toList ++ nameToString account
  | lastBlockNumber => "_internal_last_block_number".toList
  | lastAcceptedBlockNum => "_internal_last_accepted_block_num".toList
  | lastAcceptedBlockId => "_internal_last_accepted_block_id".toList
  | schemaVersion => "_internal_schema_version".toList
  | accountIndexGapBlock => "_internal_account_index_gap_block".toList
  | historyGapBlock => "_internal_history_gap_block".toList
  | historyGapReason => "_internal_history_gap_reason".toList

def isInternal : HistoryKey → Bool
  | transaction _ | action _ | accountAction _ _ | blockTransaction _ _ => false
  | _ => true

def isAccountRow : HistoryKey → Bool
  | accountAction _ _ => true
  | _ => false

theorem isInternal_eq (k : HistoryKey) : k.isInternal = "_internal_".toList.isPrefixOf k.text := by
  cases k <;> rfl

theorem isAccountRow_eq (k : HistoryKey) : k.isAccountRow = "acc:".toList.isPrefixOf k.text := by
  cases k <;> rfl

end HistoryKey

structure ActionReceipt where
  receiver : AccountName
  globalSequence : ℕ

structure ActionTrace where
  receipt : Option ActionReceipt
  account : AccountName
  name : ActionName
  /-- the actors -/
  authorization : List AccountName

/-- An action in the record of its transaction: a reference, or the trace itself when it has
no receipt. -/
inductive TraceEntry where
  | actionRef (key : HistoryKey)
  | embedded (trace : ActionTrace)

structure TransactionRow where
  id : TransactionId
  blockNum : ℕ
  filtered : Bool
  traces : List TraceEntry
  accountIndexComplete : Bool

structure ActionRow where
  trxId : TransactionId
  (blockNum globalSequence : ℕ)
  account : AccountName
  actionName : ActionName
  actionTrace : ActionTrace

structure AccountActionRow where
  trxId : TransactionId
  (blockNum globalSequence : ℕ)
  account : AccountName
  actionName : ActionName
  accountActionSeq : ℕ
  actionRef : HistoryKey

inductive HistoryValue where
  | number (n : ℕ)
  | text (s : String)
  | reference (key : HistoryKey)
  | transaction (row : TransactionRow)
  | action (row : ActionRow)
  | accountAction (row : AccountActionRow)
  | undo (blockNum : ℕ) (restore : List (HistoryKey × HistoryValue)) (erase : List HistoryKey)

structure HistorySizes where
  row : HistoryValue → ℕ
  batch : List (StoreWrite HistoryKey HistoryValue) → ℕ

namespace HistoryValue

def size (sizes : HistorySizes) : HistoryValue → ℕ
  | number n => (Nat.toDigits 10 n).length
  | text s => s.length
  | reference key => key.text.length
  | row => sizes.row row

def stoul : HistoryValue → Option ℕ
  | number n => some n
  | _ => none

def maxNumArrayElements : ℕ := 1024 * 1024
def maxSizeOfByteArrays : ℕ := 20 * 1024 * 1024

def packUndo (sizes : HistorySizes) (record : HistoryBlockUndoRecord HistoryKey HistoryValue) :
    Option HistoryValue :=
  if record.undo.restore.length ≤ maxNumArrayElements ∧
      record.undo.erase.length ≤ maxNumArrayElements ∧
      record.undo.restore.all (fun e => decide (e.2.size sizes ≤ maxSizeOfByteArrays)) then
    some (undo record.blockNum record.undo.restore record.undo.erase)
  else none

def unpackUndo : HistoryValue → Option (HistoryBlockUndoRecord HistoryKey HistoryValue)
  | undo blockNum restore erase => some ⟨blockNum, restore, erase⟩
  | _ => none

end HistoryValue

open HistoryKey

def historyCodec (sizes : HistorySizes) : HistoryCodec HistoryKey HistoryValue where
  undoKey := .undo
  cursorKey := .lastAcceptedBlockNum
  isInternal := isInternal
  isAccountRow := isAccountRow
  keySize k := k.text.length
  valueSize v := v.size sizes
  dataSize := sizes.batch
  packUndo := HistoryValue.packUndo sizes
  unpackUndo := HistoryValue.unpackUndo
  numText := .number
  stoul := HistoryValue.stoul
  undoKey_injective := fun _ _ h => undo.inj h
  undoKey_internal := fun _ => rfl
  cursorKey_internal := rfl
  cursorKey_ne := nofun
  accountRow_public k h := by
    cases k <;> simp_all [isAccountRow, isInternal]
  unpack_pack r v h := by
    unfold HistoryValue.packUndo at h
    split_ifs at h
    cases h
    rfl
  stoul_numText := fun _ => rfl

end FlonCore
