import FlonCore.Types
import Mathlib.Data.List.MinMax

/-!
# The queue of unapplied transactions

The size in bytes and the number of incoming transactions are kept by hand next to the
container. Callbacks to the senders of transactions are left out: they do not change the queue.
-/

namespace FlonCore

open List UInt64
inductive TrxEnumType
  | unknown
  | forked
  | aborted
  | incomingApi
  | incomingP2p
  deriving DecidableEq

structure UnappliedTransaction where
  id : BitVec 256
  (expiration unprunableSize prunableSize : UInt32)
  trxType : TrxEnumType := .unknown
  deriving DecidableEq

structure UnappliedTransactionQueue where
  queue : List UnappliedTransaction := []
  sizeInBytes : UInt64 := 0
  incomingCount : UInt64 := 0

/-- `max_transaction_queue_size`, and the size of a `transaction_metadata` object. -/
structure QueueSizes where
  maxTransactionQueueSize : UInt64 := 1073741824
  transactionMetadata : UInt64

namespace UnappliedTransaction

def isIncoming (t : UnappliedTransaction) : Bool :=
  t.trxType = .incomingP2p || t.trxType = .incomingApi

def calcSize (sizes : QueueSizes) (t : UnappliedTransaction) : UInt64 :=
  (t.unprunableSize.toUInt64 + t.prunableSize.toUInt64) * 2 + sizes.transactionMetadata

end UnappliedTransaction

namespace UnappliedTransactionQueue

variable (sizes : QueueSizes) (q : UnappliedTransactionQueue)

def added (t : UnappliedTransaction) : Except Failure UnappliedTransactionQueue := do
  let size := t.calcSize sizes
  let q' := { q with sizeInBytes := q.sizeInBytes + size }
  if t.isIncoming then
    eosAssert (size < sizes.maxTransactionQueueSize &&
        q.sizeInBytes < sizes.maxTransactionQueueSize - size) .txResourceExhaustion
      ("Transaction ${id}, size ${s} bytes would exceed configured " ++
        "incoming-transaction-queue-size-mb ${qs}, current queue size ${cs} bytes")
    return { q' with incomingCount := q.incomingCount + 1 }
  return q'

/-- `removed` and the erasure that follows it. -/
def remove (t : UnappliedTransaction) : UnappliedTransactionQueue where
  queue := q.queue.erase t
  sizeInBytes := q.sizeInBytes - t.calcSize sizes
  incomingCount := if t.isIncoming then q.incomingCount - 1 else q.incomingCount

def find (id : BitVec 256) : Option UnappliedTransaction := q.queue.find? (·.id = id)

/-- Insertion fails without an exception when the id is in the queue. -/
def insert (t : UnappliedTransaction) : Except Failure Unit × UnappliedTransactionQueue :=
  if (q.find t.id).isSome then (.ok (), q)
  else
    let inserted := { q with queue := q.queue ++ [t] }
    match inserted.added sizes t with
    | .ok q' => (.ok (), q')
    | .error e => (.error e, { inserted with queue := inserted.queue.erase t })

def addForked (t : UnappliedTransaction) : Except Failure Unit × UnappliedTransactionQueue :=
  q.insert sizes { t with trxType := .forked }

def addAborted : UnappliedTransactionQueue → List UnappliedTransaction →
    Except Failure Unit × UnappliedTransactionQueue
  | q, [] => (.ok (), q)
  | q, t :: rest =>
    match q.insert sizes { t with trxType := .aborted } with
    | (.ok (), q') => addAborted q' rest
    | failed => failed

def addIncoming (t : UnappliedTransaction) (apiTrx : Bool) :
    Except Failure Unit × UnappliedTransactionQueue :=
  if (q.find t.id).isSome then (.ok (), q)
  else q.insert sizes { t with trxType := if apiTrx then .incomingApi else .incomingP2p }

/-- `rounds` is how often `yield` answers false before it answers true. -/
def clearExpired (pendingBlockTime : ℤ) : ℕ → UnappliedTransactionQueue →
    Bool × UnappliedTransactionQueue
  | rounds, q =>
    match q.queue.argmin (·.expiration.toNat) with
    | none => (true, q)
    | some t =>
      if t.expiration.toNat * 1000000 > pendingBlockTime then (true, q)
      else
        match rounds with
        | 0 => (false, q)
        | rounds + 1 => clearExpired pendingBlockTime rounds (q.remove sizes t)

/-- A receipt without a packed transaction is `none`. -/
def clearApplied (receipts : List (Option (BitVec 256))) : UnappliedTransactionQueue :=
  receipts.foldl (fun q receipt =>
    match receipt.bind q.find with
    | some t => q.remove sizes t
    | none => q) q

inductive Call
  | addForked (t : UnappliedTransaction)
  | addAborted (ts : List UnappliedTransaction)
  | addIncoming (t : UnappliedTransaction) (apiTrx : Bool)
  | clearExpired (pendingBlockTime : ℤ) (rounds : ℕ)
  | clearApplied (receipts : List (Option (BitVec 256)))
  /-- an iterator is given by the id of its transaction -/
  | erase (id : BitVec 256)
  | clear

def call : Call → Except Failure Unit × UnappliedTransactionQueue
  | .addForked t => q.addForked sizes t
  | .addAborted ts => addAborted sizes q ts
  | .addIncoming t apiTrx => q.addIncoming sizes t apiTrx
  | .clearExpired time rounds => (.ok (), (clearExpired sizes time rounds q).2)
  | .clearApplied receipts => (.ok (), q.clearApplied sizes receipts)
  | .erase id => (.ok (), ((q.find id).map (q.remove sizes)).getD q)
  | .clear => (.ok (), {})

def run (calls : List Call) : UnappliedTransactionQueue :=
  calls.foldl (fun q c => (q.call sizes c).2) {}

def totalSize (l : List UnappliedTransaction) : ℕ := (l.map (·.calcSize sizes |>.toNat)).sum

/-- The counters as functions of the queued transactions. -/
structure Accounted : Prop where
  sizeInBytes : q.sizeInBytes = .ofNat (totalSize sizes q.queue)
  incomingCount : q.incomingCount = .ofNat (q.queue.countP (·.isIncoming))

variable {sizes q} {q' : UnappliedTransactionQueue} {t : UnappliedTransaction} {e : Failure}

theorem added_eq_ok (h : q.added sizes t = .ok q') : q' = { q with
      sizeInBytes := q.sizeInBytes + t.calcSize sizes
      incomingCount := if t.isIncoming then q.incomingCount + 1 else q.incomingCount } ∧
    (t.isIncoming → q'.sizeInBytes < sizes.maxTransactionQueueSize) := by
  unfold added at h
  by_cases hin : t.isIncoming
  · rw [if_pos hin] at h ⊢
    obtain ⟨hroom, h⟩ := seq_eq_ok.mp h
    cases h
    rw [eosAssert_eq_ok, Bool.and_eq_true, decide_eq_true_eq, decide_eq_true_eq,
      lt_iff_toNat_lt, lt_iff_toNat_lt] at hroom
    obtain ⟨hsize, hroom⟩ := hroom
    rw [UInt64.toNat_sub_of_le _ _ (le_iff_toNat_le.mpr hsize.le)] at hroom
    have hmax := sizes.maxTransactionQueueSize.toNat_lt
    refine ⟨rfl, fun _ => lt_iff_toNat_lt.mpr ?_⟩
    rw [UInt64.toNat_add, Nat.mod_eq_of_lt (by omega)]
    omega
  · rw [if_neg hin] at h ⊢
    cases h
    exact ⟨rfl, fun h => absurd h hin⟩

theorem Accounted.added (h : q.Accounted sizes)
    (hok : { q with queue := q.queue ++ [t] }.added sizes t = .ok q') : q'.Accounted sizes := by
  obtain ⟨rfl, -⟩ := added_eq_ok hok
  constructor
  · simp [totalSize, h.sizeInBytes, ofNat_add]
  · by_cases hin : t.isIncoming <;> simp [hin, h.incomingCount, ofNat_add]

theorem Accounted.remove (h : q.Accounted sizes) (ht : t ∈ q.queue) :
    (q.remove sizes t).Accounted sizes := by
  have hperm := perm_cons_erase ht
  have hsize : totalSize sizes q.queue =
      totalSize sizes (q.queue.erase t) + (t.calcSize sizes).toNat :=
    (hperm.map _).sum_eq.trans (Nat.add_comm _ _)
  have hcount := hperm.countP_eq (·.isIncoming)
  constructor
  · simp [UnappliedTransactionQueue.remove, h.sizeInBytes, hsize, ofNat_add]
  · by_cases hin : t.isIncoming <;>
      simp [UnappliedTransactionQueue.remove, hin, h.incomingCount, hcount, ofNat_add]

theorem mem_of_find {id : BitVec 256} (h : q.find id = some t) : t ∈ q.queue :=
  mem_of_find?_eq_some h

/-- Only an incoming transaction is rejected, and it leaves no trace. -/
theorem insert_cases (q : UnappliedTransactionQueue) (t : UnappliedTransaction) :
    ((q.find t.id).isSome ∧ q.insert sizes t = (.ok (), q)) ∨
    (∃ q', { q with queue := q.queue ++ [t] }.added sizes t = .ok q' ∧
      q.insert sizes t = (.ok (), q')) ∨
    ∃ e, t.isIncoming ∧ q.insert sizes t = (.error e, q) := by
  unfold insert
  split_ifs with hfind
  · exact .inl ⟨hfind, rfl⟩
  · cases hadded : { q with queue := q.queue ++ [t] }.added sizes t with
    | ok q' => exact .inr (.inl ⟨q', rfl, by simp [hadded]⟩)
    | error e =>
      have hnew : t ∉ q.queue := fun hmem =>
        hfind (find?_isSome.mpr ⟨t, hmem, decide_eq_true rfl⟩)
      refine .inr (.inr ⟨e, ?_, ?_⟩)
      · by_contra hin
        simp [added, hin, pure, Except.pure] at hadded
      · simp [hadded, erase_append_right _ hnew]

theorem Accounted.insert (h : q.Accounted sizes) (t : UnappliedTransaction) :
    (q.insert sizes t).2.Accounted sizes := by
  obtain ⟨-, heq⟩ | ⟨q', hadded, heq⟩ | ⟨e, -, heq⟩ := insert_cases q t
  · rwa [heq]
  · rw [heq]
    exact h.added hadded
  · rwa [heq]

theorem insert_ok (hin : t.isIncoming = false) : (q.insert sizes t).1 = .ok () := by
  obtain ⟨-, heq⟩ | ⟨q', -, heq⟩ | ⟨e, hin', -⟩ := insert_cases q t
  · rw [heq]
  · rw [heq]
  · exact absurd (hin.symm.trans hin') (by simp)

theorem addIncoming_eq (apiTrx : Bool) : q.addIncoming sizes t apiTrx =
    q.insert sizes { t with trxType := if apiTrx then .incomingApi else .incomingP2p } := by
  unfold addIncoming insert
  split_ifs <;> rfl

theorem Accounted.addAborted (h : q.Accounted sizes) (ts : List UnappliedTransaction) :
    (addAborted sizes q ts).1 = .ok () ∧ (addAborted sizes q ts).2.Accounted sizes := by
  induction ts generalizing q with
  | nil => exact ⟨rfl, h⟩
  | cons t ts ih =>
    have hok : (q.insert sizes { t with trxType := .aborted }).1 = .ok () := insert_ok rfl
    have hrest := ih (h.insert { t with trxType := .aborted })
    rw [UnappliedTransactionQueue.addAborted]
    generalize q.insert sizes { t with trxType := .aborted } = r at hok hrest ⊢
    obtain ⟨_, q'⟩ := r
    cases hok
    exact hrest

theorem Accounted.clearExpired (time : ℤ) (rounds : ℕ) (h : q.Accounted sizes) :
    (clearExpired sizes time rounds q).2.Accounted sizes := by
  induction rounds generalizing q with
  | zero =>
    unfold UnappliedTransactionQueue.clearExpired
    split
    · exact h
    · split_ifs <;> exact h
  | succ rounds ih =>
    unfold UnappliedTransactionQueue.clearExpired
    split
    · exact h
    · next t hmin =>
      split_ifs
      · exact h
      · exact ih (h.remove (argmin_mem hmin))

theorem Accounted.clearApplied (h : q.Accounted sizes) (receipts : List (Option (BitVec 256))) :
    (q.clearApplied sizes receipts).Accounted sizes := by
  unfold UnappliedTransactionQueue.clearApplied
  induction receipts generalizing q with
  | nil => exact h
  | cons receipt receipts ih =>
    rw [foldl_cons]
    apply ih
    split
    · next t ht =>
      obtain ⟨id, -, hfind⟩ := Option.bind_eq_some_iff.mp ht
      exact h.remove (mem_of_find hfind)
    · exact h

theorem Accounted.call (h : q.Accounted sizes) (c : Call) : (q.call sizes c).2.Accounted sizes := by
  cases c with
  | addForked t => exact h.insert _
  | addAborted ts => exact (h.addAborted ts).2
  | addIncoming t apiTrx =>
    rw [UnappliedTransactionQueue.call, addIncoming_eq]
    exact h.insert _
  | clearExpired time rounds => exact h.clearExpired time rounds
  | clearApplied receipts => exact h.clearApplied receipts
  | erase id =>
    change (((q.find id).map (q.remove sizes)).getD q).Accounted sizes
    cases hfind : q.find id with
    | none => exact h
    | some t => exact h.remove (mem_of_find hfind)
  | clear => exact ⟨rfl, rfl⟩

theorem Accounted.rejected (h : q.Accounted sizes) {c : Call}
    (herror : (q.call sizes c).1 = .error e) : (q.call sizes c).2 = q := by
  cases c with
  | addForked t => exact absurd (herror.symm.trans (insert_ok rfl)) (by simp)
  | addAborted ts => exact absurd (herror.symm.trans (h.addAborted ts).1) (by simp)
  | addIncoming t apiTrx =>
    rw [UnappliedTransactionQueue.call, addIncoming_eq] at herror ⊢
    obtain ⟨-, heq⟩ | ⟨q', -, heq⟩ | ⟨e', -, heq⟩ := insert_cases q
      { t with trxType := if apiTrx then .incomingApi else .incomingP2p } <;> rw [heq] at herror ⊢
    cases herror
  | clearExpired | clearApplied | erase | clear => cases herror

theorem queue_accounting (sizes : QueueSizes) (calls : List Call) :
    let q := run sizes calls
    q.sizeInBytes = .ofNat (totalSize sizes q.queue) ∧
      q.incomingCount = .ofNat (q.queue.countP (·.isIncoming)) ∧
      (∀ c e, (q.call sizes c).1 = .error e → (q.call sizes c).2 = q) ∧
      ∀ t apiTrx, q.find t.id = none → (q.addIncoming sizes t apiTrx).1 = .ok () →
        (q.addIncoming sizes t apiTrx).2.sizeInBytes < sizes.maxTransactionQueueSize := by
  have hrun : ∀ q : UnappliedTransactionQueue, q.Accounted sizes →
      (calls.foldl (fun q c => (q.call sizes c).2) q).Accounted sizes := by
    induction calls with
    | nil => exact fun q h => h
    | cons c calls ih => exact fun q h => ih _ (h.call c)
  have h : (run sizes calls).Accounted sizes := hrun {} ⟨rfl, rfl⟩
  refine ⟨h.sizeInBytes, h.incomingCount, fun c e => h.rejected, fun t apiTrx hnew hok => ?_⟩
  have hin : { t with
      trxType := if apiTrx then .incomingApi else .incomingP2p }.isIncoming = true := by
    cases apiTrx <;> rfl
  rw [addIncoming_eq] at hok ⊢
  obtain ⟨hfound, -⟩ | ⟨q', hadded, heq⟩ | ⟨e, -, heq⟩ := insert_cases
    (run sizes calls) { t with trxType := if apiTrx then .incomingApi else .incomingP2p }
  · simp [hnew] at hfound
  · rw [heq]
    exact (added_eq_ok hadded).2 hin
  · rw [heq] at hok
    cases hok

end UnappliedTransactionQueue
end FlonCore
