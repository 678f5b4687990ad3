import FlonCore.ElasticLimits

/-!
# Executing a transaction under limits

A transaction is initialized, executed and finalized. A producer measures its CPU
time and may run under a deadline; a validator is given the time that was billed.
`init` computes the limits, checks what is known before the execution and starts the
timer, `finalize` bills what was used. The execution itself is a parameter: any
function of the database that changes it and the RAM deltas, or throws. Times are
microseconds.
-/

namespace FlonCore
open Library

inductive DeadlineExceptionCode
  | blockCpuUsageExceeded
  | txCpuUsageExceeded
  | deadlineException
deriving DecidableEq, Repr

inductive TxCpuUsageExceededReason
  | accountCpuLimit
  | onChainConsensusMaxTransactionCpuUsage
  | userSpecifiedTrxMaxCpuUsageMs
  | nodeConfiguredMaxTransactionTime
  | speculativeExecutedAdjustedMaxTransactionTime
deriving DecidableEq, Repr

def TxCpuUsageExceededReason.message : TxCpuUsageExceededReason → String
  | .accountCpuLimit => " reached account cpu limit ${limit}us"
  | .onChainConsensusMaxTransactionCpuUsage =>
    " reached on chain max_transaction_cpu_usage ${limit}us"
  | .userSpecifiedTrxMaxCpuUsageMs => " reached trx specified max_cpu_usage_ms ${limit}us"
  | .nodeConfiguredMaxTransactionTime => " reached node configured max-transaction-time ${limit}us"
  | .speculativeExecutedAdjustedMaxTransactionTime =>
    " reached speculative executed adjusted trx max time ${limit}us"

structure TransactionHeader where
  firstAuthorizer : AccountName
  maxNetUsageWords : UInt32
  maxCpuUsageMs : UInt8
  initialNetUsage : UInt64

/-- The arguments of `push_transaction`; an absent time is the maximum. -/
structure PushArguments where
  start : ℤ
  (blockDeadline maxTransactionTimeSubjective : Option ℤ)
  explicitBilledCpuTime : Bool
  billedCpuTimeUs : UInt32
  subjectiveCpuBillUs : ℤ

structure ClockReadings where
  (initNow timerNow finalizeNow : ℤ)

/-- What does not change while a transaction runs. -/
structure TransactionEnv where
  cfg : ChainConfig
  resources : ResourceConfig
  accountExists : AccountName → Bool

structure TransactionContext where
  netLimit : UInt64
  netLimitDueToBlock : Bool
  (objectiveDurationLimit initialObjectiveDurationLimit : ℤ)
  (initialTxCpuUsageReason txCpuUsageReason : TxCpuUsageExceededReason)
  deadline : ℤ
  deadlineExceptionCode : DeadlineExceptionCode
  billedNetUsage : UInt64
  billedCpuTimeUs : ℤ
  resUsage : TransactionResUsage
deriving DecidableEq

/-- The conversion of an unsigned count to `fc::microseconds`. -/
def microseconds (x : UInt64) : ℤ := x.toInt64.toInt

def toUnsigned (us : ℤ) : UInt64 := UInt64.ofNat (us % 2 ^ 64).toNat

def toUInt32 (us : ℤ) : UInt32 := UInt32.ofNat (us % 2 ^ 32).toNat

section Limits

structure DurationLimit where
  limit : ℤ
  code : DeadlineExceptionCode
  reason : TxCpuUsageExceededReason
deriving DecidableEq, Repr

def DurationLimit.lower (d : DurationLimit) (limit : ℤ) (reason : TxCpuUsageExceededReason) :
    DurationLimit :=
  if limit ≤ d.limit then ⟨limit, .txCpuUsageExceeded, reason⟩ else d

variable (env : TransactionEnv) (db : ResourceDb) (trx : TransactionHeader) (args : PushArguments)

def rawNetLimit : UInt64 × Bool :=
  let blockLimit := getBlockNetLimit env.resources.netLimitMax db.state
  let (netLimit, dueToBlock) :=
    if env.cfg.maxTransactionNetUsage.toUInt64 ≤ blockLimit then
      (env.cfg.maxTransactionNetUsage.toUInt64, false)
    else (blockLimit, true)
  let specified := trx.maxNetUsageWords.toUInt64 * 8
  if 0 < specified ∧ specified ≤ netLimit then (specified, false) else (netLimit, dueToBlock)

def objectiveLimit : DurationLimit :=
  let blockLimit : DurationLimit :=
    ⟨microseconds (getBlockCpuLimit env.resources.cpuLimitMax db.state), .blockCpuUsageExceeded,
      .accountCpuLimit⟩
  let limit := blockLimit.lower env.cfg.maxTransactionCpuUsage.toNat
    .onChainConsensusMaxTransactionCpuUsage
  if 0 < trx.maxCpuUsageMs then
    limit.lower (trx.maxCpuUsageMs.toNat * 1000) .userSpecifiedTrxMaxCpuUsageMs
  else limit

def initialLimit : DurationLimit :=
  match args.maxTransactionTimeSubjective with
  | none => objectiveLimit env db trx
  | some time => (objectiveLimit env db trx).lower time
    (if 0 < args.billedCpuTimeUs then .speculativeExecutedAdjustedMaxTransactionTime
      else .nodeConfiguredMaxTransactionTime)

def effectiveBlockDeadline : ℤ :=
  args.blockDeadline.getD (args.start + 24 * 7 * 52 * 60 * 60 * 1000000)

def initialContext : TransactionContext :=
  let (netLimit, dueToBlock) := rawNetLimit env db trx
  let duration := initialLimit env db trx args
  let blockDeadline := effectiveBlockDeadline args
  let atBlock := decide (blockDeadline < args.start + duration.limit)
  { netLimit := netLimit / 8 * 8
    netLimitDueToBlock := dueToBlock
    objectiveDurationLimit := duration.limit
    initialObjectiveDurationLimit := duration.limit
    initialTxCpuUsageReason := duration.reason
    txCpuUsageReason := duration.reason
    deadline := if atBlock then blockDeadline else args.start + duration.limit
    deadlineExceptionCode := if atBlock then .deadlineException else duration.code
    billedNetUsage := trx.initialNetUsage
    billedCpuTimeUs := args.billedCpuTimeUs.toNat
    resUsage := ⟨trx.firstAuthorizer, 0, 0, 0, 0⟩ }

end Limits

namespace TransactionContext
variable (env : TransactionEnv) (args : PushArguments) (ctx : TransactionContext)

def updateBilledCpuTime (now : ℤ) : TransactionContext :=
  if args.explicitBilledCpuTime then ctx
  else { ctx with
    billedCpuTimeUs := max (now - args.start) env.cfg.minTransactionCpuUsage.toNat }

def checkNetLimit : Except Failure Unit :=
  if ctx.netLimit < ctx.billedNetUsage then
    if ctx.netLimitDueToBlock then
      .error ⟨.blockNetUsageExceeded,
        "not enough space left in block: ${net_usage} > ${net_limit}"⟩
    else
      .error ⟨.txNetUsageExceeded,
        "transaction net usage is too high: ${net_usage} > ${net_limit}"⟩
  else .ok ()

def subjectiveMessage : String :=
  if 0 < args.subjectiveCpuBillUs then " with a subjective cpu of (${subjective} us)" else ""

def checkCpuLimit (checkMinimum : Bool) : Except Failure Unit := do
  (if checkMinimum then
    eosAssert (env.cfg.minTransactionCpuUsage.toNat ≤ ctx.billedCpuTimeUs) .transactionException
      "cannot bill CPU time less than the minimum of ${min_billable} us"
  else .ok ())
  if ctx.initialObjectiveDurationLimit < ctx.billedCpuTimeUs then
    match ctx.deadlineExceptionCode with
    | .blockCpuUsageExceeded => .error ⟨.blockCpuUsageExceeded,
        "not enough time left in block to complete executing transaction ${billed_cpu_time_us}us"⟩
    | .txCpuUsageExceeded => .error ⟨.txCpuUsageExceeded,
        "transaction ${id} was executing for too long ${billed_cpu_time_us}us" ++
          subjectiveMessage args ++ ctx.initialTxCpuUsageReason.message⟩
    | .deadlineException => .ok ()
  else .ok ()

def recordUsage : TransactionContext :=
  { ctx with resUsage := { ctx.resUsage with
      cpuUsage := (toUInt32 ctx.billedCpuTimeUs).toUInt64
      netUsage := ctx.billedNetUsage } }

def lowerDuration (accountCpuLimit : UInt64) : TransactionContext :=
  { ctx with
    objectiveDurationLimit := microseconds accountCpuLimit
    deadlineExceptionCode := .txCpuUsageExceeded
    txCpuUsageReason := .accountCpuLimit
    deadline := args.start + microseconds accountCpuLimit }

def checktime (now : ℤ) : Except Failure Unit :=
  if now < ctx.deadline then .ok ()
  else if args.explicitBilledCpuTime ∨ ctx.deadlineExceptionCode = .deadlineException then
    .error ⟨.deadlineException, "deadline exceeded ${billing_timer}us"⟩
  else if ctx.deadlineExceptionCode = .blockCpuUsageExceeded then
    .error ⟨.blockCpuUsageExceeded,
      "not enough time left in block to complete executing transaction ${billing_timer}us"⟩
  else
    .error ⟨.txCpuUsageExceeded,
      "transaction ${id} was executing for too long ${billing_timer}us" ++
        subjectiveMessage args ++ ctx.txCpuUsageReason.message⟩

end TransactionContext

section Gas
variable (env : TransactionEnv) (db : ResourceDb) (args : PushArguments)

def getAccountConvertibleGas (account : AccountName) : Except Failure UInt64 := do
  match ← CoreAssetAccount.create env.resources db account with
  | none => return 0
  | some a =>
    if 0 < a.balance.amount then
      match ← CoreAssetAccount.create env.resources db env.resources.gasAccountName with
      | none => return 0
      | some _ => return convertCoreAssetToGas a.balance
    else return 0

def verifyTransactionGasUsage (res : TransactionResUsage) (reservedGas convertibleGas : UInt64) :
    Except Failure Unit := do
  verifyAdd res.cpuGas res.netGas "cpu gas and net gas of transaction payer"
  verifyAdd reservedGas convertibleGas "cpu gas and net gas of transaction payer"
  eosAssert (res.cpuGas + res.netGas ≤ reservedGas + convertibleGas) .txGasUsageExceeded
    ("payer account '${n}' has insufficient gas for cpu usage ${cpu_usage} and net usage " ++
      "${net_usage} of this transaction,needs gas ${used_gas} , but has available gas ${gas}")

def limitByGas (ctx : TransactionContext) (reservedGas convertibleGas : UInt64) :
    Except Failure TransactionContext := do
  verifyAdd reservedGas convertibleGas "reserved gas and convertible gas of transaction payer"
  let gasLimit := reservedGas + convertibleGas
  let usedGas := ctx.resUsage.cpuGas + ctx.resUsage.netGas
  eosAssert (usedGas ≤ gasLimit) .txGasUsageExceeded
    "payer account '${n}' has insufficient gas for cpu to execute this transaction"
  let accountCpuLimit ← convertGasToCpu env.resources (gasLimit - usedGas)
  let limited := if accountCpuLimit ≤ toUnsigned ctx.objectiveDurationLimit then
    ctx.lowerDuration args accountCpuLimit else ctx
  if 0 < args.subjectiveCpuBillUs then
    eosAssert (toUnsigned args.subjectiveCpuBillUs ≤ accountCpuLimit) .txGasUsageExceeded
      ("payer account '${n}' has insufficient gas for cpu to execute this transaction" ++
        " with a subjective cpu of (${subjective} us")
    let remaining := accountCpuLimit - toUnsigned args.subjectiveCpuBillUs
    return if remaining < toUnsigned limited.objectiveDurationLimit then
      limited.lowerDuration args remaining else limited
  else return limited

def checkGas (ctx : TransactionContext) : Except Failure TransactionContext := do
  let limits ← getRow (db.limits ctx.resUsage.payer)
  if limits.isUnlimited then return ctx
  else
    let convertibleGas ← getAccountConvertibleGas env db ctx.resUsage.payer
    let (res, _) ← calcTransactionGasUsage env.resources ctx.resUsage
    verifyTransactionGasUsage res limits.gas convertibleGas
    let counted := { ctx with resUsage := res }
    if args.explicitBilledCpuTime then return counted
    else limitByGas env args counted limits.gas convertibleGas

end Gas

section Run
variable (env : TransactionEnv) (trx : TransactionHeader)

def TransactionContext.init (db : ResourceDb) (args : PushArguments) (clock : ClockReadings) :
    Except Failure TransactionContext := do
  eosAssert (env.accountExists trx.firstAuthorizer) .transactionException
    "Transaction payer account '${account}' does not exist"
  let ctx := ((initialContext env db trx args).updateBilledCpuTime env args
    clock.initNow).recordUsage
  ctx.checkNetLimit
  ctx.checkCpuLimit env args false
  let checked ← checkGas env db args ctx
  let timed := if args.explicitBilledCpuTime then
    { checked with
      deadline := effectiveBlockDeadline args
      deadlineExceptionCode := .deadlineException }
    else checked
  timed.checktime args clock.timerNow
  return timed

structure Executed where
  db : ResourceDb
  billedCpuTimeUs : UInt32
  resUsage : TransactionResUsage
  gasTraces : List AccountGasTrace

def roundUpNetUsage (billedNetUsage : UInt64) : Except Failure UInt64 := do
  verifyAdd billedNetUsage 7 "billed_net_usage and 7"
  return (billedNetUsage + 7) / 8 * 8

/-- The end of `finalize`, which bills the usage to the payer. -/
def billUsage (db : ResourceDb) (traces : List AccountGasTrace) (res : TransactionResUsage)
    (billedCpuTimeUs : UInt32) : Except Failure Executed := do
  let (db', res', trx) ← addTransactionUsage env.resources db res
  match trx with
  | none => return ⟨db', billedCpuTimeUs, res', traces⟩
  | some trx =>
    let gasTraces ← addTransactionTrace traces res'.payer trx
    return ⟨db', billedCpuTimeUs, res', gasTraces⟩

def TransactionContext.finalize (ctx : TransactionContext) (args : PushArguments)
    (clock : ClockReadings) (db : ResourceDb) (ramDeltas : RamDeltas) :
    Except Failure Executed := do
  let billedNetUsage ← roundUpNetUsage ctx.billedNetUsage
  let (db', traces) ← ramDeltas.entries.foldlM (addRamDelta env.resources) (db, [])
  let rounded := { ctx with billedNetUsage := billedNetUsage }
  rounded.checkNetLimit
  let billed := rounded.updateBilledCpuTime env args clock.finalizeNow
  billed.checkCpuLimit env args true
  billUsage env db' traces billed.recordUsage.resUsage (toUInt32 billed.billedCpuTimeUs)

/-- The part of `push_transaction` that runs the transaction. -/
def pushTransaction (exec : ResourceDb → Except Failure (ResourceDb × RamDeltas)) (db : ResourceDb)
    (args : PushArguments) (clock : ClockReadings) : Except Failure Executed := do
  let ctx ← TransactionContext.init env trx db args clock
  let (db', ramDeltas) ← exec db
  ctx.finalize env args clock db' ramDeltas

end Run
end FlonCore
