import FlonCore.Library.Assoc
import FlonCore.Types

/-!
# Gas accounting

Every account has reserved gas. When a transaction or its RAM needs more, the
missing part is converted one to one from the payer's core tokens, which go to
the system's gas account. Freed RAM is refunded as reserved gas.

A failed check undoes the whole transaction, so the functions return the new
database or the failure. Words are `UInt64` and wrap as in the program.
-/

namespace FlonCore
open Library Function

def gasRatePrecision : UInt64 := 1000

structure ResourceConfig where
  (gasPerCpuMs gasPerNetKb gasPerRamKb : UInt32)
  (cpuLimitMax netLimitMax maxTotalRamUsage : UInt64)
  gasAccountName : AccountName
  coreSymbol : UInt64

structure AccountLimits where
  gas : UInt64
  isUnlimited : Bool
deriving DecidableEq, Repr

structure ResourceUsage where
  (netUsage cpuUsage ramUsage : UInt64)
deriving DecidableEq, Repr

structure ResourceState where
  (pendingNetUsage pendingCpuUsage totalNetUsage totalCpuUsage totalRamUsage : UInt64)
  (totalGasConsumed totalGasValueFlon : UInt64)
deriving DecidableEq, Repr

structure Asset where
  amount : ℤ
  symbol : UInt64
deriving DecidableEq, Repr

inductive TokenRow
  | tooShort
  | account (balance : Asset) (remainingData : List UInt8)
deriving DecidableEq, Repr

structure ResourceDb where
  limits : AccountName → Option AccountLimits
  usage : AccountName → Option ResourceUsage
  state : ResourceState
  accounts : AccountName → Option TokenRow

structure RamGasDelta where
  (ramDelta gasDelta : Int64)
deriving DecidableEq, Repr

structure AccountGasTrace where
  account : AccountName
  (reservedGasBefore reservedGasAfter usedGas convertedGas : UInt64)
  ramGasDelta : RamGasDelta
deriving DecidableEq, Repr

structure TransactionResUsage where
  payer : AccountName
  (netUsage netGas cpuUsage cpuGas : UInt64)
deriving DecidableEq, Repr

def maxU64 : UInt64 := 0xFFFFFFFFFFFFFFFF

def verifyAdd (a b : UInt64) (description : String) : Except Failure Unit :=
  eosAssert (b ≤ maxU64 - a) .calcOverflowException ("Overflow when adding(uint64) " ++ description)

def verifyAddSigned (a b : Int64) (description : String) : Except Failure Unit :=
  if 0 < a ∧ 0 < b then
    eosAssert (b ≤ Int64.maxValue - a) .calcOverflowException
      ("Overflow when adding(int64 positive) " ++ description)
  else if a < 0 ∧ b < 0 then
    eosAssert (Int64.minValue - a ≤ b) .calcOverflowException
      ("Underflow when adding(int64 negative) of " ++ description)
  else .ok ()

def verifyDeltaConverting (a : UInt64) (description : String) : Except Failure Unit :=
  eosAssert (a.toNat ≤ 2 ^ 63 - 1) .calcOverflowException ("Overflow when " ++ description)

def multiplyDecimalCeil (a b precision : UInt64) (description : String) : Except Failure UInt64 :=
  if a == 0 || b == 0 || precision == 0 then .ok 0
  else do
    let tmp := (a * b + (precision - 1)) / precision
    eosAssert (tmp ≤ maxU64 && (precision - 1 < maxU64 - a || precision - 1 < maxU64 - b))
      .calcOverflowException ("multiply_decimal_ceil overflow when " ++ description)
    return tmp

def divideDecimal (a b precision : UInt64) (description : String) : Except Failure UInt64 :=
  if a == 0 || b == 0 || precision == 0 then .ok 0
  else do
    let tmp := a * precision / b
    eosAssert (tmp ≤ maxU64) .calcOverflowException ("divide_decimal overflow when " ++ description)
    return tmp

def convertGasToRes (gas gasPerRes : UInt64) (description : String) : Except Failure UInt64 :=
  if gasPerRes == 0 then .ok maxU64
  else divideDecimal gas gasPerRes gasRatePrecision description

variable (cfg : ResourceConfig)

def convertCpuToGas (value : UInt64) : Except Failure UInt64 :=
  multiplyDecimalCeil value cfg.gasPerCpuMs.toUInt64 gasRatePrecision "converting cpu us to gas"

def convertNetToGas (value : UInt64) : Except Failure UInt64 :=
  multiplyDecimalCeil value cfg.gasPerNetKb.toUInt64 gasRatePrecision "converting net bytes to gas"

def convertRamToGas (value : UInt64) : Except Failure UInt64 :=
  multiplyDecimalCeil value cfg.gasPerRamKb.toUInt64 gasRatePrecision "converting ram bytes to gas"

def convertGasToCpu (gas : UInt64) : Except Failure UInt64 :=
  convertGasToRes gas cfg.gasPerCpuMs.toUInt64 "converting gas to cpu us"

def convertGasToNet (gas : UInt64) : Except Failure UInt64 :=
  convertGasToRes gas cfg.gasPerNetKb.toUInt64 "converting gas to net bytes"

def convertGasToRam (gas : UInt64) : Except Failure UInt64 :=
  convertGasToRes gas cfg.gasPerRamKb.toUInt64 "converting gas to ram bytes"

def getBlockCpuLimit (cpuLimitMax : UInt64) (state : ResourceState) : UInt64 :=
  cpuLimitMax - state.pendingCpuUsage

def getBlockNetLimit (netLimitMax : UInt64) (state : ResourceState) : UInt64 :=
  netLimitMax - state.pendingNetUsage

section Token
variable (cfg : ResourceConfig) (db : ResourceDb)

def Asset.checkRange (amount : ℤ) : Except Failure Unit :=
  eosAssert (-(2 ^ 62 - 1) ≤ amount && amount ≤ 2 ^ 62 - 1) .assetTypeException
    "magnitude of asset amount must be less than 2^62"

def convertGasToCoreAsset (gas : UInt64) : Except Failure Asset := do
  eosAssert (gas.toNat ≤ 2 ^ 63 - 1) .calcOverflowException
    "Overflow when converting gas to core asset!"
  Asset.checkRange gas.toNat
  return ⟨gas.toNat, cfg.coreSymbol⟩

def convertCoreAssetToGas (balance : Asset) : UInt64 :=
  if 0 < balance.amount then UInt64.ofNat balance.amount.toNat else 0

structure CoreAssetAccount where
  owner : AccountName
  balance : Asset
  remainingData : List UInt8

def CoreAssetAccount.create (account : AccountName) : Except Failure (Option CoreAssetAccount) :=
  match db.accounts account with
  | none | some .tooShort => .ok none
  | some (.account balance remainingData) => do
    Asset.checkRange balance.amount
    eosAssert (balance.symbol == cfg.coreSymbol) .txGasException
      "precision of core symbol ${sym} in token contract mismatch with config ${cfg_sym}"
    return some ⟨account, balance, remainingData⟩

def CoreAssetAccount.save (a : CoreAssetAccount) : ResourceDb :=
  { db with
    accounts := update db.accounts a.owner (some (.account a.balance a.remainingData)) }

def Asset.checkSameSymbol (a b : Asset) (message : String) : Except Failure Unit :=
  eosAssert (a.symbol == b.symbol) .assetTypeException message

/-- The comparison of the two assets checks their symbols; it is made when the first is not
negative. -/
def verifySubCoreAsset (a b : Asset) (description : String) : Except Failure Unit := do
  (if 0 ≤ a.amount then
    a.checkSameSymbol b "logical operation between two different asset is not allowed"
  else .ok ())
  eosAssert (0 ≤ a.amount && b.amount ≤ a.amount) .substractionInsufficentException
    ("Insufficent when substracting " ++ description)

def verifyAddCoreAsset (a b : Asset) (description : String) : Except Failure Unit :=
  eosAssert (0 ≤ a.amount && 0 ≤ b.amount && b.amount ≤ (2 ^ 63 - 1) - a.amount)
    .calcOverflowException ("Overflow when adding " ++ description)

structure CoreGasAccessor where
  (sysGasAccount payerGasAccount : CoreAssetAccount)
  convertibleGas : UInt64

def CoreGasAccessor.create (payer : AccountName) : Except Failure (Option CoreGasAccessor) := do
  match ← CoreAssetAccount.create cfg db payer with
  | none => return none
  | some payerGasAccount =>
    let convertibleGas := convertCoreAssetToGas payerGasAccount.balance
    if convertibleGas = 0 then return none
    else
      match ← CoreAssetAccount.create cfg db cfg.gasAccountName with
      | none => return none
      | some sysGasAccount => return some ⟨sysGasAccount, payerGasAccount, convertibleGas⟩

def CoreGasAccessor.payGas (cgs : CoreGasAccessor) (gas : UInt64) : Except Failure ResourceDb := do
  let quant ← convertGasToCoreAsset cfg gas
  verifySubCoreAsset cgs.payerGasAccount.balance quant
    "core asset of converted gas from payer account"
  verifyAddCoreAsset cgs.sysGasAccount.balance quant
    "core asset of converted gas to system gas account"
  cgs.payerGasAccount.balance.checkSameSymbol quant
    "subtraction between two different asset is not allowed"
  cgs.sysGasAccount.balance.checkSameSymbol quant
    "addition between two different asset is not allowed"
  let payerBalance : Asset :=
    ⟨cgs.payerGasAccount.balance.amount - quant.amount, cgs.payerGasAccount.balance.symbol⟩
  let sysBalance : Asset :=
    ⟨cgs.sysGasAccount.balance.amount + quant.amount, cgs.sysGasAccount.balance.symbol⟩
  let saved := CoreAssetAccount.save db { cgs.payerGasAccount with balance := payerBalance }
  return CoreAssetAccount.save saved { cgs.sysGasAccount with balance := sysBalance }

end Token

def setAccountReservedGas (db : ResourceDb) (account : AccountName) (limits : AccountLimits)
    (gas : UInt64) : ResourceDb :=
  if limits.gas = gas then db
  else { db with limits := update db.limits account (some { limits with gas := gas }) }

section Usage
variable (cfg : ResourceConfig) (db : ResourceDb) (res : TransactionResUsage)

def calcTransactionGasUsage : Except Failure (TransactionResUsage × UInt64) := do
  let cpuGas ← convertCpuToGas cfg res.cpuUsage
  let netGas ← convertNetToGas cfg res.netUsage
  verifyAdd cpuGas netGas "cpu gas and net gas of transaction payer"
  return ({ res with cpuGas := cpuGas, netGas := netGas }, cpuGas + netGas)

/-- The access to the payer's tokens, looked up only when reserved gas does not suffice. -/
def accessorFor (payer : AccountName) (reservedGas usedGas : UInt64) :
    Except Failure (Option CoreGasAccessor) :=
  if reservedGas < usedGas then CoreGasAccessor.create cfg db payer else .ok none

/-- The part of `add_transaction_usage` that takes the gas from a limited payer. -/
def chargeTransaction (payer : AccountName) (limits : AccountLimits) (usedGas : UInt64) :
    Except Failure (ResourceDb × AccountGasTrace) := do
  let cgs ← accessorFor cfg db payer limits.gas usedGas
  let convertibleGas := (cgs.map CoreGasAccessor.convertibleGas).getD 0
  verifyAdd limits.gas convertibleGas "reserved gas and convertible gas of transaction payer"
  eosAssert (usedGas ≤ limits.gas + convertibleGas) .txGasUsageExceeded
    ("payer account '${n}' has insufficient gas for cpu and net usage of this transaction ," ++
      "needs gas ${used_gas} , but has available gas ${gas}")
  if limits.gas < usedGas then
    match cgs with
    -- excluded by the check above, which then has no convertible gas to count
    | none => .error ⟨.txGasException, "cgs"⟩
    | some cgs =>
      let paid ← cgs.payGas cfg db (usedGas - limits.gas)
      return (setAccountReservedGas paid payer limits 0,
        ⟨payer, limits.gas, 0, usedGas, usedGas - limits.gas, ⟨0, 0⟩⟩)
  else
    return (setAccountReservedGas db payer limits (limits.gas - usedGas),
      ⟨payer, limits.gas, limits.gas - usedGas, usedGas, 0, ⟨0, 0⟩⟩)

/-- The rest of `add_transaction_usage`, which counts the usage. -/
def countTransaction (usage : ResourceUsage) (usedGas : UInt64) : Except Failure ResourceDb := do
  verifyAdd usage.cpuUsage res.cpuUsage "new cpu usage to existed of transaction payer"
  verifyAdd usage.netUsage res.netUsage "new net usage to existed of transaction payer"
  verifyAdd db.state.pendingCpuUsage res.cpuUsage "new cpu usage to pending cpu usage of block"
  verifyAdd db.state.pendingNetUsage res.netUsage "new net usage to pending net usage of block"
  verifyAdd db.state.totalCpuUsage res.cpuUsage "new cpu usage to total cpu usage"
  verifyAdd db.state.totalNetUsage res.netUsage "new net usage to total net usage"
  let state := { db.state with
    pendingCpuUsage := db.state.pendingCpuUsage + res.cpuUsage
    pendingNetUsage := db.state.pendingNetUsage + res.netUsage
    totalCpuUsage := db.state.totalCpuUsage + res.cpuUsage
    totalNetUsage := db.state.totalNetUsage + res.netUsage
    totalGasConsumed := db.state.totalGasConsumed + usedGas
    totalGasValueFlon := db.state.totalGasValueFlon + usedGas }
  eosAssert (state.pendingCpuUsage ≤ cfg.cpuLimitMax) .blockResourceExhausted
    "Block has insufficient cpu resources"
  eosAssert (state.pendingNetUsage ≤ cfg.netLimitMax) .blockResourceExhausted
    "Block has insufficient net resources"
  return { db with
    state := state
    usage := update db.usage res.payer (some { usage with
      cpuUsage := usage.cpuUsage + res.cpuUsage
      netUsage := usage.netUsage + res.netUsage }) }

def addTransactionUsage :
    Except Failure (ResourceDb × TransactionResUsage × Option AccountGasTrace) := do
  let usage ← getRow (db.usage res.payer)
  let limits ← getRow (db.limits res.payer)
  if limits.isUnlimited then
    let res' := { res with netGas := 0, cpuGas := 0 }
    let db' ← countTransaction cfg db res' usage 0
    return (db', res', none)
  else
    let (res', usedGas) ← calcTransactionGasUsage cfg res
    let (charged, trace) ← chargeTransaction cfg db res.payer limits usedGas
    verifyAdd charged.state.totalGasConsumed usedGas "used gas to total gas consumed"
    verifyAdd charged.state.totalGasValueFlon usedGas "used gas value to total gas value in FLON"
    let db' ← countTransaction cfg charged res' usage usedGas
    return (db', res', some trace)

def payRam (cgs : Option CoreGasAccessor) (reservedGas usedGas : UInt64) :
    Except Failure (ResourceDb × UInt64 × UInt64) :=
  match cgs with
  | none => .ok (db, reservedGas - usedGas, 0)
  | some cgs =>
    if 0 < cgs.convertibleGas then do
      let paid ← cgs.payGas cfg db (usedGas - reservedGas)
      return (paid, 0, usedGas - reservedGas)
    else .ok (db, reservedGas - usedGas, 0)

/-- The charge of `add_ram_usage` for a positive delta. -/
def chargeRam (account : AccountName) (limits : AccountLimits) (ramDelta : Int64) :
    Except Failure (ResourceDb × AccountGasTrace) := do
  let usedGas ← convertRamToGas cfg ramDelta.toUInt64
  let cgs ← accessorFor cfg db account limits.gas usedGas
  let convertibleGas := (cgs.map CoreGasAccessor.convertibleGas).getD 0
  verifyAdd limits.gas convertibleGas "reserved gas and convertible gas of ram account"
  eosAssert (usedGas ≤ limits.gas + convertibleGas) .txGasUsageExceeded
    ("authorizing account '${n}' has insufficient gas for ram usage, " ++
      "needs gas ${used_gas} , but has available gas ${gas}")
  let (paid, reservedGas, convertedGas) ← payRam cfg db cgs limits.gas usedGas
  let charged := setAccountReservedGas paid account limits reservedGas
  verifyAdd charged.state.totalGasConsumed usedGas "ram gas to total gas consumed"
  verifyAdd charged.state.totalGasValueFlon usedGas "ram gas value to total gas value in FLON"
  verifyDeltaConverting usedGas "converting ram gas decreased delta"
  return ({ charged with
      state := { charged.state with
        totalGasConsumed := charged.state.totalGasConsumed + usedGas
        totalGasValueFlon := charged.state.totalGasValueFlon + usedGas } },
    ⟨account, limits.gas, reservedGas, usedGas, convertedGas, ⟨ramDelta, (-usedGas).toInt64⟩⟩)

/-- The refund of `add_ram_usage` for a negative delta. -/
def refundRam (account : AccountName) (limits : AccountLimits) (ramDelta : Int64) :
    Except Failure (ResourceDb × AccountGasTrace) := do
  let ramGas ← convertRamToGas cfg (-ramDelta).toUInt64
  verifyAdd limits.gas ramGas "refunded ram gas to gas of account"
  verifyDeltaConverting ramGas "converting ram gas increased delta"
  return (setAccountReservedGas db account limits (limits.gas + ramGas),
    ⟨account, limits.gas, limits.gas + ramGas, 0, 0, ⟨ramDelta, ramGas.toInt64⟩⟩)

def changeRamGas (account : AccountName) (limits : AccountLimits) (ramDelta : Int64) :
    Except Failure (ResourceDb × AccountGasTrace) :=
  if 0 < ramDelta then chargeRam cfg db account limits ramDelta
  else refundRam cfg db account limits ramDelta

def checkDelta (bytes : UInt64) (ramDelta : Int64) (description insufficient : String) :
    Except Failure Unit :=
  if 0 < ramDelta then verifyAdd bytes ramDelta.toUInt64 description
  else eosAssert ((-ramDelta).toUInt64 ≤ bytes) .transactionException insufficient

/-- The rest of `add_ram_usage`, which counts the bytes. -/
def countRam (account : AccountName) (usage : ResourceUsage) (ramDelta : Int64) :
    Except Failure ResourceDb := do
  checkDelta db.state.totalRamUsage ramDelta "delta to total ram usage"
    "Total ram usage insufficent when substracting delta"
  let totalRamUsage := db.state.totalRamUsage + ramDelta.toUInt64
  eosAssert (totalRamUsage ≤ cfg.maxTotalRamUsage) .resourceExhaustedException
    "Total ram usage ${t} exceeds the max limit ${max}"
  return { db with
    state := { db.state with totalRamUsage := totalRamUsage }
    usage := update db.usage account
      (some { usage with ramUsage := usage.ramUsage + ramDelta.toUInt64 }) }

def addRamUsage (account : AccountName) (ramDelta : Int64) :
    Except Failure (ResourceDb × Option AccountGasTrace) :=
  if ramDelta = 0 then .ok (db, none)
  else do
    let usage ← getRow (db.usage account)
    checkDelta usage.ramUsage ramDelta "delta to existed ram usage of account"
      "Ram usage insufficent when substracting delta"
    let limits ← getRow (db.limits account)
    if limits.isUnlimited then
      let db' ← countRam cfg db account usage ramDelta
      return (db', none)
    else
      let (charged, trace) ← changeRamGas cfg db account limits ramDelta
      let db' ← countRam cfg charged account usage ramDelta
      return (db', some trace)

end Usage

structure RamDeltas where
  entries : List (AccountName × Int64)
  nodup : (keysOf entries).Nodup

/-- `transaction_context::add_ram_usage`. -/
def RamDeltas.addRamUsage (d : RamDeltas) (account : AccountName) (ramDelta : Int64) :
    Except Failure RamDeltas :=
  match find d.entries account with
  | none => .ok ⟨emplace d.entries (account, ramDelta), nodup_emplace d.nodup _⟩
  | some old => do
    verifyAddSigned old ramDelta "delta add to ram usage of account"
    return ⟨assign d.entries account (old + ramDelta), nodup_assign d.nodup _ _⟩

section Finalize
variable (cfg : ResourceConfig)

def emplaceTrace (traces : List AccountGasTrace) (trace : AccountGasTrace) : List AccountGasTrace :=
  if traces.any fun t => t.account == trace.account then traces else traces ++ [trace]

def addRamDelta (acc : ResourceDb × List AccountGasTrace) (delta : AccountName × Int64) :
    Except Failure (ResourceDb × List AccountGasTrace) := do
  let (db, trace) ← addRamUsage cfg acc.1 delta.1 delta.2
  return (db, trace.elim acc.2 (emplaceTrace acc.2))

def mergeTrace (trace trx : AccountGasTrace) : AccountGasTrace :=
  { trace with
    reservedGasAfter := trx.reservedGasAfter
    usedGas := trace.usedGas + trx.usedGas
    convertedGas := trace.convertedGas + trx.convertedGas }

def addTransactionTrace (traces : List AccountGasTrace) (payer : AccountName)
    (trx : AccountGasTrace) : Except Failure (List AccountGasTrace) :=
  match traces.find? fun t => t.account == payer with
  | none => .ok (emplaceTrace traces trx)
  | some trace => do
    verifyAdd trace.usedGas trx.usedGas "new used gas to existed of transaction payer"
    verifyAdd trace.convertedGas trx.convertedGas
      "new converted gas to existed of transaction payer"
    return traces.map fun t => if t.account == payer then mergeTrace t trx else t

/-- The gas part of `transaction_context::finalize`. -/
def finalizeGas (db : ResourceDb) (ramDeltas : RamDeltas) (res : TransactionResUsage) :
    Except Failure (ResourceDb × TransactionResUsage × List AccountGasTrace) := do
  let (db', traces) ← ramDeltas.entries.foldlM (addRamDelta cfg) (db, [])
  let (db'', res', trx) ← addTransactionUsage cfg db' res
  match trx with
  | none => return (db'', res', traces)
  | some trx =>
    let traces' ← addTransactionTrace traces res.payer trx
    return (db'', res', traces')

end Finalize
end FlonCore
