import FlonCore.GasConservation

/-!
# Elastic block limits

At the end of a block the usage of its transactions is added to a moving average.
While the average stays below a target the virtual limit of the resource expands,
above it the limit contracts, between the maximum of a block and a multiple of it.
The parameters come from the chain configuration that is in force at that time.
-/

namespace FlonCore
open Library

structure Ratio where
  (numerator denominator : UInt64)
deriving DecidableEq, Repr

def Ratio.mul (value : UInt64) (r : Ratio) : Except Failure UInt64 := do
  eosAssert (r.numerator == 0 || value ≤ maxU64 / r.numerator) .rateLimitingStateInconsistent
    "Usage exceeds maximum value representable after extending for precision"
  return value * r.numerator / r.denominator

def integerDivideCeil (num den : ℕ) : ℕ := num / den + if 0 < num % den then 1 else 0

def downgradeCast (val : ℕ) : Except Failure UInt64 := do
  eosAssert (val ≤ 2 ^ 64 - 1) .rateLimitingStateInconsistent
    ("Casting a higher bit integer value ${v} to a lower bit integer value which cannot " ++
      "contain the value, valid range is [${min}, ${max}]")
  return UInt64.ofNat val

def rateLimitingPrecision : ℕ := 1000 * 1000

/-- A moving average over a window of blocks, kept with a precision. -/
structure UsageAccumulator where
  lastOrdinal : UInt32
  (valueEx consumed : UInt64)
deriving DecidableEq, Repr

namespace UsageAccumulator

section Template
variable (precision : ℕ) (a : UsageAccumulator)

def maxRawValueAt : UInt64 := UInt64.ofNat ((2 ^ 64 - 1) / precision)

def averageAt : UInt64 := UInt64.ofNat (integerDivideCeil a.valueEx.toNat precision)

def decayed (ordinal windowSize : UInt32) : Except Failure UInt64 :=
  if ordinal.toNat < a.lastOrdinal.toNat + windowSize.toNat then
    Ratio.mul a.valueEx
      ⟨windowSize.toUInt64 - (ordinal - a.lastOrdinal).toUInt64, windowSize.toUInt64⟩
  else .ok 0

def advanceAt (ordinal windowSize : UInt32) : Except Failure UsageAccumulator :=
  if a.lastOrdinal = ordinal then .ok a
  else do
    eosAssert (a.lastOrdinal < ordinal) .resourceLimitException
      "new ordinal cannot be less than the previous ordinal"
    let valueEx ← a.decayed ordinal windowSize
    return ⟨ordinal, valueEx, averageAt precision ⟨ordinal, valueEx, 0⟩⟩

/-- `exponential_moving_average_accumulator<Precision>::add`. -/
def addAt (units : UInt64) (ordinal windowSize : UInt32) : Except Failure UsageAccumulator := do
  eosAssert (units ≤ maxRawValueAt precision) .rateLimitingStateInconsistent
    "Usage exceeds maximum value representable after extending for precision"
  eosAssert (units ≤ maxU64 - a.consumed) .rateLimitingStateInconsistent
    "Overflow in tracked usage when adding usage!"
  let valueExContrib ← downgradeCast (integerDivideCeil (units.toNat * precision) windowSize.toNat)
  eosAssert (valueExContrib ≤ maxU64 - a.valueEx) .rateLimitingStateInconsistent
    "Overflow in accumulated value when adding usage!"
  let advanced ← a.advanceAt precision ordinal windowSize
  return ⟨advanced.lastOrdinal, advanced.valueEx + valueExContrib, advanced.consumed + units⟩

end Template

def average (a : UsageAccumulator) : UInt64 := a.averageAt rateLimitingPrecision

def add (a : UsageAccumulator) (units : UInt64) (ordinal windowSize : UInt32) :
    Except Failure UsageAccumulator :=
  a.addAt rateLimitingPrecision units ordinal windowSize

end UsageAccumulator

structure ElasticLimitParameters where
  (target max : UInt64)
  (periods maxMultiplier : UInt32)
  (contractRate expandRate : Ratio)
deriving DecidableEq, Repr

namespace ElasticLimitParameters
variable (params : ElasticLimitParameters)

def validate : Except Failure Unit := do
  eosAssert (0 < params.periods) .resourceLimitException
    "elastic limit parameter 'periods' cannot be zero"
  eosAssert (0 < params.contractRate.denominator) .resourceLimitException
    "elastic limit parameter 'contract_rate' is not a well-defined ratio"
  eosAssert (0 < params.expandRate.denominator) .resourceLimitException
    "elastic limit parameter 'expand_rate' is not a well-defined ratio"

/-- The upper bound is computed without a check. -/
def updateElasticLimit (currentLimit averageUsage : UInt64) : Except Failure UInt64 := do
  let result ← Ratio.mul currentLimit
    (if params.target < averageUsage then params.contractRate else params.expandRate)
  return min (Max.max result params.max) (params.max * params.maxMultiplier.toUInt64)

end ElasticLimitParameters

def percent1 : UInt32 := 100
def percent100 : UInt32 := 10000
def minNetUsageDeltaBetweenBaseAndMaxForTrx : UInt32 := 10 * 1024
def maxSizeOfByteArrays : UInt32 := 20 * 1024 * 1024
def blockIntervalMs : UInt32 := 500
def blockCpuUsageAverageWindowMs : UInt32 := 60 * 1000
def blockSizeAverageWindowMs : UInt32 := 60 * 1000
def maximumElasticResourceMultiplier : UInt32 := 1000

def eosPercent (value : UInt64) (percentage : UInt32) : UInt64 :=
  value * percentage.toUInt64 / percent100.toUInt64

structure ChainConfig where
  maxBlockNetUsage : UInt64
  (targetBlockNetUsagePct maxTransactionNetUsage basePerTransactionNetUsage : UInt32)
  (contextFreeDiscountNetUsageNum contextFreeDiscountNetUsageDen maxBlockCpuUsage : UInt32)
  (targetBlockCpuUsagePct maxTransactionCpuUsage minTransactionCpuUsage : UInt32)
  maxAuthorityDepth : UInt16
  (gasPerCpuMs gasPerNetKb gasPerRamKb maxActionReturnValueSize : UInt32)
deriving DecidableEq, Repr

namespace ChainConfig
variable (cfg : ChainConfig)

def validate : Except Failure Unit := do
  eosAssert (cfg.targetBlockNetUsagePct ≤ percent100) .actionValidateException
    "target block net usage percentage cannot exceed 100%"
  eosAssert (percent1 / 10 ≤ cfg.targetBlockNetUsagePct) .actionValidateException
    "target block net usage percentage must be at least 0.1%"
  eosAssert (cfg.targetBlockCpuUsagePct ≤ percent100) .actionValidateException
    "target block cpu usage percentage cannot exceed 100%"
  eosAssert (percent1 / 10 ≤ cfg.targetBlockCpuUsagePct) .actionValidateException
    "target block cpu usage percentage must be at least 0.1%"
  eosAssert (cfg.maxTransactionNetUsage.toUInt64 < cfg.maxBlockNetUsage) .actionValidateException
    "max transaction net usage must be less than max block net usage"
  eosAssert (cfg.maxTransactionCpuUsage < cfg.maxBlockCpuUsage) .actionValidateException
    "max transaction cpu usage must be less than max block cpu usage"
  eosAssert (cfg.basePerTransactionNetUsage < cfg.maxTransactionNetUsage) .actionValidateException
    "base net usage per transaction must be less than the max transaction net usage"
  eosAssert (minNetUsageDeltaBetweenBaseAndMaxForTrx ≤
      cfg.maxTransactionNetUsage - cfg.basePerTransactionNetUsage) .actionValidateException
    ("max transaction net usage must be at least ${delta} bytes larger than base net usage per " ++
      "transaction")
  eosAssert (0 < cfg.contextFreeDiscountNetUsageDen) .actionValidateException
    "net usage discount ratio for context free data cannot have a 0 denominator"
  eosAssert (cfg.contextFreeDiscountNetUsageNum ≤ cfg.contextFreeDiscountNetUsageDen)
    .actionValidateException "net usage discount ratio for context free data cannot exceed 1"
  eosAssert (cfg.minTransactionCpuUsage ≤ cfg.maxTransactionCpuUsage) .actionValidateException
    "min transaction cpu usage cannot exceed max transaction cpu usage"
  eosAssert (cfg.maxTransactionCpuUsage < cfg.maxBlockCpuUsage - cfg.minTransactionCpuUsage)
    .actionValidateException
    ("max transaction cpu usage must be at less than the difference between the max block cpu " ++
      "usage and the min transaction cpu usage")
  eosAssert (1 ≤ cfg.maxAuthorityDepth) .actionValidateException
    "max authority depth should be at least 1"
  eosAssert (cfg.maxActionReturnValueSize ≤ maxSizeOfByteArrays) .actionValidateException
    "max action return value size should be less than MAX_SIZE_OF_BYTE_ARRAYS"

def elasticParameters (maxUsage : UInt64) (targetPct averageWindowMs : UInt32) :
    ElasticLimitParameters :=
  ⟨eosPercent maxUsage targetPct, maxUsage, averageWindowMs / blockIntervalMs,
    maximumElasticResourceMultiplier, ⟨99, 100⟩, ⟨1000, 999⟩⟩

def cpuLimitParameters : ElasticLimitParameters :=
  elasticParameters cfg.maxBlockCpuUsage.toUInt64 cfg.targetBlockCpuUsagePct
    blockCpuUsageAverageWindowMs

def netLimitParameters : ElasticLimitParameters :=
  elasticParameters cfg.maxBlockNetUsage cfg.targetBlockNetUsagePct blockSizeAverageWindowMs

end ChainConfig

structure BlockLimits where
  (cpuLimitParameters netLimitParameters : ElasticLimitParameters)
  (gasPerCpuMs gasPerNetKb gasPerRamKb : UInt32)
  db : ResourceDb
  (averageBlockNetUsage averageBlockCpuUsage : UsageAccumulator)
  (virtualNetLimit virtualCpuLimit : UInt64)

namespace BlockLimits
variable (s : BlockLimits)

def defaultCpuLimitParameters : ElasticLimitParameters :=
  ChainConfig.elasticParameters 200000 (10 * percent1) blockCpuUsageAverageWindowMs

def defaultNetLimitParameters : ElasticLimitParameters :=
  ChainConfig.elasticParameters (1024 * 1024) (10 * percent1) blockSizeAverageWindowMs

def initializeDatabase (cfg : ChainConfig) (limits : AccountName → Option AccountLimits)
    (usage : AccountName → Option ResourceUsage) (accounts : AccountName → Option TokenRow) :
    BlockLimits where
  cpuLimitParameters := defaultCpuLimitParameters
  netLimitParameters := defaultNetLimitParameters
  gasPerCpuMs := cfg.gasPerCpuMs
  gasPerNetKb := cfg.gasPerNetKb
  gasPerRamKb := cfg.gasPerRamKb
  db := ⟨limits, usage, ⟨0, 0, 0, 0, 0, 0, 0⟩, accounts⟩
  averageBlockNetUsage := ⟨0, 0, 0⟩
  averageBlockCpuUsage := ⟨0, 0, 0⟩
  virtualNetLimit := defaultNetLimitParameters.max
  virtualCpuLimit := defaultCpuLimitParameters.max

def setBlockParameters (cfg : ChainConfig) (cpu net : ElasticLimitParameters) :
    Except Failure BlockLimits := do
  cpu.validate
  net.validate
  return { s with
    cpuLimitParameters := cpu
    netLimitParameters := net
    gasPerCpuMs := cfg.gasPerCpuMs
    gasPerNetKb := cfg.gasPerNetKb
    gasPerRamKb := cfg.gasPerRamKb }

def processBlockUsage (blockNum : UInt32) : Except Failure BlockLimits := do
  let cpuAverage ← s.averageBlockCpuUsage.add s.db.state.pendingCpuUsage blockNum
    s.cpuLimitParameters.periods
  let cpuLimit ← s.cpuLimitParameters.updateElasticLimit s.virtualCpuLimit cpuAverage.average
  let netAverage ← s.averageBlockNetUsage.add s.db.state.pendingNetUsage blockNum
    s.netLimitParameters.periods
  let netLimit ← s.netLimitParameters.updateElasticLimit s.virtualNetLimit netAverage.average
  return { s with
    db := { s.db with state := { s.db.state with pendingCpuUsage := 0, pendingNetUsage := 0 } }
    averageBlockCpuUsage := cpuAverage
    averageBlockNetUsage := netAverage
    virtualCpuLimit := cpuLimit
    virtualNetLimit := netLimit }

/-- What `assemble_block` does to the limits at the end of a block. -/
def finishBlock (cfg : ChainConfig) (blockNum : UInt32) : Except Failure BlockLimits := do
  let installed ← s.setBlockParameters cfg cfg.cpuLimitParameters cfg.netLimitParameters
  installed.processBlockUsage blockNum

def resourceConfig (maxTotalRamUsage : UInt64) (gasAccountName : AccountName)
    (coreSymbol : UInt64) : ResourceConfig :=
  ⟨s.gasPerCpuMs, s.gasPerNetKb, s.gasPerRamKb, s.cpuLimitParameters.max,
    s.netLimitParameters.max, maxTotalRamUsage, gasAccountName, coreSymbol⟩

end BlockLimits
end FlonCore
