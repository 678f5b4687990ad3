import FlonCore.ElasticLimits
import FlonCore.Library.Packing

/-!
# Chain parameters by id

A contract reads and sets parameters of the chain configuration as a packed
list of ids and values, where the width of a value depends on its id. Setting
unpacks the values into a copy of the configuration, validates the copy and
only then stores it.
-/

namespace FlonCore
open Library

/-- `chain_config_v1`: the parameters the resource limits use and all others. -/
structure ChainConfigV1 extends ChainConfig where
  (netUsageLeeway maxTransactionLifetime deferredTrxExpirationWindow maxTransactionDelay : UInt32)
  maxInlineActionSize : UInt32
  maxInlineActionDepth : UInt16
  maxTotalRamUsage : UInt64
deriving DecidableEq, Repr

inductive Parameter
  | maxBlockNetUsage
  | targetBlockNetUsagePct
  | maxTransactionNetUsage
  | basePerTransactionNetUsage
  | netUsageLeeway
  | contextFreeDiscountNetUsageNum
  | contextFreeDiscountNetUsageDen
  | maxBlockCpuUsage
  | targetBlockCpuUsagePct
  | maxTransactionCpuUsage
  | minTransactionCpuUsage
  | maxTransactionLifetime
  | deferredTrxExpirationWindow
  | maxTransactionDelay
  | maxInlineActionSize
  | maxInlineActionDepth
  | maxAuthorityDepth
  | maxTotalRamUsage
  | gasPerCpuMs
  | gasPerNetKb
  | gasPerRamKb
  | maxActionReturnValueSize
deriving DecidableEq, Repr

namespace Parameter

/-- The parameters of `chain_config_v0`. -/
def v0 : List Parameter :=
  [maxBlockNetUsage, targetBlockNetUsagePct, maxTransactionNetUsage, basePerTransactionNetUsage,
    netUsageLeeway, contextFreeDiscountNetUsageNum, contextFreeDiscountNetUsageDen,
    maxBlockCpuUsage, targetBlockCpuUsagePct, maxTransactionCpuUsage, minTransactionCpuUsage,
    maxTransactionLifetime, deferredTrxExpirationWindow, maxTransactionDelay, maxInlineActionSize,
    maxInlineActionDepth, maxAuthorityDepth, maxTotalRamUsage, gasPerCpuMs, gasPerNetKb,
    gasPerRamKb]

def v1 : List Parameter := v0 ++ [maxActionReturnValueSize]

def id (p : Parameter) : ℕ := v1.idxOf p

def width : Parameter → ℕ
  | maxBlockNetUsage | maxTotalRamUsage => 8
  | maxInlineActionDepth | maxAuthorityDepth => 2
  | _ => 4

/-- The fields that `operator==` of `chain_config_v0` compares, where the maximal CPU usage of a
transaction stands twice. -/
def tiedV0 : List Parameter :=
  [maxBlockNetUsage, targetBlockNetUsagePct, maxTransactionNetUsage, basePerTransactionNetUsage,
    netUsageLeeway, contextFreeDiscountNetUsageNum, contextFreeDiscountNetUsageDen,
    maxBlockCpuUsage, targetBlockCpuUsagePct, maxTransactionCpuUsage, maxTransactionCpuUsage,
    maxTransactionLifetime, deferredTrxExpirationWindow, maxTransactionDelay, maxInlineActionSize,
    maxInlineActionDepth, maxAuthorityDepth, maxTotalRamUsage, gasPerCpuMs, gasPerNetKb,
    gasPerRamKb]

end Parameter

open Parameter hiding id

namespace ChainConfigV1

variable (cfg : ChainConfigV1)

def read : Parameter → ℕ
  | .maxBlockNetUsage => cfg.maxBlockNetUsage.toNat
  | .targetBlockNetUsagePct => cfg.targetBlockNetUsagePct.toNat
  | .maxTransactionNetUsage => cfg.maxTransactionNetUsage.toNat
  | .basePerTransactionNetUsage => cfg.basePerTransactionNetUsage.toNat
  | .netUsageLeeway => cfg.netUsageLeeway.toNat
  | .contextFreeDiscountNetUsageNum => cfg.contextFreeDiscountNetUsageNum.toNat
  | .contextFreeDiscountNetUsageDen => cfg.contextFreeDiscountNetUsageDen.toNat
  | .maxBlockCpuUsage => cfg.maxBlockCpuUsage.toNat
  | .targetBlockCpuUsagePct => cfg.targetBlockCpuUsagePct.toNat
  | .maxTransactionCpuUsage => cfg.maxTransactionCpuUsage.toNat
  | .minTransactionCpuUsage => cfg.minTransactionCpuUsage.toNat
  | .maxTransactionLifetime => cfg.maxTransactionLifetime.toNat
  | .deferredTrxExpirationWindow => cfg.deferredTrxExpirationWindow.toNat
  | .maxTransactionDelay => cfg.maxTransactionDelay.toNat
  | .maxInlineActionSize => cfg.maxInlineActionSize.toNat
  | .maxInlineActionDepth => cfg.maxInlineActionDepth.toNat
  | .maxAuthorityDepth => cfg.maxAuthorityDepth.toNat
  | .maxTotalRamUsage => cfg.maxTotalRamUsage.toNat
  | .gasPerCpuMs => cfg.gasPerCpuMs.toNat
  | .gasPerNetKb => cfg.gasPerNetKb.toNat
  | .gasPerRamKb => cfg.gasPerRamKb.toNat
  | .maxActionReturnValueSize => cfg.maxActionReturnValueSize.toNat

def write (v : ℕ) : Parameter → ChainConfigV1
  | .maxBlockNetUsage => { cfg with maxBlockNetUsage := .ofNat v }
  | .targetBlockNetUsagePct => { cfg with targetBlockNetUsagePct := .ofNat v }
  | .maxTransactionNetUsage => { cfg with maxTransactionNetUsage := .ofNat v }
  | .basePerTransactionNetUsage => { cfg with basePerTransactionNetUsage := .ofNat v }
  | .netUsageLeeway => { cfg with netUsageLeeway := .ofNat v }
  | .contextFreeDiscountNetUsageNum => { cfg with contextFreeDiscountNetUsageNum := .ofNat v }
  | .contextFreeDiscountNetUsageDen => { cfg with contextFreeDiscountNetUsageDen := .ofNat v }
  | .maxBlockCpuUsage => { cfg with maxBlockCpuUsage := .ofNat v }
  | .targetBlockCpuUsagePct => { cfg with targetBlockCpuUsagePct := .ofNat v }
  | .maxTransactionCpuUsage => { cfg with maxTransactionCpuUsage := .ofNat v }
  | .minTransactionCpuUsage => { cfg with minTransactionCpuUsage := .ofNat v }
  | .maxTransactionLifetime => { cfg with maxTransactionLifetime := .ofNat v }
  | .deferredTrxExpirationWindow => { cfg with deferredTrxExpirationWindow := .ofNat v }
  | .maxTransactionDelay => { cfg with maxTransactionDelay := .ofNat v }
  | .maxInlineActionSize => { cfg with maxInlineActionSize := .ofNat v }
  | .maxInlineActionDepth => { cfg with maxInlineActionDepth := .ofNat v }
  | .maxAuthorityDepth => { cfg with maxAuthorityDepth := .ofNat v }
  | .maxTotalRamUsage => { cfg with maxTotalRamUsage := .ofNat v }
  | .gasPerCpuMs => { cfg with gasPerCpuMs := .ofNat v }
  | .gasPerNetKb => { cfg with gasPerNetKb := .ofNat v }
  | .gasPerRamKb => { cfg with gasPerRamKb := .ofNat v }
  | .maxActionReturnValueSize => { cfg with maxActionReturnValueSize := .ofNat v }

/-- `operator==` of `chain_config_v1`. -/
def operatorEq (lhs rhs : ChainConfigV1) : Bool :=
  lhs.read .maxActionReturnValueSize == rhs.read .maxActionReturnValueSize &&
    tiedV0.map lhs.read == tiedV0.map rhs.read

def pack : List UInt8 :=
  v1.flatMap fun p => packLE p.width (cfg.read p)

end ChainConfigV1

/-- `config_entry_validator`: the id of the size of return values needs its feature. -/
def configEntryValidator (actionReturnValue : Bool) (id : ℕ) : Bool :=
  if id = maxActionReturnValueSize.id then actionReturnValue else true

section Stream

/-- A read beyond the end of a stream throws. -/
def orRangeError {α : Type} (r : Option α) : Except Failure α :=
  match r with
  | some a => .ok a
  | none => .error ⟨.outOfRangeException, "${method} datastream of length ${len} over by ${over}"⟩

variable (allowed : ℕ → Bool)

/-- The switch over the ids of a version, on a parameter that the version has. -/
def entryOf (parameters : List Parameter) (id : ℕ) : Except Failure Parameter := do
  eosAssert (allowed id) .unsupportedFeature "config id ${id} is no allowed"
  match parameters[id]? with
  | some p => .ok p
  | none => .error ⟨.configParseError, "DataStream& operator<<: no such id: ${id}"⟩

/-- The entry of `chain_config_v1`: its own parameter, and otherwise one of `chain_config_v0`. -/
def entry (id : ℕ) : Except Failure Parameter := do
  eosAssert (allowed id) .unsupportedFeature "config id ${id} is no allowed"
  if id = maxActionReturnValueSize.id then .ok .maxActionReturnValueSize
  else entryOf allowed v0 id

def checkId (visited : List ℕ) (id : ℕ) : Except Failure Unit := do
  eosAssert (id < v1.length) .configParseError "provided id ${id} should be less than ${size}"
  eosAssert (id ∉ visited) .configParseError "duplicate id provided: ${id}"

def packEntries (cfg : ChainConfigV1) (visited : List ℕ) :
    List ℕ → Except Failure (List UInt8)
  | [] => .ok []
  | id :: ids => do
    checkId visited id
    let p ← entry allowed id
    let rest ← packEntries cfg (id :: visited) ids
    return packUnsigned id ++ packLE p.width (cfg.read p) ++ rest

def packRange (cfg : ChainConfigV1) (ids : List ℕ) : Except Failure (List UInt8) := do
  let entries ← packEntries allowed cfg [] ids
  return packUnsigned (u32 ids.length) ++ entries

def unpackEntries (visited : List ℕ) :
    ℕ → ChainConfigV1 → List UInt8 → Except Failure ChainConfigV1
  | 0, cfg, _ => .ok cfg
  | length + 1, cfg, s => do
    let (id, s) ← orRangeError (readUnsigned s)
    checkId visited id
    let p ← entry allowed id
    let (v, s) ← orRangeError (readLE p.width s)
    unpackEntries (id :: visited) length (cfg.write v p) s

def unpackRange (cfg : ChainConfigV1) (s : List UInt8) : Except Failure ChainConfigV1 := do
  let (length, s) ← orRangeError (readUnsigned s)
  unpackEntries allowed [] length cfg s

def unpackIds : ℕ → List UInt8 → Except Failure (List ℕ)
  | 0, _ => .ok []
  | size + 1, s => do
    let (id, s) ← orRangeError (readUnsigned s)
    let ids ← unpackIds size s
    return id :: ids

def unpackIdVector (s : List UInt8) : Except Failure (List ℕ) := do
  let (size, s) ← orRangeError (readUnsigned s)
  eosAssert (size ≤ 1024 * 1024) .assertException "size.value <= MAX_NUM_ARRAY_ELEMENTS: "
  unpackIds size s

/-- `get_parameters_packed`: the size of the packed parameters and, for a buffer that is not
empty, what is written to it. -/
def getParametersPacked (configuration : ChainConfigV1) (packedIds : List UInt8)
    (bufferSize : ℕ) : Except Failure (ℕ × List UInt8) := do
  let ids ← unpackIdVector packedIds
  let packed ← packRange allowed configuration ids
  if bufferSize = 0 then return (packed.length, [])
  eosAssert (packed.length ≤ bufferSize) .configParseError
    "get_parameters_packed: buffer size is smaller than ${size}"
  return (packed.length, packed)

/-- The copy of the configuration that `set_parameters_packed` stores. -/
def decodeParameters (readOnly : Bool) (configuration : ChainConfigV1)
    (packedParameters : List UInt8) : Except Failure ChainConfigV1 := do
  eosAssert (!readOnly) .wasmExecutionError
    "set_parameters_packed not allowed in a readonly transaction"
  let cfg ← unpackRange allowed configuration packedParameters
  cfg.validate
  return cfg

/-- `set_parameters_packed`, with the stored configuration after the call. -/
def setParametersPacked (readOnly : Bool) (configuration : ChainConfigV1)
    (packedParameters : List UInt8) : Except Failure Unit × ChainConfigV1 :=
  match decodeParameters allowed readOnly configuration packedParameters with
  | .ok cfg => (.ok (), cfg)
  | .error e => (.error e, configuration)

end Stream

namespace Parameter

theorem mem_v1 (p : Parameter) : p ∈ v1 := by cases p <;> decide

theorem getElem?_v1 {n : ℕ} {p : Parameter} : v1[n]? = some p ↔ p.id = n := by
  rw [List.getElem?_eq_some_iff]
  constructor
  · rintro ⟨hn, rfl⟩
    exact List.Nodup.idxOf_getElem (by decide) n hn
  · rintro rfl
    exact ⟨List.idxOf_lt_length_of_mem (mem_v1 p), List.getElem_idxOf _⟩

theorem id_lt (p : Parameter) : p.id < v1.length := List.idxOf_lt_length_of_mem (mem_v1 p)

theorem id_injective : Function.Injective id := by
  intro p q h
  have hp := getElem?_v1.mpr (rfl : p.id = p.id)
  rw [h, getElem?_v1.mpr rfl, Option.some.injEq] at hp
  exact hp.symm

end Parameter

namespace ChainConfigV1
variable (cfg : ChainConfigV1)

theorem read_write_self {p : Parameter} {v : ℕ} (h : v < 256 ^ p.width) :
    (cfg.write v p).read p = v := by
  cases p <;> simp only [width] at h <;>
    first
    | exact UInt32.toNat_ofNat_of_lt' h
    | exact UInt64.toNat_ofNat_of_lt' h
    | exact UInt16.toNat_ofNat_of_lt' h

theorem read_write_ne {p q : Parameter} (v : ℕ) (h : q ≠ p) :
    (cfg.write v p).read q = cfg.read q := by
  cases p <;> cases q <;> first | rfl | exact absurd rfl h

theorem read_lt (p : Parameter) : cfg.read p < 256 ^ p.width := by
  cases p <;> first | exact UInt32.toNat_lt _ | exact UInt64.toNat_lt _ | exact UInt16.toNat_lt _

end ChainConfigV1

end FlonCore
