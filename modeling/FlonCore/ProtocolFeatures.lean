import FlonCore.Types
import FlonCore.Library.Outcome
import Mathlib.Data.Finset.Card
import Mathlib.Data.List.DropRight

/-!
# Protocol features

The feature set holds the protocol features a node knows. The feature manager
records which of them are active, twice: in a list ordered by activation, and in
a table indexed by the builtin feature whose active entries form a linked list
that starts at the last activation. Blocks that are popped unwind both.
-/

namespace FlonCore
open Library

/-- `builtin_protocol_feature_t` -/
inductive BuiltinProtocolFeatureT
  | preactivateFeature
  | onlyLinkToExistingPermission
  | replaceDeferred
  | noDuplicateDeferredId
  | fixLinkauthRestriction
  | disallowEmptyProducerSchedule
  | restrictActionToSelf
  | onlyBillFirstAuthorizer
  | forwardSetcode
  | getSender
  | ramRestrictions
  | webauthnKey
  | wtmsigBlockSignatures
  | actionReturnValue
  | blockchainParameters
  | getCodeHash
  | configurableWasmLimits
  | cryptoPrimitives
  | getBlockNum
  | blsPrimitives
  | disableDeferredTrxsStage1
  | disableDeferredTrxsStage2
  | savanna
  | actionDataToJson
  | blockReferenceData
  | producerSlotStats
  | gasFeeTotals
  | producerSlotStatsV2
  | reservedPrivateForkProtocolFeatures
deriving DecidableEq, Repr

namespace BuiltinProtocolFeatureT

def index : BuiltinProtocolFeatureT → ℕ
  | preactivateFeature => 0
  | onlyLinkToExistingPermission => 1
  | replaceDeferred => 2
  | noDuplicateDeferredId => 3
  | fixLinkauthRestriction => 4
  | disallowEmptyProducerSchedule => 5
  | restrictActionToSelf => 6
  | onlyBillFirstAuthorizer => 7
  | forwardSetcode => 8
  | getSender => 9
  | ramRestrictions => 10
  | webauthnKey => 11
  | wtmsigBlockSignatures => 12
  | actionReturnValue => 13
  | blockchainParameters => 16
  | getCodeHash => 17
  | configurableWasmLimits => 18
  | cryptoPrimitives => 19
  | getBlockNum => 20
  | blsPrimitives => 21
  | disableDeferredTrxsStage1 => 22
  | disableDeferredTrxsStage2 => 23
  | savanna => 24
  | actionDataToJson => 100
  | blockReferenceData => 101
  | producerSlotStats => 102
  | gasFeeTotals => 103
  | producerSlotStatsV2 => 104
  | reservedPrivateForkProtocolFeatures => 500000

theorem index_injective : Function.Injective index := by
  intro f g h
  cases f <;> cases g <;> first | rfl | cases h

end BuiltinProtocolFeatureT

structure BuiltinProtocolFeatureSpec where
  codename : String
  builtinDependencies : List BuiltinProtocolFeatureT

open BuiltinProtocolFeatureT in
/-- The table of supported features. The four features of deferred transactions are
compiled only with `ENABLE_DEFERRED_TRANSACTION`, which no build defines. -/
def builtinProtocolFeatureCodenames :
    BuiltinProtocolFeatureT → Option BuiltinProtocolFeatureSpec
  | preactivateFeature => some ⟨"PREACTIVATE_FEATURE", []⟩
  | onlyLinkToExistingPermission => some ⟨"ONLY_LINK_TO_EXISTING_PERMISSION", []⟩
  | fixLinkauthRestriction => some ⟨"FIX_LINKAUTH_RESTRICTION", []⟩
  | disallowEmptyProducerSchedule => some ⟨"DISALLOW_EMPTY_PRODUCER_SCHEDULE", []⟩
  | restrictActionToSelf => some ⟨"RESTRICT_ACTION_TO_SELF", []⟩
  | onlyBillFirstAuthorizer => some ⟨"ONLY_BILL_FIRST_AUTHORIZER", []⟩
  | forwardSetcode => some ⟨"FORWARD_SETCODE", []⟩
  | getSender => some ⟨"GET_SENDER", []⟩
  | ramRestrictions => some ⟨"RAM_RESTRICTIONS", []⟩
  | webauthnKey => some ⟨"WEBAUTHN_KEY", []⟩
  | wtmsigBlockSignatures => some ⟨"WTMSIG_BLOCK_SIGNATURES", []⟩
  | actionReturnValue => some ⟨"ACTION_RETURN_VALUE", []⟩
  | configurableWasmLimits => some ⟨"CONFIGURABLE_WASM_LIMITS2", []⟩
  | blockchainParameters => some ⟨"BLOCKCHAIN_PARAMETERS", []⟩
  | getCodeHash => some ⟨"GET_CODE_HASH", []⟩
  | cryptoPrimitives => some ⟨"CRYPTO_PRIMITIVES", []⟩
  | getBlockNum => some ⟨"GET_BLOCK_NUM", []⟩
  | blsPrimitives => some ⟨"BLS_PRIMITIVES2", []⟩
  | savanna => some ⟨"SAVANNA",
      [onlyLinkToExistingPermission, fixLinkauthRestriction, disallowEmptyProducerSchedule,
        restrictActionToSelf, onlyBillFirstAuthorizer, forwardSetcode, getSender,
        ramRestrictions, webauthnKey, wtmsigBlockSignatures, actionReturnValue,
        configurableWasmLimits, blockchainParameters, getCodeHash, cryptoPrimitives,
        getBlockNum, blsPrimitives]⟩
  | actionDataToJson => some ⟨"ACTION_DATA_TO_JSON", []⟩
  | blockReferenceData => some ⟨"BLOCK_REFERENCE_DATA", []⟩
  | producerSlotStats => some ⟨"PRODUCER_SLOT_STATS", []⟩
  | gasFeeTotals => some ⟨"GAS_FEE_TOTALS", []⟩
  | producerSlotStatsV2 => some ⟨"PRODUCER_SLOT_STATS_V2", [producerSlotStats]⟩
  | replaceDeferred | noDuplicateDeferredId | disableDeferredTrxsStage1
  | disableDeferredTrxsStage2 | reservedPrivateForkProtocolFeatures => none

structure SubjectiveRestrictions where
  /-- microseconds since the Unix epoch -/
  earliestAllowedActivationTime : ℤ
  (preactivationRequired enabled : Bool)
deriving DecidableEq, Repr

structure BuiltinProtocolFeature where
  codename : BuiltinProtocolFeatureT
  descriptionDigest : Digest
  dependencies : List Digest
  subjectiveRestrictions : SubjectiveRestrictions
deriving DecidableEq, Repr

structure ProtocolFeature where
  (featureDigest descriptionDigest : Digest)
  dependencies : List Digest
  earliestAllowedActivationTime : ℤ
  (preactivationRequired enabled : Bool)
  builtinFeature : Option BuiltinProtocolFeatureT
deriving DecidableEq, Repr

/-- `protocol_feature_set`: an entry of `recognizedBuiltin` is the digest of the feature the
iterator points to, or none for the end iterator. -/
structure ProtocolFeatureSet where
  recognized : List ProtocolFeature
  recognizedBuiltin : List (Option Digest)
deriving DecidableEq, Repr

inductive Recognized
  | unrecognized
  | disabled
  | tooEarly
  | ready
deriving DecidableEq, Repr

namespace ProtocolFeatureSet
variable (s : ProtocolFeatureSet)

def empty : ProtocolFeatureSet := ⟨[], []⟩

variable (featureDigest : Digest)

def find : Option ProtocolFeature :=
  s.recognized.find? fun f => f.featureDigest = featureDigest

def isRecognized (now : ℤ) : Recognized :=
  match s.find featureDigest with
  | none => .unrecognized
  | some f =>
    if !f.enabled then .disabled
    else if f.earliestAllowedActivationTime > now then .tooEarly
    else .ready

def getProtocolFeature : Except Failure ProtocolFeature :=
  match s.find featureDigest with
  | some f => .ok f
  | none => .error ⟨.protocolFeatureException,
      "unrecognized protocol feature with digest: ${digest}"⟩

def validateDependencies (validator : Digest → Bool) : Bool :=
  match s.find featureDigest with
  | none => false
  | some f => f.dependencies.all validator

/-- One round of the loop over the dependencies of a new feature: the expected builtin
dependencies found so far. -/
def satisfyDependency (expected : List BuiltinProtocolFeatureT)
    (satisfied : Finset BuiltinProtocolFeatureT) (d : Digest) :
    Except Failure (Finset BuiltinProtocolFeatureT) :=
  match s.find d with
  | none => .error ⟨.protocolFeatureException,
      "builtin protocol feature with codename '${codename}' and digest of ${digest} has a " ++
        "dependency on a protocol feature with digest ${dependency_digest} that is not recognized"⟩
  | some f =>
    match f.builtinFeature with
    | some b => .ok (if b ∈ expected then insert b satisfied else satisfied)
    | none => .ok satisfied

def checkSatisfied (expected : List BuiltinProtocolFeatureT)
    (satisfied : Finset BuiltinProtocolFeatureT) : Except Failure Unit :=
  if expected.length > satisfied.card then do
    (expected.filter fun b => b ∉ satisfied).forM fun b =>
      eosAssert (builtinProtocolFeatureCodenames b).isSome .protocolFeatureException
        "Unexpected error"
    .error ⟨.protocolFeatureValidationException,
      "Not all the builtin dependencies of the builtin protocol feature with codename " ++
        "'${codename}' and digest of ${digest} were satisfied. " ++
        "Missing dependencies: ${missing_dependencies}"⟩
  else .ok ()

def setBuiltin (indx : ℕ) (digest : Digest) : List (Option Digest) :=
  (s.recognizedBuiltin ++
    List.replicate (indx + 1 - s.recognizedBuiltin.length) none).set indx (some digest)

def addFeature (digest : BuiltinProtocolFeature → Digest) (f : BuiltinProtocolFeature) :
    Except Failure ProtocolFeatureSet := do
  match builtinProtocolFeatureCodenames f.codename with
  | none => .error ⟨.protocolFeatureValidationException,
      "Builtin protocol feature has unsupported builtin_protocol_feature_t: ${codename}"⟩
  | some spec =>
    let indx := f.codename.index
    eosAssert (indx < s.recognizedBuiltin.length → s.recognizedBuiltin[indx]? = some none)
      .protocolFeatureException "builtin protocol feature with codename '${codename}' already added"
    let featureDigest := digest f
    let expected := spec.builtinDependencies
    let satisfied ← f.dependencies.foldlM (s.satisfyDependency expected) ∅
    checkSatisfied expected satisfied
    eosAssert (s.find featureDigest).isNone .protocolFeatureException
      ("builtin protocol feature with codename '${codename}' has a digest of ${digest} but " ++
        "another protocol feature with the same digest has already been added")
    return {
      recognized := s.recognized ++ [{
        featureDigest := featureDigest
        descriptionDigest := f.descriptionDigest
        dependencies := f.dependencies
        earliestAllowedActivationTime := f.subjectiveRestrictions.earliestAllowedActivationTime
        preactivationRequired := f.subjectiveRestrictions.preactivationRequired
        enabled := f.subjectiveRestrictions.enabled
        builtinFeature := some f.codename }]
      recognizedBuiltin := s.setBuiltin indx featureDigest }

def addFeatures (digest : BuiltinProtocolFeature → Digest)
    (features : List BuiltinProtocolFeature) : Except Failure ProtocolFeatureSet :=
  features.foldlM (fun s f => s.addFeature digest f) empty

end ProtocolFeatureSet

/-- `not_active`, the largest block number -/
def notActive : UInt32 := 4294967295

/-- `protocol_feature_entry`, with the feature its iterator points to -/
structure ProtocolFeatureEntry where
  feature : ProtocolFeature
  activationBlockNum : UInt32
deriving DecidableEq, Repr

/-- `builtin_protocol_feature_entry`; no previous entry is `no_previous`. -/
structure BuiltinProtocolFeatureEntry where
  previous : Option ℕ := none
  activationBlockNum : UInt32 := notActive
deriving DecidableEq, Repr

structure ProtocolFeatureManager where
  protocolFeatureSet : ProtocolFeatureSet
  activatedProtocolFeatures : List ProtocolFeatureEntry
  builtinProtocolFeatures : List BuiltinProtocolFeatureEntry
  headOfBuiltinActivationList : Option ℕ
  initialized : Bool
deriving DecidableEq, Repr

namespace ProtocolFeatureManager
variable (m : ProtocolFeatureManager)

/-- The constructor. -/
def ofSet (pfs : ProtocolFeatureSet) : ProtocolFeatureManager where
  protocolFeatureSet := pfs
  activatedProtocolFeatures := []
  builtinProtocolFeatures := List.replicate pfs.recognizedBuiltin.length {}
  headOfBuiltinActivationList := none
  initialized := false

def isBuiltinActivated (codename : BuiltinProtocolFeatureT) (currentBlockNum : UInt32) : Bool :=
  match m.builtinProtocolFeatures[codename.index]? with
  | none => false
  | some e => e.activationBlockNum ≤ currentBlockNum

def activateFeature (featureDigest : Digest) (currentBlockNum : UInt32) :
    Except Failure ProtocolFeatureManager := do
  eosAssert m.initialized .protocolFeatureException
    "protocol_feature_manager is not yet initialized"
  match m.protocolFeatureSet.find featureDigest with
  | none => .error ⟨.protocolFeatureException, "unrecognized protocol feature digest: ${digest}"⟩
  | some feature =>
    eosAssert (∀ last ∈ m.activatedProtocolFeatures.getLast?,
        last.activationBlockNum ≤ currentBlockNum) .protocolFeatureException
      ("last protocol feature activation block num is ${last_activation_block_num} yet " ++
        "attempting to activate protocol feature with a current block num of " ++
        "${current_block_num}protocol features is ${last_activation_block_num}")
    match feature.builtinFeature with
    | none => .error ⟨.protocolFeatureException,
        "invariant failure: encountered non-builtin protocol feature which is not yet supported"⟩
    | some codename =>
      match m.builtinProtocolFeatures[codename.index]? with
      | none => .error ⟨.protocolFeatureException,
          "invariant failure while trying to activate feature with digest '${digest}': " ++
            "unsupported builtin_protocol_feature_t ${codename}"⟩
      | some entry =>
        eosAssert (entry.activationBlockNum = notActive) .protocolFeatureException
          "cannot activate already activated builtin feature with digest: ${digest}"
        return { m with
          activatedProtocolFeatures :=
            m.activatedProtocolFeatures ++ [⟨feature, currentBlockNum⟩]
          builtinProtocolFeatures := m.builtinProtocolFeatures.set codename.index
            ⟨m.headOfBuiltinActivationList, currentBlockNum⟩
          headOfBuiltinActivationList := some codename.index }

def init (activated : List (Digest × UInt32)) : Except Failure ProtocolFeatureManager := do
  eosAssert (!m.initialized) .protocolFeatureException
    "cannot initialize protocol_feature_manager twice"
  activated.foldlM (fun m f => m.activateFeature f.1 f.2) { m with initialized := true }

/-- The loop that unwinds the linked list. It yields nothing when the fuel runs out or an
index is out of range. -/
def unwind (blockNum : UInt32) :
    ℕ → List BuiltinProtocolFeatureEntry → Option ℕ →
      Option (List BuiltinProtocolFeatureEntry × Option ℕ)
  | _, entries, none => some (entries, none)
  | 0, _, some _ => none
  | fuel + 1, entries, some head => do
    let e ← entries[head]?
    if e.activationBlockNum ≤ blockNum then return (entries, some head)
    unwind blockNum fuel (entries.set head {}) e.previous

def poppedBlocksTo (blockNum : UInt32) : Outcome Failure ProtocolFeatureManager := do
  .ofExcept (eosAssert m.initialized .protocolFeatureException
    "protocol_feature_manager is not yet initialized")
  let (entries, head) ← .ofOption (unwind blockNum (m.builtinProtocolFeatures.length + 1)
    m.builtinProtocolFeatures m.headOfBuiltinActivationList)
  return { m with
    activatedProtocolFeatures := m.activatedProtocolFeatures.rdropWhile fun e =>
      blockNum < e.activationBlockNum
    builtinProtocolFeatures := entries
    headOfBuiltinActivationList := head }

end ProtocolFeatureManager
end FlonCore
