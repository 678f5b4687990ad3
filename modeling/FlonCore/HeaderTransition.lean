import FlonCore.BlockHeaderState
import Mathlib.Data.Finset.Card

/-!
# From the state of a block to the state of the next

A producer computes the next state from the input of the block it assembles, a
validator from the header it receives. Both end in `finishNext`, which applies
the extensions of the header to the state of the parent. The first state comes
from the last legacy block.
-/

namespace FlonCore
open Library
open Outcome
variable {β : Type} (env : HeaderEnv β)

namespace BlockHeaderState
variable (s : BlockHeaderState β)

def activateProtocolFeatures (newFeatures : List Digest) : Except Failure (Finset Digest) :=
  if newFeatures.isEmpty then .ok s.activatedProtocolFeatures
  else do
    let features := s.activatedProtocolFeatures ∪ newFeatures.toFinset
    eosAssert (features.card = s.activatedProtocolFeatures.card + newFeatures.length)
      .invalidBlockHeaderExtension "duplication of protocol feature digests"
    return features

def finishNext (header : BlockHeader β) (headerExts : HeaderExtensionMultimap)
    (newFeatures : List Digest) (fExt : FinalityExtension) :
    Outcome Failure (BlockHeaderState β) := do
  let features ← .ofExcept (s.activateProtocolFeatures newFeatures)
  let proposers ← .ofOption (s.evaluateProposerPoliciesForPromotion header.timestamp)
  let proposedProposers ← .ofExcept (s.proposeProposerPolicy proposers fExt.newProposerPolicyDiff)
  let parentBlock ← .ofOption (s.makeBlockRef env)
  let core ← .ofOption (s.core.next parentBlock fExt.qcClaim)
  let finalizers := s.evaluateFinalizerPoliciesForPromotion core.lastFinalBlockNum header
  let lastPending := (finalizers.pending.map Prod.snd).getD finalizers.active
  let (generation, proposed) ← .ofExcept
    (s.proposeFinalizerPolicy finalizers header.blockNum fExt.newFinalizerPolicyDiff)
  let claimed ← s.keepClaimedPolicy core finalizers.active.generation
  return {
      blockId := header.calculateId env
      header := header
      activatedProtocolFeatures := features
      core := core
      activeFinalizerPolicy := finalizers.active
      activeProposerPolicy := proposers.active
      latestProposedProposerPolicy := proposedProposers
      latestPendingProposerPolicy := proposers.latestPending
      proposedFinalizerPolicies := proposed
      pendingFinalizerPolicy := finalizers.pending
      latestQcClaimBlockActiveFinalizerPolicy := claimed
      finalizerPolicyGeneration := generation
      lastPendingFinalizerPolicyDigest := env.hash.finalizerPolicy lastPending
      lastPendingFinalizerPolicyStartTimestamp := finalizers.lastPendingStartTimestamp
      headerExts := headerExts }

end BlockHeaderState

structure BlockHeaderStateInput where
  parentId : BlockId
  timestamp : BlockTimestamp
  producer : AccountName
  newProtocolFeatureActivations : List Digest
  transactionMroot : Digest
  newProposerPolicy : Option ProposerPolicy
  newFinalizerPolicy : Option FinalizerPolicy
  mostRecentAncestorWithQc : QcClaim
  finalityMrootClaim : Digest
  claim_lt : mostRecentAncestorWithQc.blockNum < 2 ^ 32

abbrev Validator := BlockTimestamp → Finset Digest → List Digest → Except Failure Unit

namespace BlockHeaderState
variable (s : BlockHeaderState β)

def createFinalizerDiff (policy : Option FinalizerPolicy) :
    Except Failure (Option FinalizerPolicyDiff) :=
  match policy with
  | none => .ok none
  | some p => (s.getLastProposedFinalizerPolicy.createDiff p).map some

def createProposerDiff (policy : Option ProposerPolicy) :
    Except Failure (Option ProposerPolicyDiff) :=
  match policy with
  | none => .ok none
  | some p => (s.getLastProposedProposerPolicy.createDiff p).map some

def inputExtensions (features : List Digest) (fExt : FinalityExtension) :
    List (ℕ × β) × HeaderExtensionMultimap :=
  let exts := emplaceExtension [] finalityExtensionId (env.codec.packFinality fExt)
  let headerExts := emplaceExtension [] finalityExtensionId (.finality fExt)
  if features.isEmpty then (exts, headerExts)
  else
    (emplaceExtension exts protocolFeatureActivationId (env.codec.packProtocolFeatures features),
      emplaceExtension headerExts protocolFeatureActivationId (.protocolFeatureActivation features))

def inputHeader (input : BlockHeaderStateInput) (exts : List (ℕ × β)) : BlockHeader β where
  timestamp := input.timestamp
  producer := input.producer
  confirmed := 0
  previous := input.parentId
  transactionMroot := input.transactionMroot
  actionMroot := input.finalityMrootClaim
  scheduleVersion := properSvnnScheduleVersion
  newProducers := none
  headerExtensions := exts

def next (input : BlockHeaderStateInput) : Outcome Failure (BlockHeaderState β) := do
  let finalizerDiff ← .ofExcept (s.createFinalizerDiff input.newFinalizerPolicy)
  let proposerDiff ← .ofExcept (s.createProposerDiff input.newProposerPolicy)
  let fExt : FinalityExtension :=
    ⟨input.mostRecentAncestorWithQc, finalizerDiff, proposerDiff, input.claim_lt⟩
  let (exts, headerExts) := inputExtensions env input.newProtocolFeatureActivations fExt
  s.finishNext env (inputHeader input exts) headerExts input.newProtocolFeatureActivations fExt

def validateActivations (validator : Validator) (features : Option (List Digest)) :
    Except Failure (List Digest) :=
  match features with
  | none => .ok []
  | some newFeatures => do
    validator s.timestamp s.activatedProtocolFeatures newFeatures
    return newFeatures

def requireFinality (exts : HeaderExtensionMultimap) : Except Failure FinalityExtension :=
  match exts.finality with
  | some fExt => .ok fExt
  | none => .error ⟨.invalidBlockHeaderExtension,
      ("Instant Finality Extension is expected to be present in all block headers after switch " ++
        "to IF")⟩

def checkFinalityMroot (h : BlockHeader β) (claim : QcClaim) : Outcome Failure Unit :=
  if h.isProperSvnnBlock then do
    let metadata ← .ofOption (s.core.nextMetadata claim)
    .ofExcept (eosAssert
      (s.core.isGenesisBlockNum metadata.latestQcClaimBlockNum == (h.actionMroot == 0))
      .blockValidateException
      ("No Finality Tree Root associated with the block, does not match with " ++
        "empty action_mroot: " ++
        "(${n}), action_mroot empty (${e}), latest_qc_claim_block_num (${f})"))
  else .returns ()

def nextOfHeader (h : SignedBlockHeader β) (validator : Validator) :
    Outcome Failure (BlockHeaderState β) := do
  let producer ← .ofOption (s.getProducerForBlockAt h.timestamp)
  .ofExcept (eosAssert (h.previous == s.blockId) .unlinkableBlockException
    "previous mismatch ${p} != ${id}")
  .ofExcept (eosAssert (h.producer == producer.producerName) .wrongProducer
    "wrong producer specified")
  .ofExcept (eosAssert h.newProducers.isNone .producerScheduleException
    ("Block header contains legacy producer schedule outdated by activation of WTMsig Block " ++
      "Signatures"))
  let exts ← .ofExcept (validateAndExtractHeaderExtensions env.codec h.toBlockHeader)
  let newFeatures ← .ofExcept (s.validateActivations validator exts.protocolFeatures)
  let fExt ← .ofExcept (requireFinality exts)
  s.checkFinalityMroot h.toBlockHeader fExt.qcClaim
  s.finishNext env h.toBlockHeader exts newFeatures fExt

end BlockHeaderState

structure BlockStateLegacy (β : Type) where
  blockId : BlockId
  header : BlockHeader β
  activatedProtocolFeatures : Finset Digest
  activeSchedule : ProducerAuthoritySchedule
  headerExts : HeaderExtensionMultimap

namespace BlockStateLegacy
variable (bsp : BlockStateLegacy β)

def genesisPolicy : Outcome Failure FinalizerPolicy := do
  let extension ← .ofExcept (extractHeaderExtension env.codec bsp.header finalityExtensionId)
  let fExt ← .ofOption (extension.bind BlockHeaderExtension.finality?)
  let diff ← .ofOption fExt.newFinalizerPolicyDiff
  .ofExcept (FinalizerPolicy.applyDiff ⟨0, 0, []⟩ diff)

def createIfGenesisBlock : Outcome Failure (BlockHeaderState β) := do
  let policy ← bsp.genesisPolicy env
  return {
      blockId := bsp.blockId
      header := bsp.header
      activatedProtocolFeatures := bsp.activatedProtocolFeatures
      core := .createCoreForGenesisBlock bsp.blockId bsp.header.timestamp
      activeFinalizerPolicy := policy
      activeProposerPolicy := ⟨0, ⟨.zero, bsp.activeSchedule⟩⟩
      latestProposedProposerPolicy := none
      latestPendingProposerPolicy := none
      proposedFinalizerPolicies := []
      pendingFinalizerPolicy := none
      latestQcClaimBlockActiveFinalizerPolicy := none
      finalizerPolicyGeneration := 1
      lastPendingFinalizerPolicyDigest := env.hash.finalizerPolicy policy
      lastPendingFinalizerPolicyStartTimestamp := bsp.header.timestamp
      headerExts := bsp.headerExts }

end BlockStateLegacy

namespace BlockHeaderState
variable {env} {s s' : BlockHeaderState β}

structure Finished (env : HeaderEnv β) (s : BlockHeaderState β) (header : BlockHeader β)
    (headerExts : HeaderExtensionMultimap) (fExt : FinalityExtension) (s' : BlockHeaderState β) :
    Prop where
  header_eq : s'.header = header
  exts_eq : s'.headerExts = headerExts
  id_eq : s'.blockId = header.calculateId env
  core_next : ∃ ref, s.makeBlockRef env = some ref ∧ s.core.next ref fExt.qcClaim = some s'.core
  active_eq : s'.activeFinalizerPolicy =
    (s.evaluateFinalizerPoliciesForPromotion s'.core.lastFinalBlockNum header).active
  pending_eq : s'.pendingFinalizerPolicy =
    (s.evaluateFinalizerPoliciesForPromotion s'.core.lastFinalBlockNum header).pending
  proposed : s.proposeFinalizerPolicy
      (s.evaluateFinalizerPoliciesForPromotion s'.core.lastFinalBlockNum header) header.blockNum
      fExt.newFinalizerPolicyDiff = .ok (s'.finalizerPolicyGeneration, s'.proposedFinalizerPolicies)
  claimed : s.keepClaimedPolicy s'.core s'.activeFinalizerPolicy.generation =
    .returns s'.latestQcClaimBlockActiveFinalizerPolicy
  proposers : ∃ slots, s.evaluateProposerPoliciesForPromotion header.timestamp = some slots ∧
    s.proposeProposerPolicy slots fExt.newProposerPolicyDiff =
      .ok s'.latestProposedProposerPolicy ∧
    s'.activeProposerPolicy = slots.active ∧ s'.latestPendingProposerPolicy = slots.latestPending

variable {newFeatures : List Digest} {fExt : FinalityExtension}

theorem finishNext_finished {header : BlockHeader β} {headerExts : HeaderExtensionMultimap}
    (h : s.finishNext env header headerExts newFeatures fExt = .returns s') :
    Finished env s header headerExts fExt s' := by
  simp only [finishNext, bind_eq_returns, ofOption_eq_returns, ofExcept_eq_returns] at h
  obtain ⟨features, -, proposers, hproposers, proposedProposers, hpropose, ref, href, core, hcore,
    ⟨generation, proposed⟩, hproposed, claimed, hclaimed, h⟩ := h
  cases h
  exact ⟨rfl, rfl, rfl, ⟨ref, href, hcore⟩, rfl, rfl, hproposed, hclaimed,
    ⟨proposers, hproposers, hpropose, rfl, rfl⟩⟩

theorem activateProtocolFeatures_nodup {features : Finset Digest}
    (h : s.activateProtocolFeatures newFeatures = .ok features) : newFeatures.Nodup := by
  unfold activateProtocolFeatures at h
  split_ifs at h with hempty
  · rw [List.isEmpty_iff.mp hempty]
    exact List.nodup_nil
  · rw [seq_eq_ok, eosAssert_eq_ok, decide_eq_true_eq] at h
    have hcard := Finset.card_union_le s.activatedProtocolFeatures newFeatures.toFinset
    have hlen := List.toFinset_card_le newFeatures
    rw [← Multiset.coe_nodup, ← Multiset.toFinset_card_eq_card_iff_nodup, Multiset.coe_card]
    have hge : newFeatures.length ≤ newFeatures.toFinset.card := by omega
    exact le_antisymm hlen hge

theorem inputExtensions_finality (features : List Digest) (fExt : FinalityExtension) :
    (inputExtensions env features fExt).2.finality = some fExt := by
  unfold inputExtensions
  split_ifs <;> rfl

theorem createFinalizerDiff_generation {policy : Option FinalizerPolicy}
    {diff : Option FinalizerPolicyDiff} (h : s.createFinalizerDiff policy = .ok diff) :
    ∀ d, diff = some d → ∃ p, policy = some p ∧ d.generation = p.generation := by
  intro d hd
  subst hd
  cases policy with
  | none => cases h
  | some p =>
    obtain ⟨d', hd', he⟩ := map_eq_ok.mp h
    cases he
    exact ⟨p, rfl, FinalizerPolicy.createDiff_generation hd'⟩

theorem createProposerDiff_fields {policy : Option ProposerPolicy}
    {diff : Option ProposerPolicyDiff} (h : s.createProposerDiff policy = .ok diff) :
    ∀ d, diff = some d → ∃ p, policy = some p ∧ d.proposalTime = p.proposalTime ∧
      d.version = p.proposerSchedule.version := by
  intro d hd
  subst hd
  cases policy with
  | none => cases h
  | some p =>
    obtain ⟨d', hd', he⟩ := map_eq_ok.mp h
    cases he
    rw [ProposerPolicy.createDiff, bind_eq_ok] at hd'
    obtain ⟨_, -, hd'⟩ := hd'
    cases hd'
    exact ⟨p, rfl, rfl, rfl⟩

structure Assembled (s : BlockHeaderState β) (input : BlockHeaderStateInput)
    (fExt : FinalityExtension) : Prop where
  claim_eq : fExt.qcClaim = input.mostRecentAncestorWithQc
  finalizer_diff : s.createFinalizerDiff input.newFinalizerPolicy = .ok fExt.newFinalizerPolicyDiff
  proposer_diff : s.createProposerDiff input.newProposerPolicy = .ok fExt.newProposerPolicyDiff

theorem next_eq_returns {input : BlockHeaderStateInput} (h : s.next env input = .returns s') :
    ∃ fExt, Assembled s input fExt ∧
      s.finishNext env
        (inputHeader input (inputExtensions env input.newProtocolFeatureActivations fExt).1)
        (inputExtensions env input.newProtocolFeatureActivations fExt).2
        input.newProtocolFeatureActivations fExt = .returns s' := by
  simp only [next, bind_eq_returns, ofExcept_eq_returns] at h
  obtain ⟨finalizerDiff, hf, proposerDiff, hp, h⟩ := h
  exact ⟨⟨input.mostRecentAncestorWithQc, finalizerDiff, proposerDiff, input.claim_lt⟩,
    ⟨rfl, hf, hp⟩, h⟩

theorem requireFinality_eq_ok {exts : HeaderExtensionMultimap} :
    requireFinality exts = .ok fExt ↔ exts.finality = some fExt := by
  unfold requireFinality
  cases exts.finality <;> simp

structure Received (env : HeaderEnv β) (s : BlockHeaderState β) (h : BlockHeader β)
    (exts : HeaderExtensionMultimap) (fExt : FinalityExtension) : Prop where
  previous_eq : h.previous = s.blockId
  producer_eq : ∃ producer, s.getProducerForBlockAt h.timestamp = some producer ∧
    h.producer = producer.producerName
  extracted : validateAndExtractHeaderExtensions env.codec h = .ok exts
  finality_eq : exts.finality = some fExt
  mroot : s.checkFinalityMroot h fExt.qcClaim = .returns ()

theorem nextOfHeader_eq_returns {h : SignedBlockHeader β} {validator : Validator}
    (hnext : s.nextOfHeader env h validator = .returns s') :
    ∃ exts newFeatures fExt, Received env s h.toBlockHeader exts fExt ∧
      s.finishNext env h.toBlockHeader exts newFeatures fExt = .returns s' := by
  simp only [nextOfHeader, bind_eq_returns, ofExcept_eq_returns,
    ofOption_eq_returns, eosAssert_eq_ok, beq_iff_eq, requireFinality_eq_ok] at hnext
  obtain ⟨producer, hproducer, -, hprevious, -, hname, -, -, exts, hexts, newFeatures, -, fExt,
    hfinality, ⟨⟩, hmroot, hfinish⟩ := hnext
  exact ⟨exts, newFeatures, fExt, ⟨hprevious, ⟨producer, hproducer, hname⟩, hexts, hfinality,
    hmroot⟩, hfinish⟩

end BlockHeaderState
end FlonCore
