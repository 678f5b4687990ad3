import FlonCore.HeaderChain

/-!
# Producer and validator compute the same state

The producer puts diffs against the last proposed policies into the header and
goes on with the extension it packed; the validator unpacks the extension and
applies the same diffs to its own last proposed policies. What the validator
checks before is met by a header assembled on the state it is checked against.
-/

namespace FlonCore
open Library
open Outcome
variable {β : Type} {env : HeaderEnv β}

namespace BlockHeaderState
variable {s N : BlockHeaderState β} {input : BlockHeaderStateInput} {features : List Digest}
  {fExt : FinalityExtension}

theorem extractExtension_packFinality (fExt : FinalityExtension) :
    extractExtension env.codec finalityExtensionId (env.codec.packFinality fExt) =
      .ok (.finality fExt) := by
  simp [extractExtension, finalityExtensionId, protocolFeatureActivationId,
    producerScheduleChangeId, env.codec.unpack_packFinality, Except.map]

theorem extractExtension_packFeatures (hempty : ¬ features.isEmpty) (hnodup : features.Nodup) :
    extractExtension env.codec protocolFeatureActivationId
      (env.codec.packProtocolFeatures features) = .ok (.protocolFeatureActivation features) := by
  simp only [extractExtension, unpackActivation, env.codec.unpack_packProtocolFeatures]
  simp [hempty, hnodup, eosAssert, Except.map, bind, Except.bind, pure, Except.pure]

theorem inputExtensions_activating (hempty : ¬ features.isEmpty) :
    inputExtensions env features fExt =
      ([(protocolFeatureActivationId, env.codec.packProtocolFeatures features),
          (finalityExtensionId, env.codec.packFinality fExt)],
        [(protocolFeatureActivationId, .protocolFeatureActivation features),
          (finalityExtensionId, .finality fExt)]) := by
  unfold inputExtensions
  rw [if_neg hempty]
  rfl

theorem validateAndExtract_inputExtensions (hnodup : features.Nodup) {h : BlockHeader β}
    (hexts : h.headerExtensions = (inputExtensions env features fExt).1) :
    validateAndExtractHeaderExtensions env.codec h = .ok (inputExtensions env features fExt).2 := by
  have hfinality : extractExtension env.codec finalityExtensionId (env.codec.packFinality fExt) =
      .ok (.finality fExt) := extractExtension_packFinality fExt
  rw [validateAndExtractHeaderExtensions, hexts]
  by_cases hempty : features.isEmpty
  · unfold inputExtensions
    rw [if_pos hempty]
    simp only [emplaceExtension, List.takeWhile_nil, List.dropWhile_nil, List.nil_append,
      extractFrom, hfinality]
    rfl
  · rw [inputExtensions_activating hempty]
    simp only [extractFrom, hfinality, extractExtension_packFeatures hempty hnodup]
    rfl

theorem validateActivations_inputExtensions {validator : Validator}
    (haccept : ∀ t current features, validator t current features = .ok ()) :
    s.validateActivations validator (inputExtensions env features fExt).2.protocolFeatures =
      .ok features := by
  by_cases hempty : features.isEmpty
  · have hnil := List.isEmpty_iff.mp hempty
    subst hnil
    rfl
  · rw [inputExtensions_activating hempty]
    have he : HeaderExtensionMultimap.protocolFeatures
        [(protocolFeatureActivationId, .protocolFeatureActivation features),
          (finalityExtensionId, .finality fExt)] = some features := rfl
    rw [he, validateActivations, haccept]
    rfl

theorem nextMetadata_of_next {c c' : FinalityCore} {ref : BlockRef} {claim : QcClaim}
    (h : c.next ref claim = some c') :
    ∃ metadata, c.nextMetadata claim = some metadata ∧
      metadata.latestQcClaimBlockNum = claim.blockNum := by
  unfold FinalityCore.next at h
  obtain ⟨nums, hnums, -⟩ := Option.bind_eq_some_iff.mp h
  exact ⟨⟨nums.1, claim.blockNum⟩, by rw [FinalityCore.nextMetadata, hnums]; rfl, rfl⟩

theorem checkFinalityMroot_returns {h : BlockHeader β} {claim : QcClaim} {ref : BlockRef}
    {core : FinalityCore} (hnext : s.core.next ref claim = some core)
    (hmroot : s.core.isGenesisBlockNum claim.blockNum = true ↔ h.actionMroot = 0) :
    s.checkFinalityMroot h claim = .returns () := by
  unfold checkFinalityMroot
  split_ifs
  · obtain ⟨metadata, hmetadata, hnum⟩ := nextMetadata_of_next hnext
    rw [hmetadata, bind_eq_returns]
    refine ⟨metadata, rfl, ?_⟩
    rw [ofExcept_eq_returns, eosAssert_eq_ok, hnum, beq_iff_eq, Bool.eq_iff_iff, hmroot, beq_iff_eq]
  · rfl

/-- The state a validator computes from the header of an assembled block is the one the
producer computed. -/
theorem nextOfHeader_of_next (hparent : input.parentId = s.blockId)
    (hmroot : s.core.isGenesisBlockNum input.mostRecentAncestorWithQc.blockNum = true ↔
      input.finalityMrootClaim = 0)
    (hproducer : ∃ producer, s.getProducerForBlockAt input.timestamp = some producer ∧
      input.producer = producer.producerName)
    {validator : Validator} (haccept : ∀ t current features, validator t current features = .ok ())
    (signature : String) (hnext : s.next env input = .returns N) :
    s.nextOfHeader env ⟨N.header, signature⟩ validator = .returns N := by
  obtain ⟨fExt, hasm, hfinish⟩ := next_eq_returns hnext
  have hfin := finishNext_finished hfinish
  obtain ⟨ref, -, hcore⟩ := hfin.core_next
  obtain ⟨producer, hat, hname⟩ := hproducer
  have hnodup : input.newProtocolFeatureActivations.Nodup := by
    simp only [finishNext, bind_eq_returns, ofExcept_eq_returns] at hfinish
    obtain ⟨features, hfeatures, -⟩ := hfinish
    exact activateProtocolFeatures_nodup hfeatures
  rw [hfin.header_eq]
  simp only [nextOfHeader, bind_eq_returns, ofOption_eq_returns,
    ofExcept_eq_returns, eosAssert_eq_ok, beq_iff_eq, requireFinality_eq_ok]
  refine ⟨producer, hat, (), hparent, (), hname, (), rfl, _,
    validateAndExtract_inputExtensions hnodup rfl, _, validateActivations_inputExtensions haccept,
    fExt, inputExtensions_finality _ _, (), ?_, hfinish⟩
  refine checkFinalityMroot_returns hcore ?_
  rw [hasm.claim_eq]
  exact hmroot

theorem nextOfHeader_plain :
    (plainGenesis 1).nextOfHeader zeroHashEnv
      ⟨(plainNext (plainGenesis 1) 1 (some ⟨2, 0, []⟩)).header, ""⟩ (fun _ _ _ => .ok ()) =
      .returns (plainNext (plainGenesis 1) 1 (some ⟨2, 0, []⟩)) ∧
    (plainNext (plainGenesis 1) 1 (some ⟨2, 0, []⟩)).blockNum = 2 := by
  have hnext : (plainGenesis 1).next zeroHashEnv (plainInput (plainGenesis 1) 1 (some ⟨2, 0, []⟩)) =
      .returns (plainNext (plainGenesis 1) 1 (some ⟨2, 0, []⟩)) := by decide +kernel
  exact ⟨nextOfHeader_of_next rfl (by decide +kernel) ⟨⟨1, ⟨1, []⟩⟩, by decide +kernel, rfl⟩
    (fun _ _ _ => rfl) "" hnext, by decide +kernel⟩

/-- The same input with another parent id: the producer's call returns and the validator's
throws. -/
theorem nextOfHeader_unlinkable :
    ∃ (s N : BlockHeaderState BlockHeaderExtension) (input : BlockHeaderStateInput),
      s.timestamp < input.timestamp ∧
      s.core.latestQcClaim.le input.mostRecentAncestorWithQc ∧
      input.mostRecentAncestorWithQc.blockNum ≤ s.core.currentBlockNum ∧
      (s.core.isGenesisBlockNum input.mostRecentAncestorWithQc.blockNum = true ↔
        input.finalityMrootClaim = 0) ∧
      s.getProducerForBlockAt input.timestamp = some ⟨input.producer, ⟨1, []⟩⟩ ∧
      input.newFinalizerPolicy = none ∧ s.next zeroHashEnv input = .returns N ∧
      s.nextOfHeader zeroHashEnv ⟨N.header, ""⟩ (fun _ _ _ => .ok ()) =
        .throws ⟨.unlinkableBlockException, "previous mismatch ${p} != ${id}"⟩ := by
  let input := { plainInput (plainGenesis 1) 1 none with parentId := 0 }
  refine ⟨plainGenesis 1, ((plainGenesis 1).next zeroHashEnv input).getD (plainGenesis 1), input,
    ?_⟩
  decide +kernel

end BlockHeaderState
end FlonCore
