import FlonCore.AggregatingQc
import FlonCore.HeaderChain

/-!
# The admission of received blocks

A received proper block passes three calls: the invariants on its claim against
the claim of its parent, the verification of the QC it carries, and the
computation of its header state. Together they establish what the finality core
requires of the claim. They do not compare the timestamps of the block and its
parent, and for a claim above the parent the QC is verified against policies
read outside the references of the core.
-/

namespace FlonCore
open Library FinalityCore BlockHeaderState
variable {β : Type} {bls : BlsScheme}

section Extensions

inductive BlockExtension (bls : BlsScheme)
  | additionalBlockSignatures (signatures : List String)
  | quorumCertificate (qc : Qc bls)

def additionalBlockSignaturesId : ℕ := 2
def quorumCertificateId : ℕ := 3

/-- The unpacking of block extensions from data of type `β`. -/
structure BlockExtensionCodec (bls : BlsScheme) (β : Type) where
  unpackSignatures : β → Except Failure (List String)
  unpackQc : β → Except Failure (Qc bls)

structure SignedBlock (β : Type) extends SignedBlockHeader β where
  blockExtensions : List (ℕ × β)

variable (codec : BlockExtensionCodec bls β)

def unpackAdditionalSignatures (data : β) : Except Failure (List String) := do
  let signatures ← codec.unpackSignatures data
  eosAssert (!signatures.isEmpty) .illFormedAdditionalBlockSignaturesExtension
    "Additional block signatures extension must contain at least one signature"
  eosAssert signatures.Nodup .illFormedAdditionalBlockSignaturesExtension
    "Signature ${s} was repeated in the additional block signatures extension"
  return signatures

def extractBlockExtension (id : ℕ) (data : β) : Except Failure (BlockExtension bls) :=
  if id = additionalBlockSignaturesId then
    (unpackAdditionalSignatures codec data).map .additionalBlockSignatures
  else if id = quorumCertificateId then (codec.unpackQc data).map .quorumCertificate
  else .error ⟨.invalidBlockExtension, "Block extension with id type ${id} is not supported"⟩

def validateAndExtractExtensions (b : SignedBlock β) :
    Except Failure (List (ℕ × BlockExtension bls)) :=
  extractFrom (extractBlockExtension codec)
    ⟨.invalidBlockExtension,
      "Block extensions are not in the correct order (ascending id types required)"⟩
    ⟨.invalidBlockHeaderExtension,
      "Block extension with id type ${id} is not allowed to repeat"⟩ none [] b.blockExtensions

def findQc (exts : List (ℕ × BlockExtension bls)) : Option (Qc bls) :=
  exts.findSome? fun e => match e.2 with
    | .quorumCertificate qc => some qc
    | _ => none

end Extensions

section Admission

def Qc.isStrong (qc : Qc bls) : Bool :=
  qc.activePolicySig.isStrong && qc.pendingPolicySig.all fun sig => sig.isStrong

def requireQc (newClaim : QcClaim) (qc : Option (Qc bls)) : Except Failure (Option (Qc bls)) :=
  match qc with
  | none => .error ⟨.blockValidateException,
      "Block #${b} is making a new finality claim, but doesn't include a qc to justify this claim"⟩
  | some proof => do
    eosAssert (proof.blockNum == newClaim.blockNum) .blockValidateException
      ("Block #${b}: Mismatch between qc.block_num (${n1}) in block extension and block_num " ++
        "(${n2}) in header extension")
    eosAssert (proof.isStrong == newClaim.isStrongQc) .blockValidateException
      ("QC is_strong (${s1}) in block extension does not match is_strong_qc (${s2}) in header " ++
        "extension. Block number: ${b}")
    return some proof

def verifyClaim (newClaim prevClaim : QcClaim) (qc : Option (Qc bls)) :
    Except Failure (Option (Qc bls)) := do
  eosAssert (prevClaim.blockNum ≤ newClaim.blockNum) .invalidQcClaim
    "Block #${b} claims a block_num (${n1}) less than the previous block's (${n2})"
  if newClaim.blockNum = prevClaim.blockNum ∧ newClaim.isStrongQc = prevClaim.isStrongQc then do
    eosAssert qc.isNone .invalidQcClaim
      ("Block #${b} should not provide a QC block extension since its QC claim is the same as " ++
        "the previous block's")
    return none
  else do
    eosAssert (newClaim.blockNum != prevClaim.blockNum || newClaim.isStrongQc) .invalidQcClaim
      ("claimed QC (${s1}) must be stricter than previous block's (${s2}) if block number is " ++
        "the same. Block number: ${b}")
    requireQc newClaim qc

variable (env : HeaderEnv β) (codec : BlockExtensionCodec bls β)

def verifyBasicProperBlockInvariants (b : SignedBlock β) (prev : BlockHeaderState β) :
    Outcome Failure (Option (Qc bls)) := do
  let blockExts ← .ofExcept (validateAndExtractExtensions codec b)
  let finalityExt ← .ofExcept (extractHeaderExtension env.codec b.toBlockHeader finalityExtensionId)
  .ofExcept (eosAssert finalityExt.isSome .blockValidateException
    "Proper Savanna block #${b} does not have a finality header extension")
  let fExt ← .ofOption (finalityExt.bind BlockHeaderExtension.finality?)
  .ofExcept (eosAssert (!prev.header.isLegacyBlock) .blockValidateException
    "Proper Savanna block #${b} may not have previous block that is a Legacy block")
  let prevFinalityExt ← .ofOption prev.headerExts.finality
  .ofExcept (verifyClaim fExt.qcClaim prevFinalityExt.qcClaim (findQc blockExts))

def BlockHeaderState.referenceAt (s : BlockHeaderState β) (num : ℕ) : Option BlockRef :=
  if num = s.blockNum then s.makeBlockRef env else s.core.getBlockReference num

def digestBytes (digest : Digest) : List UInt8 :=
  (List.range 32).map fun i => .ofNat (digest.toNat / 2 ^ (8 * (31 - i)))

def createWeakDigest (digest : Digest) : List UInt8 := digestBytes digest ++ [87, 69, 65, 75]

def BlockHeaderState.verifyQc (s : BlockHeaderState β) (qc : Qc bls) : Outcome Failure Unit := do
  let ref ← .ofOption (s.referenceAt env qc.blockNum)
  let policies ← .ofExcept (s.getFinalizerPolicies ref)
  .ofExcept ((AggregatingQc.construct bls policies.activeFinalizerPolicy
    policies.pendingFinalizerPolicy).verifyQc qc (digestBytes policies.finalityDigest)
      (createWeakDigest policies.finalityDigest))

structure Admitted (S : BlockHeaderState β) (b : SignedBlock β) (validator : Validator)
    (S' : BlockHeaderState β) : Prop where
  proper : b.isProperSvnnBlock = true
  invariants : ∃ qc, verifyBasicProperBlockInvariants env codec b S = .returns qc ∧
    ∀ proof, qc = some proof → S.verifyQc env proof = .returns ()
  next : S.nextOfHeader env b.toSignedBlockHeader validator = .returns S'

/-- The states a node can hold, on branches whose block numbers have not wrapped: the genesis
state, transition blocks that repeat the claim of their parent, blocks it admitted and blocks
it produced. -/
inductive ReachableState : BlockHeaderState β → Prop
  | genesis {G : BlockHeaderState β} : IsSavannaGenesis env G → ReachableState G
  | transition {S S' : BlockHeaderState β} {h : SignedBlockHeader β} {validator : Validator} :
      ReachableState S → h.isProperSvnnBlock = false →
      S.nextOfHeader env h validator = .returns S' →
      S'.headerExts.finality.map FinalityExtension.qcClaim =
        S.headerExts.finality.map FinalityExtension.qcClaim →
      S'.blockNum ≠ 0 → ReachableState S'
  | admitted {S S' : BlockHeaderState β} {b : SignedBlock β} {validator : Validator} :
      ReachableState S → Admitted env codec S b validator S' → S'.blockNum ≠ 0 →
      ReachableState S'
  | produced {S S' : BlockHeaderState β} {input : BlockHeaderStateInput} :
      ReachableState S → input.parentId = S.blockId → S.next env input = .returns S' →
      S.core.latestQcClaim.le input.mostRecentAncestorWithQc →
      input.mostRecentAncestorWithQc.blockNum ≤ S.core.currentBlockNum →
      S'.blockNum ≠ 0 → ReachableState S'

end Admission

def RecordsClaim (S : BlockHeaderState β) : Prop :=
  ∃ fExt, S.headerExts.finality = some fExt ∧ fExt.qcClaim = S.core.latestQcClaim

variable {newClaim prevClaim : QcClaim} {qc result : Option (Qc bls)}

theorem verifyClaim_eq_ok (h : verifyClaim newClaim prevClaim qc = .ok result) :
    prevClaim.le newClaim ∧
      (newClaim = prevClaim ∨
        ∃ proof, result = some proof ∧ proof.blockNum = newClaim.blockNum) := by
  rw [verifyClaim, seq_eq_ok, eosAssert_eq_ok, decide_eq_true_eq] at h
  obtain ⟨hle, h⟩ := h
  split_ifs at h with hsame
  · have he : newClaim = prevClaim := by
      cases newClaim
      cases prevClaim
      simpa using hsame
    rw [he]
    exact ⟨QcClaim.le_refl _, .inl rfl⟩
  · rw [seq_eq_ok, eosAssert_eq_ok] at h
    obtain ⟨hstricter, h⟩ := h
    refine ⟨?_, .inr ?_⟩
    · simp only [Bool.or_eq_true, bne_iff_ne] at hstricter
      simp only [QcClaim.le, Bool.or_eq_true, Bool.and_eq_true, decide_eq_true_eq]
      rcases hstricter with hne | hstrong
      · exact .inl (by omega)
      · rcases Nat.lt_or_ge prevClaim.blockNum newClaim.blockNum with hlt | hge
        · exact .inl hlt
        · exact .inr ⟨by omega, .inr hstrong⟩
    · cases qc with
      | none => cases h
      | some proof =>
        simp only [requireQc, seq_eq_ok, eosAssert_eq_ok, beq_iff_eq] at h
        obtain ⟨hnum, -, he⟩ := h
        exact ⟨proof, (Except.ok.inj he).symm, hnum⟩

variable {env : HeaderEnv β} {codec : BlockExtensionCodec bls β} {S S' : BlockHeaderState β}
  {chain : List (BlockHeaderState β)}

/-- A QC for a block above the state is verified against a reference that does not exist. -/
theorem Linked.verifyQc_undefined (h : Linked env chain S) {qc : Qc bls}
    (hlt : S.blockNum < qc.blockNum) (hbound : qc.blockNum < 2 ^ 32) :
    S.verifyQc env qc = .undefined := by
  have hnone : S.referenceAt env qc.blockNum = none := by
    rw [referenceAt, if_neg (by omega)]
    exact h.shape.getBlockReference_none hlt.le hbound
  rw [verifyQc, hnone]
  rfl

theorem Admitted.claim (h : Linked env chain S) (hrec : RecordsClaim S) {b : SignedBlock β}
    {validator : Validator} (hadm : Admitted env codec S b validator S') :
    ∃ fExt, S'.headerExts.finality = some fExt ∧ S.core.latestQcClaim.le fExt.qcClaim ∧
      fExt.qcClaim.blockNum ≤ S.blockNum := by
  obtain ⟨exts, newFeatures, fExt, hreceived, hfinish⟩ := nextOfHeader_eq_returns hadm.next
  have hexts : S'.headerExts.finality = some fExt := by
    rw [(finishNext_finished hfinish).exts_eq]
    exact hreceived.finality_eq
  obtain ⟨prevExt, hprevExt, hprev⟩ := hrec
  obtain ⟨qc, hbasic, hverified⟩ := hadm.invariants
  simp only [verifyBasicProperBlockInvariants, Outcome.bind_eq_returns,
    Outcome.ofExcept_eq_returns, Outcome.ofOption_eq_returns, hprevExt,
    extractHeaderExtension_finality hreceived.extracted, hreceived.finality_eq] at hbasic
  obtain ⟨blockExts, -, finalityExt, hext, -, -, fExt', hfExt', -, -, prevExt', hprevExt',
    hclaim⟩ := hbasic
  cases hext
  cases hfExt'
  cases hprevExt'
  obtain ⟨hle, hcase⟩ := verifyClaim_eq_ok hclaim
  rw [hprev] at hle hcase
  refine ⟨fExt, hexts, hle, ?_⟩
  rcases hcase with hsame | ⟨proof, hproof, hnum⟩
  · rw [hsame]
    exact h.shape.claim_le_height
  · by_contra hlt
    have hundef : S.verifyQc env proof = .undefined :=
      h.verifyQc_undefined (by omega) (hnum ▸ fExt.claim_lt)
    rw [hverified proof hproof] at hundef
    cases hundef

theorem Linked.extend (h : Linked env chain S) (hext : Extends env S S') (hnum : S'.blockNum ≠ 0) :
    (∃ chain', Linked env chain' S') ∧ RecordsClaim S' := by
  obtain ⟨fExt, _, _, hstep⟩ := h.core_next hext
  refine ⟨?_, fExt, hstep.finality, hstep.claim_eq.symm⟩
  rcases h.next hext with hlinked | hwrapped
  · exact ⟨_, hlinked⟩
  · exact absurd hwrapped.num_eq hnum

theorem ReachableState.invariant (h : ReachableState env codec S) :
    (∃ chain, Linked env chain S) ∧ RecordsClaim S := by
  induction h with
  | genesis hG =>
    refine ⟨⟨_, hG.linked⟩, ?_⟩
    obtain ⟨bsp, fExt, policy, hbsp, -, -, -, hexts, hcore, -⟩ := hG.created
    have hread := extractHeaderExtension_finality hbsp.exts_eq
    rw [hbsp.extension, Except.ok.injEq] at hread
    obtain ⟨fExt', hfExt', he⟩ := Option.map_eq_some_iff.mp hread.symm
    cases he
    refine ⟨fExt, by rw [hexts, hfExt'], ?_⟩
    rw [hbsp.claim_eq, hcore, ← calculateId_num env, ← hbsp.id_eq]
    rfl
  | @transition S S' header validator _ _ hnext hsame hnum ih =>
    obtain ⟨⟨chain, hlinked⟩, prevExt, hprevExt, hprev⟩ := ih
    have hclaim : ∀ fExt, S'.headerExts.finality = some fExt →
        fExt.qcClaim = S.core.latestQcClaim := by
      intro fExt hf
      rw [hf, hprevExt] at hsame
      exact (Option.some.inj hsame).trans hprev
    refine hlinked.extend ⟨.inr ⟨header, validator, hnext⟩, ?_, ?_⟩ hnum
    · intro fExt hf
      rw [hclaim fExt hf]
      exact QcClaim.le_refl _
    · intro fExt hf
      rw [hclaim fExt hf, hlinked.current_eq]
      exact hlinked.shape.claim_le_height
  | @admitted S S' b validator _ hadm hnum ih =>
    obtain ⟨⟨chain, hlinked⟩, hrec⟩ := ih
    obtain ⟨fExt, hf, hge, hle⟩ := hadm.claim hlinked hrec
    refine hlinked.extend ⟨.inr ⟨_, validator, hadm.next⟩, ?_, ?_⟩ hnum
    · intro fExt' hf'
      rw [hf] at hf'
      cases hf'
      exact hge
    · intro fExt' hf'
      rw [hf] at hf'
      cases hf'
      rw [hlinked.current_eq]
      exact hle
  | @produced S S' input _ hparent hnext hge hle hnum ih =>
    obtain ⟨⟨chain, hlinked⟩, -⟩ := ih
    obtain ⟨fExt, hasm, hfinish⟩ := next_eq_returns hnext
    have hclaim : ∀ fExt', S'.headerExts.finality = some fExt' →
        fExt'.qcClaim = input.mostRecentAncestorWithQc := by
      intro fExt' hf
      rw [(finishNext_finished hfinish).exts_eq, inputExtensions_finality] at hf
      cases hf
      exact hasm.claim_eq
    refine hlinked.extend ⟨.inl ⟨input, hparent, hnext⟩, ?_, ?_⟩ hnum
    · intro fExt' hf
      rw [hclaim fExt' hf]
      exact hge
    · intro fExt' hf
      rw [hclaim fExt' hf]
      exact hle

/-- For a block admitted on a reachable state the preconditions of the core hold exactly when
the block is later than its parent, which no call checks. -/
theorem admitted_preconditions_iff (hreach : ReachableState env codec S) {b : SignedBlock β}
    {validator : Validator} (hadm : Admitted env codec S b validator S') :
    (S.timestamp < b.timestamp ∧ ∃ fExt, S'.headerExts.finality = some fExt ∧
      S.core.latestQcClaim.le fExt.qcClaim ∧ fExt.qcClaim.blockNum ≤ S.blockNum) ↔
    S.timestamp < b.timestamp := by
  obtain ⟨⟨chain, hlinked⟩, hrec⟩ := hreach.invariant
  refine ⟨fun h => h.1, fun hlt => ⟨hlt, hadm.claim hlinked hrec⟩⟩

def refusingCodec : BlockExtensionCodec .ideal BlockHeaderExtension where
  unpackSignatures _ := .error ⟨.assertException, ""⟩
  unpackQc _ := .error ⟨.assertException, ""⟩

def receivedBlock (slot : UInt32) : SignedBlock BlockHeaderExtension where
  timestamp := ⟨slot⟩
  producer := 1
  confirmed := 0
  previous := (plainGenesis 1).blockId
  transactionMroot := 0
  actionMroot := 0
  scheduleVersion := properSvnnScheduleVersion
  newProducers := none
  headerExtensions := [(finalityExtensionId, .finality ⟨⟨1, false⟩, none, none, by decide⟩)]
  producerSignature := ""
  blockExtensions := []

def receivedState (slot : UInt32) : BlockHeaderState BlockHeaderExtension :=
  ((plainGenesis 1).nextOfHeader zeroHashEnv (receivedBlock slot).toSignedBlockHeader
    (fun _ _ _ => .ok ())).getD (plainGenesis 1)

theorem receivedBlock_invariants (slot : UInt32) :
    verifyBasicProperBlockInvariants zeroHashEnv refusingCodec (receivedBlock slot)
      (plainGenesis 1) = .returns none := rfl

theorem receivedBlock_admitted {slot : UInt32}
    (hnext : (plainGenesis 1).nextOfHeader zeroHashEnv (receivedBlock slot).toSignedBlockHeader
      (fun _ _ _ => .ok ()) = .returns (receivedState slot)) :
    Admitted zeroHashEnv refusingCodec (plainGenesis 1) (receivedBlock slot)
      (fun _ _ _ => .ok ()) (receivedState slot) :=
  ⟨rfl, ⟨none, receivedBlock_invariants slot, nofun⟩, hnext⟩

theorem plainGenesis_reachable : ReachableState zeroHashEnv refusingCodec (plainGenesis 1) :=
  .genesis (plainGenesis_isSavannaGenesis (by decide) (by decide))

theorem admitted_later_block :
    Admitted zeroHashEnv refusingCodec (plainGenesis 1) (receivedBlock 101)
      (fun _ _ _ => .ok ()) (receivedState 101) ∧
    ∃ fExt, (receivedState 101).headerExts.finality = some fExt ∧
      (plainGenesis 1).core.latestQcClaim.le fExt.qcClaim ∧
      fExt.qcClaim.blockNum ≤ (plainGenesis 1).blockNum := by
  have hadm : Admitted zeroHashEnv refusingCodec (plainGenesis 1) (receivedBlock 101)
      (fun _ _ _ => .ok ()) (receivedState 101) := receivedBlock_admitted (by decide +kernel)
  exact ⟨hadm, ((admitted_preconditions_iff plainGenesis_reachable hadm).mpr (by decide +kernel)).2⟩

/-- A block in the slot of its parent passes all three calls. -/
theorem admitted_repeated_slot :
    ReachableState zeroHashEnv refusingCodec (plainGenesis 1) ∧
    Admitted zeroHashEnv refusingCodec (plainGenesis 1) (receivedBlock 100)
      (fun _ _ _ => .ok ()) (receivedState 100) ∧
    ¬ (plainGenesis 1).timestamp < (receivedBlock 100).timestamp :=
  ⟨plainGenesis_reachable, receivedBlock_admitted (by decide +kernel), by decide +kernel⟩

end FlonCore
