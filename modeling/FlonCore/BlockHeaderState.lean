import FlonCore.BlockHeader
import FlonCore.Library.Outcome
import Mathlib.Data.Finset.Defs

/-!
# The header state of a block

The state of a block is what its header and the state of its parent determine:
the finality core, the finalizer policies in their three stages and the
proposer policies in theirs. This module has the state, the digests over it, the
promotion of policies and the retrieval of the policies that vote on a block.

Proposer policies are compared as pointers, so a pointer keeps its address. A
subscript past the end of a vector is undefined.
-/

namespace FlonCore
open Library
variable {β : Type}

def producerRepetitions : UInt32 := 12

def getCurrentRoundStartSlot (t : BlockTimestamp) : UInt32 :=
  t.slot - t.slot % producerRepetitions

def inSameRound (next curr : BlockTimestamp) : Bool :=
  next.slot < getCurrentRoundStartSlot curr + producerRepetitions

def getPriorRoundStartSlot (t : BlockTimestamp) : Option UInt32 :=
  if t.slot < producerRepetitions then none
  else some (getCurrentRoundStartSlot t - producerRepetitions)

def firstBlockOfRound (currBlockTime parentBlockTime : BlockTimestamp) : Bool :=
  parentBlockTime.slot < getCurrentRoundStartSlot currBlockTime

def getScheduledProducer (producers : List ProducerAuthority) (t : BlockTimestamp) :
    Option ProducerAuthority :=
  if producers = [] then none
  else producers[t.slot.toNat % (producers.length * 12) / 12]?

structure ProposerPolicyPtr where
  address : ℕ
  policy : ProposerPolicy
deriving DecidableEq, Repr

structure BlockHeaderState (β : Type) where
  blockId : BlockId
  header : BlockHeader β
  activatedProtocolFeatures : Finset Digest
  core : FinalityCore
  activeFinalizerPolicy : FinalizerPolicy
  activeProposerPolicy : ProposerPolicyPtr
  (latestProposedProposerPolicy latestPendingProposerPolicy : Option ProposerPolicyPtr)
  proposedFinalizerPolicies : List (ℕ × FinalizerPolicy)
  pendingFinalizerPolicy : Option (ℕ × FinalizerPolicy)
  latestQcClaimBlockActiveFinalizerPolicy : Option FinalizerPolicy
  finalizerPolicyGeneration : ℕ
  lastPendingFinalizerPolicyDigest : Digest
  lastPendingFinalizerPolicyStartTimestamp : BlockTimestamp
  headerExts : HeaderExtensionMultimap
deriving DecidableEq

structure Level3Commitments where
  reversibleBlocksMroot : Digest
  latestQcClaimBlockNum : ℕ
  latestQcClaimFinalityDigest : Digest
  (latestQcClaimTimestamp timestamp : BlockTimestamp)
  baseDigest : Digest
deriving DecidableEq, Repr

structure Level2Commitments where
  lastPendingFinPolDigest : Digest
  lastPendingFinPolStartTimestamp : BlockTimestamp
  l3CommitmentsDigest : Digest
deriving DecidableEq, Repr

structure FinalityDigestData where
  (activeFinalizerPolicyGeneration lastPendingFinalizerPolicyGeneration : ℕ)
  (finalityTreeDigest l2CommitmentsDigest : Digest)
deriving DecidableEq, Repr

structure BaseDigestData (β : Type) where
  header : BlockHeader β
  links : List QcLink
  refs : List (BlockId × BlockTimestamp × Digest)
  genesisTimestamp : BlockTimestamp
  proposedFinalizerPolicies : List (ℕ × FinalizerPolicy)
  pendingFinalizerPolicy : Option (ℕ × FinalizerPolicy)
  activeProposerPolicy : ProposerPolicy
  (latestProposedProposerPolicy latestPendingProposerPolicy : Option ProposerPolicy)
  activatedProtocolFeatures : Finset Digest

structure Hashing (β : Type) where
  header : BlockHeader β → Digest
  finalizerPolicy : FinalizerPolicy → Digest
  base : BaseDigestData β → Digest
  blockRef : BlockRefDigestData → Digest
  calculateMerkle : List Digest → Digest
  level3 : Level3Commitments → Digest
  level2 : Level2Commitments → Digest
  finality : FinalityDigestData → Digest

structure HeaderEnv (β : Type) where
  codec : ExtensionCodec β
  hash : Hashing β

variable (env : HeaderEnv β)

def BlockHeader.calculateId (h : BlockHeader β) : BlockId := stampId (env.hash.header h) h.blockNum

def FinalityCore.getReversibleBlocksMroot (c : FinalityCore) : Digest :=
  if c.refs.length ≤ 1 then 0
  else env.hash.calculateMerkle (c.reversibleBlocks.map env.hash.blockRef)

structure FinalizerPolicies where
  finalityDigest : Digest
  activeFinalizerPolicy : FinalizerPolicy
  pendingFinalizerPolicy : Option FinalizerPolicy
deriving DecidableEq, Repr

open ProposerPolicyPtr

namespace BlockHeaderState
variable (s : BlockHeaderState β)

def timestamp : BlockTimestamp := s.header.timestamp
def blockNum : ℕ := s.header.blockNum

def finalityMroot : Digest := if s.header.isProperSvnnBlock then s.header.actionMroot else 0

def getLastProposedFinalizerPolicy : FinalizerPolicy :=
  match s.proposedFinalizerPolicies.getLast? with
  | some proposed => proposed.2
  | none => (s.pendingFinalizerPolicy.map Prod.snd).getD s.activeFinalizerPolicy

def getLastPendingFinalizerPolicy : FinalizerPolicy :=
  (s.pendingFinalizerPolicy.map Prod.snd).getD s.activeFinalizerPolicy

def computeBaseDigest : Digest :=
  env.hash.base
    { header := s.header
      links := s.core.links
      refs := s.core.refs.map fun ref => (ref.blockId, ref.timestamp, ref.finalityDigest)
      genesisTimestamp := s.core.genesisTimestamp
      proposedFinalizerPolicies := s.proposedFinalizerPolicies
      pendingFinalizerPolicy := s.pendingFinalizerPolicy
      activeProposerPolicy := s.activeProposerPolicy.policy
      latestProposedProposerPolicy := s.latestProposedProposerPolicy.map policy
      latestPendingProposerPolicy := s.latestPendingProposerPolicy.map policy
      activatedProtocolFeatures := s.activatedProtocolFeatures }

def latestQcClaimRef : Option BlockRef :=
  if s.core.isGenesisCore then some .unset
  else s.core.getBlockReference s.core.latestQcClaim.blockNum

def computeFinalityDigest : Option Digest :=
  s.latestQcClaimRef.map fun ref =>
    env.hash.finality
      { activeFinalizerPolicyGeneration := s.activeFinalizerPolicy.generation
        lastPendingFinalizerPolicyGeneration := s.getLastPendingFinalizerPolicy.generation
        finalityTreeDigest := s.finalityMroot
        l2CommitmentsDigest := env.hash.level2
          { lastPendingFinPolDigest := s.lastPendingFinalizerPolicyDigest
            lastPendingFinPolStartTimestamp := s.lastPendingFinalizerPolicyStartTimestamp
            l3CommitmentsDigest := env.hash.level3
              { reversibleBlocksMroot := s.core.getReversibleBlocksMroot env
                latestQcClaimBlockNum := s.core.latestQcClaim.blockNum
                latestQcClaimFinalityDigest := ref.finalityDigest
                latestQcClaimTimestamp := ref.timestamp
                timestamp := s.timestamp
                baseDigest := s.computeBaseDigest env } } }

def makeBlockRef : Option BlockRef :=
  (s.computeFinalityDigest env).map fun digest =>
    ⟨s.blockId, s.timestamp, digest, s.activeFinalizerPolicy.generation,
      (s.pendingFinalizerPolicy.map fun p => p.2.generation).getD 0⟩

def proposalIsFinal (p : ProposerPolicyPtr) : Option Bool :=
  s.core.lastFinalBlockTimestamp.map fun final => decide (p.policy.proposalTime ≤ final)

def proposedTakesEffect : Option Bool :=
  match s.latestProposedProposerPolicy, getPriorRoundStartSlot s.timestamp with
  | some p, some start =>
    if p.policy.proposalTime.slot < start then s.proposalIsFinal p else some false
  | _, _ => some false

def pendingTakesEffect : Option Bool :=
  match s.latestPendingProposerPolicy with
  | some p => s.proposalIsFinal p
  | none => some false

def getActiveProposerPolicyForBlockAt (nextBlockTimestamp : BlockTimestamp) :
    Option ProposerPolicyPtr :=
  if inSameRound nextBlockTimestamp s.timestamp then some s.activeProposerPolicy
  else if s.latestProposedProposerPolicy = none ∧ s.latestPendingProposerPolicy = none then
    some s.activeProposerPolicy
  else do
    if ← s.proposedTakesEffect then s.latestProposedProposerPolicy
    else if ← s.pendingTakesEffect then s.latestPendingProposerPolicy
    else some s.activeProposerPolicy

def getProducerForBlockAt (nextBlockTimestamp : BlockTimestamp) : Option ProducerAuthority := do
  let p ← s.getActiveProposerPolicyForBlockAt nextBlockTimestamp
  getScheduledProducer p.policy.proposerSchedule.producers nextBlockTimestamp

def getLastProposedProposerPolicy : ProposerPolicy :=
  match s.latestProposedProposerPolicy, s.latestPendingProposerPolicy with
  | some p, _ => p.policy
  | none, some p => p.policy
  | none, none => s.activeProposerPolicy.policy

structure ProposerSlots where
  active : ProposerPolicyPtr
  (latestProposed latestPending : Option ProposerPolicyPtr)

def pointsTo (slot : Option ProposerPolicyPtr) (p : ProposerPolicyPtr) : Bool :=
  slot.any fun q => q.address == p.address

def ProposerSlots.activate (slots : ProposerSlots) (newPolicy : ProposerPolicyPtr) :
    ProposerSlots :=
  if newPolicy.address = slots.active.address then slots
  else if pointsTo slots.latestProposed newPolicy then ⟨newPolicy, none, none⟩
  else if pointsTo slots.latestPending newPolicy then ⟨newPolicy, slots.latestProposed, none⟩
  else { slots with active := newPolicy }

def evaluateProposerPoliciesForPromotion (nextTimestamp : BlockTimestamp) : Option ProposerSlots :=
  (s.getActiveProposerPolicyForBlockAt nextTimestamp).map fun newPolicy =>
    let slots := ProposerSlots.activate ⟨s.activeProposerPolicy, s.latestProposedProposerPolicy,
      s.latestPendingProposerPolicy⟩ newPolicy
    if firstBlockOfRound nextTimestamp s.timestamp && slots.latestProposed.isSome &&
        slots.latestPending.isNone then
      ⟨slots.active, none, slots.latestProposed⟩
    else slots

def freshAddress : ℕ :=
  max s.activeProposerPolicy.address
    (max ((s.latestProposedProposerPolicy.map address).getD 0)
      ((s.latestPendingProposerPolicy.map address).getD 0)) + 1

def proposeProposerPolicy (slots : ProposerSlots) (diff : Option ProposerPolicyDiff) :
    Except Failure (Option ProposerPolicyPtr) :=
  match diff with
  | none => .ok slots.latestProposed
  | some diff =>
    (s.getLastProposedProposerPolicy.applyDiff diff).map fun p => some ⟨s.freshAddress, p⟩

structure FinalizerSlots where
  active : FinalizerPolicy
  pending : Option (ℕ × FinalizerPolicy)
  proposed : List (ℕ × FinalizerPolicy)
  lastPendingStartTimestamp : BlockTimestamp

/-- The pending policy becomes active when its block is final, and stays pending otherwise. -/
def promotePending (lib : ℕ) : FinalizerPolicy × Option (ℕ × FinalizerPolicy) :=
  match s.pendingFinalizerPolicy with
  | none => (s.activeFinalizerPolicy, none)
  | some pending =>
    if pending.1 ≤ lib then (pending.2, none) else (s.activeFinalizerPolicy, some pending)

/-- The last policy proposed in a final block becomes pending when no policy is, and those
proposed before it are dropped. -/
def evaluateFinalizerPoliciesForPromotion (lib : ℕ) (header : BlockHeader β) : FinalizerSlots :=
  let (active, pending) := s.promotePending lib
  let start := s.lastPendingFinalizerPolicyStartTimestamp
  let reversible := s.proposedFinalizerPolicies.dropWhile fun p => !decide (lib < p.1)
  let target := (s.proposedFinalizerPolicies.takeWhile fun p => !decide (lib < p.1)).getLast?
  match target, pending with
  | none, _ => ⟨active, pending, s.proposedFinalizerPolicies, start⟩
  | some p, none => ⟨active, some (header.blockNum, p.2), reversible, header.timestamp⟩
  | some p, some _ => ⟨active, pending, p :: reversible, start⟩

def proposeFinalizerPolicy (slots : FinalizerSlots) (blockNum : ℕ)
    (diff : Option FinalizerPolicyDiff) : Except Failure (ℕ × List (ℕ × FinalizerPolicy)) :=
  match diff with
  | none => .ok (s.finalizerPolicyGeneration, slots.proposed)
  | some diff =>
    (s.getLastProposedFinalizerPolicy.applyDiff diff).map fun p =>
      (p.generation, slots.proposed ++ [(blockNum, p)])

def retrieve (kept : Option FinalizerPolicy) (generation : ℕ) : Except Failure FinalizerPolicy :=
  match kept with
  | none => .error ⟨.chainException, "Logic error in finalizer policy retrieval"⟩
  | some p =>
    if p.generation = generation then .ok p
    else .error ⟨.chainException, "Logic error in finalizer policy retrieval"⟩

def retrieveActive (activeGen : ℕ) : Except Failure FinalizerPolicy :=
  if s.activeFinalizerPolicy.generation = activeGen then .ok s.activeFinalizerPolicy
  else retrieve s.latestQcClaimBlockActiveFinalizerPolicy activeGen

def retrievePending (pendingGen : ℕ) : Except Failure (Option FinalizerPolicy) :=
  if pendingGen = 0 then .ok none
  else if pendingGen = s.activeFinalizerPolicy.generation then .ok (some s.activeFinalizerPolicy)
  else (retrieve (s.pendingFinalizerPolicy.map Prod.snd) pendingGen).map some

def getFinalizerPolicies (ref : BlockRef) : Except Failure FinalizerPolicies := do
  let active ← s.retrieveActive ref.activePolicyGeneration
  let pending ← s.retrievePending ref.pendingPolicyGeneration
  return ⟨ref.finalityDigest, active, pending⟩

def getActiveFinalizerPolicyGeneration (num : ℕ) : Option ℕ :=
  if num = s.blockNum then some s.activeFinalizerPolicy.generation
  else (s.core.getBlockReference num).map BlockRef.activePolicyGeneration

/-- The policy that was active at the block claimed last, kept when it is not active any more. -/
def keepClaimedPolicy (nextCore : FinalityCore) (activeGeneration : ℕ) :
    Outcome Failure (Option FinalizerPolicy) := do
  let claimed ← .ofOption (s.getActiveFinalizerPolicyGeneration nextCore.latestQcClaim.blockNum)
  if claimed = activeGeneration then return none
  else
    let ref ← .ofOption (nextCore.getBlockReference nextCore.latestQcClaim.blockNum)
    let policies ← .ofExcept (s.getFinalizerPolicies ref)
    return some policies.activeFinalizerPolicy

end BlockHeaderState
end FlonCore
