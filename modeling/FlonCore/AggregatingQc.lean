import FlonCore.AggregatingQcSig

/-!
# Building and verifying a QC over two policies

While a finalizer policy is pending, a QC needs a part for the active policy
and a part for the pending one. A node aggregates votes and keeps the best QC it
received for each part separately, and picks the better one per part when it
builds a QC. The verifier checks each part against its policy and that a
finalizer who is in both policies voted the same way in both parts.
-/

namespace FlonCore
open Library

structure Qc (bls : BlsScheme) where
  blockNum : ℕ
  activePolicySig : QcSig bls
  pendingPolicySig : Option (QcSig bls)

structure VoteMessage (bls : BlsScheme) where
  blockId : BlockId
  strong : Bool
  finalizerKey : PublicKey
  sig : bls.Sig

structure AggregatingQc (bls : BlsScheme) where
  activeFinalizerPolicy : FinalizerPolicy
  pendingFinalizerPolicy : Option FinalizerPolicy
  activePolicySig : AggregatingQcSig bls
  pendingPolicySig : Option (AggregatingQcSig bls)

structure AggregateVoteResult where
  result : VoteStatus
  (activeAuthority pendingAuthority : Option FinalizerAuthority)

variable {bls : BlsScheme}

namespace AggregatingQcSig

variable (a : AggregatingQcSig bls)

def extractQcSigFromAggregating : Except Failure (QcSig bls) :=
  if a.aggregatingState = .strong then
    .ok ⟨⟨some a.strongVotes.bitset, none⟩, a.strongVotes.sig⟩
  else if a.isQuorumMet then
    .ok ⟨⟨some a.strongVotes.bitset, some a.weakVotes.bitset⟩,
      bls.aggregate a.strongVotes.sig a.weakVotes.sig⟩
  else .error ⟨.finalizerException,
    "cannot extract an aggregated QC signature before quorum is reached"⟩

def getBestQc : Except Failure (Option (QcSig bls)) :=
  if a.isQuorumMet then do
    let fromAgg ← a.extractQcSigFromAggregating
    match a.receivedQcSig with
    | none => return some fromAgg
    | some received =>
      if received.isStrong || fromAgg.isWeak then return some received else return some fromAgg
  else .ok a.receivedQcSig

def setReceivedQcSig (qc : QcSig bls) : Bool × AggregatingQcSig bls :=
  match a.receivedQcSig with
  | none => (true, { a with receivedQcSig := some qc })
  | some received =>
    if received.isWeak && qc.isStrong then (true, { a with receivedQcSig := some qc })
    else (false, a)

/-- The lambda `add_vote` inside `aggregate_vote`, for one policy. -/
def addVoteFor (p : FinalizerPolicy) (vote : VoteMessage bls)
    (digest : List UInt8) : VoteStatus × Option FinalizerAuthority × AggregatingQcSig bls :=
  match p.finalizers.findIdx? fun f => f.publicKey == vote.finalizerKey with
  | none => (.unknownPublicKey, none, a)
  | some index =>
    match p.finalizers[index]? with
    | none => (.unknownPublicKey, none, a)
    | some f =>
      if a.hasVoted index then (.duplicate, some f, a)
      else if bls.verify vote.finalizerKey digest vote.sig then
        let added := a.addVote vote.strong index vote.sig f.weight
        (added.1, some f, added.2)
      else (.invalidSignature, some f, a)

end AggregatingQcSig

namespace AggregatingQc

def construct (bls : BlsScheme) (active : FinalizerPolicy) (pending : Option FinalizerPolicy) :
    AggregatingQc bls :=
  ⟨active, pending, .ofPolicy bls active, pending.map (.ofPolicy bls)⟩

variable (a : AggregatingQc bls)

def getBestQc (blockNum : ℕ) : Except Failure (Option (Qc bls)) := do
  match ← a.activePolicySig.getBestQc with
  | none => return none
  | some active =>
    match a.pendingPolicySig with
    | none => return some ⟨blockNum, active, none⟩
    | some pendingSig =>
      match ← pendingSig.getBestQc with
      | none => return none
      | some pending => return some ⟨blockNum, active, some pending⟩

def verifyDualFinalizersVotes (active pending : FinalizerPolicy)
    (activeSig pendingSig : QcSig bls) : Except Failure Unit :=
  active.finalizers.zipIdx.forM fun f =>
    match pending.finalizers.findIdx? fun g => f.1.publicKey == g.publicKey with
    | none => .ok ()
    | some pendingVoteIndex =>
      eosAssert (activeSig.voteSameAt pendingSig f.2 pendingVoteIndex) .invalidQcClaim
        ("qc ${bn} contains a dual finalizer ${k} which does not vote the same on active and " ++
          "pending policies")

def verifyQc (qc : Qc bls) (strongDigest weakDigest : List UInt8) : Except Failure Unit := do
  qc.activePolicySig.verifyVoteFormat a.activeFinalizerPolicy
  match qc.pendingPolicySig, a.pendingFinalizerPolicy with
  | some _, none => .error ⟨.invalidQcClaim,
      "qc ${bn} contains pending policy signature for nonexistent pending finalizer policy"⟩
  | none, some _ => .error ⟨.invalidQcClaim,
      "qc ${bn} does not contain pending policy signature for pending finalizer policy"⟩
  | none, none => qc.activePolicySig.verify a.activeFinalizerPolicy strongDigest weakDigest
  | some pendingSig, some pending =>
    pendingSig.verifyVoteFormat pending
    verifyDualFinalizersVotes a.activeFinalizerPolicy pending qc.activePolicySig pendingSig
    qc.activePolicySig.verify a.activeFinalizerPolicy strongDigest weakDigest
    pendingSig.verify pending strongDigest weakDigest

def setReceivedQc (qc : Qc bls) : Except Failure (Bool × AggregatingQc bls) :=
  let active := a.activePolicySig.setReceivedQcSig qc.activePolicySig
  match a.pendingPolicySig, qc.pendingPolicySig with
  | none, _ => .ok (active.1, { a with activePolicySig := active.2 })
  | some _, none => .error ⟨.invalidQcClaim, "qc ${bn} expected to have a pending policy signature"⟩
  | some pendingSig, some received =>
    let pending := pendingSig.setReceivedQcSig received
    .ok (active.1 || pending.1,
      { a with activePolicySig := active.2, pendingPolicySig := some pending.2 })

def aggregateVote (vote : VoteMessage bls) (digest : List UInt8) :
    AggregateVoteResult × AggregatingQc bls :=
  let (status, authority, activeSig) :=
    a.activePolicySig.addVoteFor a.activeFinalizerPolicy vote digest
  if status ≠ .success ∧ status ≠ .unknownPublicKey then
    (⟨status, authority, none⟩, { a with activePolicySig := activeSig })
  else
    match a.pendingFinalizerPolicy, a.pendingPolicySig with
    | some pending, some pendingSig =>
      let (status', authority', pendingSig') := pendingSig.addVoteFor pending vote digest
      (⟨if status' = .unknownPublicKey then status else status', authority, authority'⟩,
        { a with activePolicySig := activeSig, pendingPolicySig := some pendingSig' })
    | _, _ => (⟨status, authority, none⟩, { a with activePolicySig := activeSig })

end AggregatingQc
end FlonCore
