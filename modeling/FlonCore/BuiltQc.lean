import FlonCore.AggregatingQc

/-!
# Each part of a QC that a node builds is sound

Whatever votes and QCs a node has taken in for a block, the part it picks for a
policy, aggregated or received, has a correct format, a quorum and a correct
signature.
-/

namespace FlonCore
open Library List Option UInt64
open AggregatingQc AggregatingQcSig VoteBits
variable {bls : BlsScheme}

theorem votedKeys_cons (f : FinalizerAuthority) (fs : List FinalizerAuthority) (b : Bool)
    (bs : List Bool) : votedKeys (f :: fs) (b :: bs) =
      if b then f.publicKey :: votedKeys fs bs else votedKeys fs bs := by
  cases b <;> simp [votedKeys]

theorem votedKeys_replicate (fs : List FinalizerAuthority) (n : ℕ) :
    votedKeys fs (replicate n false) = [] := by
  induction fs generalizing n with
  | nil => simp [votedKeys]
  | cons f fs ih =>
    cases n with
    | zero => simp [votedKeys]
    | succ n => simp [replicate_succ, votedKeys_cons, ih]

theorem votedKeys_set {finalizers : List FinalizerAuthority} {bits : List Bool} {i : ℕ}
    {f : FinalizerAuthority} (hf : finalizers[i]? = some f) (hb : bits[i]? = some false) :
    (votedKeys finalizers (bits.set i true) : Multiset PublicKey) =
      f.publicKey ::ₘ (votedKeys finalizers bits : Multiset PublicKey) := by
  induction finalizers generalizing bits i with
  | nil => simp at hf
  | cons g gs ih =>
    cases bits with
    | nil => simp at hb
    | cons b bs =>
      cases i with
      | zero =>
        simp only [getElem?_cons_zero, Option.some.injEq] at hf hb
        subst hf hb
        simp [votedKeys_cons]
      | succ i =>
        have hrec := ih hf hb
        rw [set_cons_succ, votedKeys_cons, votedKeys_cons]
        cases b with
        | false => simpa using hrec
        | true =>
          rw [if_pos rfl, if_pos rfl, ← Multiset.cons_coe, ← Multiset.cons_coe, hrec,
            Multiset.cons_swap]

def signedVotes (p : FinalizerPolicy) (bits : Option (List Bool)) (digest : List UInt8) :
    Multiset (PublicKey × List UInt8) :=
  ((bits.map (votedKeys p.finalizers)).getD [] : Multiset PublicKey).map fun key => (key, digest)

theorem QcSig.verify_eq_ok {q : QcSig bls} {p : FinalizerPolicy}
    {strongDigest weakDigest : List UInt8} :
    q.verify p strongDigest weakDigest = .ok () ↔ q.verifyQuorum p = .ok () ∧
      bls.signers q.sig = signedVotes p q.strongVotes strongDigest +
        signedVotes p q.weakVotes weakDigest := by
  have hgroups : ((q.signedGroups p strongDigest weakDigest).map fun g =>
      (g.1.map fun key => (key, g.2) : Multiset (PublicKey × List UInt8))).sum =
      signedVotes p q.strongVotes strongDigest + signedVotes p q.weakVotes weakDigest := by
    cases hs : q.strongVotes <;> cases hw : q.weakVotes <;>
      simp [QcSig.signedGroups, signedVotes, hs, hw]
  simp only [QcSig.verify, seq_eq_ok, eosAssert_eq_ok, bls.aggregateVerify_iff, hgroups]

section States
open AggregatingState

def StateSound (s : AggregatingState) (quorum strongSum weakSum : ℕ) : Prop :=
  match s with
  | unrestricted | restricted => True
  | weakAchieved | weakFinal => quorum ≤ strongSum + weakSum
  | strong => quorum ≤ strongSum

variable {s : AggregatingState} {quorum maxWeakSum strongSum weakSum : UInt64} {before : ℕ}

theorem afterStrong_sound (h : StateSound s quorum.toNat before weakSum.toNat)
    (hle : before ≤ strongSum.toNat) (hsum : strongSum.toNat + weakSum.toNat < 2 ^ 64) :
    StateSound (s.afterStrong quorum strongSum weakSum) quorum.toNat strongSum.toNat
      weakSum.toNat := by
  have hadd : (weakSum + strongSum).toNat = weakSum.toNat + strongSum.toNat := by
    rw [UInt64.toNat_add, Nat.mod_eq_of_lt (by omega)]
  cases s with
  | unrestricted | restricted =>
    simp only [afterStrong, le_iff_toNat_le, hadd]
    split_ifs <;> simp only [StateSound] <;> omega
  | weakAchieved =>
    simp only [StateSound] at h
    simp only [afterStrong, le_iff_toNat_le]
    split_ifs <;> simp only [StateSound] <;> omega
  | weakFinal | strong =>
    simp only [afterStrong, StateSound] at h ⊢
    omega

theorem afterWeak_sound (h : StateSound s quorum.toNat strongSum.toNat before)
    (hle : before ≤ weakSum.toNat) (hsum : strongSum.toNat + weakSum.toNat < 2 ^ 64) :
    StateSound (s.afterWeak quorum maxWeakSum strongSum weakSum) quorum.toNat strongSum.toNat
      weakSum.toNat := by
  have hadd : (weakSum + strongSum).toNat = weakSum.toNat + strongSum.toNat := by
    rw [UInt64.toNat_add, Nat.mod_eq_of_lt (by omega)]
  cases s with
  | unrestricted | restricted =>
    simp only [afterWeak, le_iff_toNat_le, hadd]
    by_cases hquorum : quorum.toNat ≤ weakSum.toNat + strongSum.toNat
    · simp only [if_pos hquorum, if_true]
      split_ifs <;> simp only [StateSound] <;> omega
    · simp only [if_neg hquorum, reduceCtorEq, if_false, if_true]
      split_ifs <;> simp only [StateSound]
  | weakAchieved =>
    simp only [StateSound] at h
    simp only [afterWeak]
    split_ifs <;> simp only [StateSound] <;> omega
  | weakFinal | strong =>
    simp only [afterWeak, StateSound] at h ⊢
    omega

end States

structure PartSound (p : FinalizerPolicy) (strongDigest weakDigest : List UInt8)
    (a : AggregatingQcSig bls) : Prop where
  tally : Tally p a
  quorum_eq : a.quorum = p.threshold
  state : StateSound a.aggregatingState p.threshold.toNat a.strongSum.toNat a.weakSum.toNat
  strong_signers : bls.signers a.strongVotes.sig =
    signedVotes p (some a.strongVotes.bitset) strongDigest
  weak_signers : bls.signers a.weakVotes.sig = signedVotes p (some a.weakVotes.bitset) weakDigest
  received : ∀ r, a.receivedQcSig = some r →
    r.verifyVoteFormat p = .ok () ∧ r.verify p strongDigest weakDigest = .ok ()

variable {p : FinalizerPolicy} {strongDigest weakDigest : List UInt8} {a : AggregatingQcSig bls}

theorem partSound_ofPolicy : PartSound p strongDigest weakDigest (.ofPolicy bls p) := by
  have hzero : ∀ digest, bls.signers bls.zero =
      signedVotes p (some (replicate p.finalizers.length false)) digest := by
    intro digest
    simp [bls.signers_zero, signedVotes, votedKeys_replicate]
  exact ⟨tally_construct p _ _, rfl, trivial, hzero _, hzero _, nofun⟩

theorem signedVotes_set {bits : List Bool} {i : ℕ} {f : FinalizerAuthority}
    (hf : p.finalizers[i]? = some f) (hb : bits[i]? = some false) (digest : List UInt8) :
    signedVotes p (some (bits.set i true)) digest =
      signedVotes p (some bits) digest + {(f.publicKey, digest)} := by
  simp only [signedVotes, map_some, getD_some, votedKeys_set hf hb, Multiset.map_cons]
  rw [← Multiset.singleton_add, add_comm]

variable {q : QcSig bls}

theorem PartSound.setReceivedQcSig (h : PartSound p strongDigest weakDigest a)
    (hformat : q.verifyVoteFormat p = .ok ()) (hq : q.verify p strongDigest weakDigest = .ok ()) :
    PartSound p strongDigest weakDigest (a.setReceivedQcSig q).2 := by
  have hset : PartSound p strongDigest weakDigest { a with receivedQcSig := some q } := by
    refine ⟨⟨h.tally.strong_length, h.tally.weak_length, h.tally.strong_processed,
      h.tally.weak_processed, h.tally.disjoint, h.tally.strong_sum, h.tally.weak_sum⟩,
      h.quorum_eq, h.state, h.strong_signers, h.weak_signers, ?_⟩
    rintro r hr
    cases hr
    exact ⟨hformat, hq⟩
  unfold AggregatingQcSig.setReceivedQcSig
  split
  · exact hset
  · split_ifs
    · exact hset
    · exact h

theorem addVoteFor_cases (a : AggregatingQcSig bls) (p : FinalizerPolicy)
    (vote : VoteMessage bls) (digest : List UInt8) :
    (a.addVoteFor p vote digest).2.2 = a ∨
    ∃ index f, p.finalizers[index]? = some f ∧ f.publicKey = vote.finalizerKey ∧
      bls.verify f.publicKey digest vote.sig = true ∧
      (a.addVoteFor p vote digest).2.2 = (a.addVote vote.strong index vote.sig f.weight).2 := by
  unfold addVoteFor
  split
  · exact .inl rfl
  · rename_i index hindex
    split
    · exact .inl rfl
    · rename_i f hf
      obtain ⟨hlt, hkey, -⟩ := findIdx?_eq_some_iff_getElem.mp hindex
      have hfkey : f.publicKey = vote.finalizerKey := by
        rw [getElem?_eq_getElem hlt, Option.some.injEq] at hf
        simpa [hf] using hkey
      split_ifs with hdup hverify
      · exact .inl rfl
      · exact .inr ⟨index, f, hf, hfkey, hfkey ▸ hverify, rfl⟩
      · exact .inl rfl

/-- The votes of the QC signature a part would hand out: the aggregated ones, without the
weak ones once the strong votes suffice, or the received ones. -/
def AggregatingQcSig.pickedVotes (a : AggregatingQcSig bls) : VoteBits :=
  match a.receivedQcSig with
  | none =>
    if a.aggregatingState = .strong then ⟨some a.strongVotes.bitset, none⟩
    else ⟨some a.strongVotes.bitset, some a.weakVotes.bitset⟩
  | some received =>
    if a.aggregatingState = .strong ∧ received.isWeak = true then
      ⟨some a.strongVotes.bitset, none⟩
    else received.toVoteBits

section
variable (hp : p.Valid) (h : PartSound p strongDigest weakDigest a)
include hp h

theorem PartSound.addVote {index : ℕ} {f : FinalizerAuthority}
    (hf : p.finalizers[index]? = some f) (strong : Bool) {sig : bls.Sig}
    (hsig : bls.verify f.publicKey (if strong then strongDigest else weakDigest) sig = true) :
    PartSound p strongDigest weakDigest (a.addVote strong index sig f.weight).2 := by
  have ht' := tally_addVote hp h.tally hf strong sig
  rw [bls.verify_iff] at hsig
  have hlt : index < p.finalizers.length := (List.getElem?_eq_some_iff.mp hf).1
  by_cases hfresh : a.Fresh index
  · have hs := VotesT.getElem?_of_bitAt (h.tally.strong_length.symm ▸ hlt) hfresh.1
    have hw := VotesT.getElem?_of_bitAt (h.tally.weak_length.symm ▸ hlt) hfresh.2
    rw [addVote_of_fresh hfresh] at ht' ⊢
    cases strong with
    | true =>
      have hadd := (toNat_add_weight hp hf hs h.tally.strong_sum).1
      refine ⟨ht', h.quorum_eq, ?_, ?_, h.weak_signers, h.received⟩
      · have hstate := h.state
        rw [← h.quorum_eq] at hstate ⊢
        exact afterStrong_sound hstate (Nat.le.intro hadd.symm) (ht'.sum_lt hp)
      · simp only [if_true, addStrongVote, VotesT.addVote] at hsig ⊢
        rw [bls.signers_aggregate, h.strong_signers, hsig, signedVotes_set hf hs]
    | false =>
      have hadd := (toNat_add_weight hp hf hw h.tally.weak_sum).1
      refine ⟨ht', h.quorum_eq, ?_, h.strong_signers, ?_, h.received⟩
      · have hstate := h.state
        rw [← h.quorum_eq] at hstate ⊢
        exact afterWeak_sound hstate (Nat.le.intro hadd.symm) (ht'.sum_lt hp)
      · simp only [Bool.false_eq_true, if_false, addWeakVote, VotesT.addVote] at hsig ⊢
        rw [bls.signers_aggregate, h.weak_signers, hsig, signedVotes_set hf hw]
  · rw [addVote_of_not_fresh hfresh]
    exact h

theorem PartSound.addVoteFor (vote : VoteMessage bls) : PartSound p strongDigest weakDigest
    (a.addVoteFor p vote (if vote.strong then strongDigest else weakDigest)).2.2 := by
  rcases addVoteFor_cases a p vote (if vote.strong then strongDigest else weakDigest) with
    heq | ⟨index, f, hf, -, hverify, heq⟩
  · rw [heq]
    exact h
  · rw [heq]
    exact h.addVote hp hf vote.strong hverify

theorem PartSound.verify_strong (hs : a.aggregatingState = .strong)
    (hq : q = ⟨⟨some a.strongVotes.bitset, none⟩, a.strongVotes.sig⟩) :
    q.verifyVoteFormat p = .ok () ∧ q.verify p strongDigest weakDigest = .ok () := by
  subst hq
  constructor
  · rw [verifyVoteFormat_eq_ok]
    exact ⟨.inl rfl, by simp [h.tally.strong_length], by simp, by simp [weakAt]⟩
  · rw [QcSig.verify_eq_ok]
    constructor
    · have hle := h.state
      rw [hs] at hle
      have hsum := h.tally.strong_sum
      simp only [StateSound] at hle
      simp only [verifyQuorum, isStrong, strongWeights, Option.isSome, Bool.not_false, if_true,
        map_some, getD_some, eosAssert_eq_ok, decide_eq_true_eq, le_iff_toNat_le, weights_toNat hp]
      omega
    · simpa [signedVotes] using h.strong_signers

theorem PartSound.verify_weak (hmet : a.isQuorumMet = true)
    (hq : q = ⟨⟨some a.strongVotes.bitset, some a.weakVotes.bitset⟩,
      bls.aggregate a.strongVotes.sig a.weakVotes.sig⟩) :
    q.verifyVoteFormat p = .ok () ∧ q.verify p strongDigest weakDigest = .ok () := by
  subst hq
  constructor
  · rw [verifyVoteFormat_eq_ok]
    exact ⟨.inl rfl, by simp [h.tally.strong_length], by simp [h.tally.weak_length],
      h.tally.disjoint⟩
  · rw [QcSig.verify_eq_ok]
    constructor
    · have hle : p.threshold.toNat ≤ a.strongSum.toNat + a.weakSum.toNat := by
        have hstate := h.state
        cases hs : a.aggregatingState with
        | unrestricted | restricted =>
          simp [isQuorumMet, AggregatingState.isQuorumMet, hs] at hmet
        | weakAchieved | weakFinal | strong =>
          simp only [hs, StateSound] at hstate
          omega
      have hsum := h.tally.sum_lt hp
      rw [h.tally.strong_sum, h.tally.weak_sum] at hle hsum
      simp only [verifyQuorum, isStrong, strongWeights, weakWeights, Option.isSome, Bool.not_true,
        Bool.false_eq_true, if_false, map_some, getD_some, eosAssert_eq_ok, decide_eq_true_eq,
        le_iff_toNat_le, UInt64.toNat_add, weights_toNat hp]
      rwa [Nat.mod_eq_of_lt hsum]
    · rw [bls.signers_aggregate, h.strong_signers, h.weak_signers]

theorem PartSound.extract (hmet : a.isQuorumMet = true) :
    ∃ q, a.extractQcSigFromAggregating = .ok q ∧
      q.toVoteBits = (if a.aggregatingState = .strong then ⟨some a.strongVotes.bitset, none⟩
        else ⟨some a.strongVotes.bitset, some a.weakVotes.bitset⟩) ∧
      q.verifyVoteFormat p = .ok () ∧ q.verify p strongDigest weakDigest = .ok () := by
  unfold extractQcSigFromAggregating
  split_ifs with hs
  · exact ⟨_, rfl, rfl, h.verify_strong hp hs rfl⟩
  · exact ⟨_, rfl, rfl, h.verify_weak hp hmet rfl⟩

theorem PartSound.getBestQc : ∃ best, a.getBestQc = .ok best ∧ ∀ q, best = some q →
    q.toVoteBits = a.pickedVotes ∧ q.verifyVoteFormat p = .ok () ∧
      q.verify p strongDigest weakDigest = .ok () := by
  unfold AggregatingQcSig.getBestQc AggregatingQcSig.pickedVotes
  by_cases hmet : a.isQuorumMet = true
  · obtain ⟨agg, hextract, hbits, hok⟩ := h.extract hp hmet
    simp only [if_pos hmet, hextract]
    cases hr : a.receivedQcSig with
    | none =>
      refine ⟨some agg, rfl, ?_⟩
      rintro q ⟨⟩
      exact ⟨hbits, hok⟩
    | some received =>
      have hpick : (received.isStrong || agg.isWeak) = true ↔
          ¬ (a.aggregatingState = .strong ∧ received.isWeak = true) := by
        have hweak : agg.isWeak = true ↔ ¬ a.aggregatingState = .strong := by
          rw [VoteBits.isWeak, hbits]
          split_ifs with hs <;> simp [hs]
        rw [Bool.or_eq_true, hweak]
        simp only [VoteBits.isStrong, VoteBits.isWeak]
        cases received.weakVotes <;> simp
      by_cases hc : a.aggregatingState = .strong ∧ received.isWeak = true
      · refine ⟨some agg, ?_, ?_⟩
        · change (if (received.isStrong || agg.isWeak) = true then _ else _) = _
          rw [if_neg (fun hx => hpick.mp hx hc)]
          rfl
        · rintro q ⟨⟩
          rw [if_pos hc.1] at hbits
          dsimp only
          rw [if_pos hc]
          exact ⟨hbits, hok⟩
      · refine ⟨some received, ?_, ?_⟩
        · change (if (received.isStrong || agg.isWeak) = true then _ else _) = _
          rw [if_pos (hpick.mpr hc)]
          rfl
        · rintro q ⟨⟩
          dsimp only
          rw [if_neg hc]
          exact ⟨rfl, h.received received hr⟩
  · rw [if_neg hmet]
    have hs : ¬ a.aggregatingState = .strong := by
      intro hs
      simp [AggregatingQcSig.isQuorumMet, AggregatingState.isQuorumMet, hs] at hmet
    refine ⟨_, rfl, ?_⟩
    intro q hq
    simp only [hq, hs, false_and, if_false]
    exact ⟨trivial, h.received q hq⟩

end

variable {a a' : AggregatingQc bls} {qc : Qc bls} {better : Bool}

theorem verifyQc_eq_ok :
    a.verifyQc qc strongDigest weakDigest = .ok () ↔
      qc.activePolicySig.verifyVoteFormat a.activeFinalizerPolicy = .ok () ∧
      qc.activePolicySig.verify a.activeFinalizerPolicy strongDigest weakDigest = .ok () ∧
      match a.pendingFinalizerPolicy with
      | none => qc.pendingPolicySig = none
      | some p => ∃ sig, qc.pendingPolicySig = some sig ∧ sig.verifyVoteFormat p = .ok () ∧
          verifyDualFinalizersVotes a.activeFinalizerPolicy p qc.activePolicySig sig = .ok () ∧
          sig.verify p strongDigest weakDigest = .ok () := by
  unfold verifyQc
  rw [seq_eq_ok]
  cases hsig : qc.pendingPolicySig with
  | none => cases hp : a.pendingFinalizerPolicy <;> simp
  | some sig =>
    cases hp : a.pendingFinalizerPolicy with
    | none => simp
    | some p =>
      simp only [seq_eq_ok, Option.some.injEq, exists_eq_left']
      tauto

section Run
variable (active : FinalizerPolicy) (pending : Option FinalizerPolicy)
  (strongDigest weakDigest : List UInt8)

/-- A node's aggregation for one block: votes arrive, each checked against the digest of
its strength, and so do QCs that pass verification. -/
inductive AggregatingRun : AggregatingQc bls → Prop
  | start : AggregatingRun (.construct bls active pending)
  | vote {a : AggregatingQc bls} (vote : VoteMessage bls) : AggregatingRun a →
      AggregatingRun (a.aggregateVote vote (if vote.strong then strongDigest else weakDigest)).2
  | receive {a a' : AggregatingQc bls} {qc : Qc bls} {better : Bool} : AggregatingRun a →
      a.verifyQc qc strongDigest weakDigest = .ok () →
      a.setReceivedQc qc = .ok (better, a') → AggregatingRun a'

structure RunSound (a : AggregatingQc bls) : Prop where
  active_eq : a.activeFinalizerPolicy = active
  pending_eq : a.pendingFinalizerPolicy = pending
  active_sound : PartSound active strongDigest weakDigest a.activePolicySig
  pending_none : pending = none → a.pendingPolicySig = none
  pending_sound : ∀ p, pending = some p → ∃ sig, a.pendingPolicySig = some sig ∧
    PartSound p strongDigest weakDigest sig

variable {active pending strongDigest weakDigest}

theorem runSound_start :
    RunSound active pending strongDigest weakDigest (.construct bls active pending) := by
  refine ⟨rfl, rfl, partSound_ofPolicy, ?_, ?_⟩
  · rintro rfl
    rfl
  · rintro p rfl
    exact ⟨_, rfl, partSound_ofPolicy⟩

theorem RunSound.receive (h : RunSound active pending strongDigest weakDigest a)
    (hqc : a.verifyQc qc strongDigest weakDigest = .ok ())
    (hset : a.setReceivedQc qc = .ok (better, a')) :
    RunSound active pending strongDigest weakDigest a' := by
  obtain ⟨hformat, hverify, hpending⟩ := verifyQc_eq_ok.mp hqc
  rw [h.active_eq] at hformat hverify
  rw [h.pending_eq] at hpending
  have hactive := h.active_sound.setReceivedQcSig hformat hverify
  unfold setReceivedQc at hset
  cases pending with
  | none =>
    rw [h.pending_none rfl] at hset
    cases hset
    exact ⟨h.active_eq, h.pending_eq, hactive, fun _ => rfl, nofun⟩
  | some p =>
    obtain ⟨psig, hpsig, hsound⟩ := h.pending_sound p rfl
    obtain ⟨received, hreceived, hformat', -, hverify'⟩ := hpending
    rw [hpsig, hreceived] at hset
    cases hset
    refine ⟨h.active_eq, h.pending_eq, hactive, nofun, ?_⟩
    rintro q ⟨⟩
    exact ⟨_, rfl, hsound.setReceivedQcSig hformat' hverify'⟩

variable (hactive : active.Valid) (hpending : ∀ p, pending = some p → p.Valid)
include hactive hpending

theorem RunSound.vote (h : RunSound active pending strongDigest weakDigest a)
    (vote : VoteMessage bls) : RunSound active pending strongDigest weakDigest
      (a.aggregateVote vote (if vote.strong then strongDigest else weakDigest)).2 := by
  have hpart := h.active_sound.addVoteFor hactive vote
  generalize hdigest : (if vote.strong then strongDigest else weakDigest) = digest at hpart ⊢
  unfold aggregateVote
  rw [h.active_eq, h.pending_eq]
  rcases hadd : a.activePolicySig.addVoteFor active vote digest with ⟨status, authority, sig⟩
  rw [hadd] at hpart
  dsimp only
  split_ifs with hstatus
  · exact ⟨rfl, rfl, hpart, h.pending_none, h.pending_sound⟩
  · cases pending with
    | none => exact ⟨rfl, rfl, hpart, h.pending_none, h.pending_sound⟩
    | some p =>
      obtain ⟨psig, hpsig, hsound⟩ := h.pending_sound p rfl
      have hpart' := hsound.addVoteFor (hpending p rfl) vote
      rw [hdigest] at hpart'
      rw [hpsig]
      refine ⟨rfl, rfl, hpart, nofun, ?_⟩
      rintro q ⟨⟩
      exact ⟨_, rfl, hpart'⟩

theorem AggregatingRun.sound
    (h : AggregatingRun active pending strongDigest weakDigest a) :
    RunSound active pending strongDigest weakDigest a := by
  induction h with
  | start => exact runSound_start
  | vote vote _ ih => exact ih.vote hactive hpending vote
  | receive _ hqc hset ih => exact ih.receive hqc hset

end Run
end FlonCore
