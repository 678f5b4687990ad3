import FlonCore.BuiltQc

/-!
# Does a QC that a node builds pass verification?

Both parts of the QC are sound, but they are picked independently of each other,
and the verifier wants a finalizer who is in both policies to have the same vote
in both parts. The aggregated votes do agree on such a finalizer. A part with a
strong quorum leaves its weak votes out, though, while the other part may keep
them, and a received part brings votes of its own. `PartsFit` is the condition on
the aggregation under which the QC passes. Two parts that were received in one QC
always fit.
-/

namespace FlonCore
open Library List
open AggregatingQcSig
variable {bls : BlsScheme}

def IsDual (active pending : FinalizerPolicy) (i j : ℕ) : Prop :=
  ∃ f g, active.finalizers[i]? = some f ∧ pending.finalizers[j]? = some g ∧
    f.publicKey = g.publicKey

def FinalizerPolicy.DistinctKeys (p : FinalizerPolicy) : Prop :=
  (p.finalizers.map FinalizerAuthority.publicKey).Nodup

instance (p : FinalizerPolicy) : Decidable p.DistinctKeys :=
  inferInstanceAs (Decidable (List.Nodup _))

def VoteBits.voteAt (q : VoteBits) (i : ℕ) : Bool × Bool := (q.strongAt i, q.weakAt i)

def AggregatingQcSig.voteAt (a : AggregatingQcSig bls) (i : ℕ) : Bool × Bool :=
  (a.strongVotes.bitAt i, a.weakVotes.bitAt i)

/-- The received signature, unless the aggregated one is strong and this one is weak. -/
def AggregatingQcSig.pickedReceived (a : AggregatingQcSig bls) : Option (QcSig bls) :=
  a.receivedQcSig.filter fun received => !(a.aggregatingState == .strong && received.isWeak)

/-- The vote that an aggregated part hands out; a strong one leaves weak votes out. -/
def AggregatingQcSig.aggregatedVoteAt (a : AggregatingQcSig bls) (i : ℕ) : Bool × Bool :=
  (a.strongVotes.bitAt i, a.aggregatingState != .strong && a.weakVotes.bitAt i)

/-- Two aggregated parts fit when they are equally strong or no finalizer of both policies
voted weak. A received part has to carry the votes that the other part has. -/
def PartsFit (a : AggregatingQc bls) : Prop :=
  ∀ p sig, a.pendingFinalizerPolicy = some p → a.pendingPolicySig = some sig →
    match a.activePolicySig.pickedReceived, sig.pickedReceived with
    | none, none =>
        (a.activePolicySig.aggregatingState = .strong ↔ sig.aggregatingState = .strong) ∨
          ∀ i j, IsDual a.activeFinalizerPolicy p i j →
            a.activePolicySig.weakVotes.bitAt i = false
    | some r, none => ∀ i j, IsDual a.activeFinalizerPolicy p i j →
        r.voteAt i = sig.aggregatedVoteAt j
    | none, some r => ∀ i j, IsDual a.activeFinalizerPolicy p i j →
        a.activePolicySig.aggregatedVoteAt i = r.voteAt j
    | some r, some r' => ∀ i j, IsDual a.activeFinalizerPolicy p i j → r.voteAt i = r'.voteAt j

variable {p q : FinalizerPolicy} {f : FinalizerAuthority}

theorem findIdx?_of_key (hp : p.DistinctKeys) {i : ℕ}
    (hf : p.finalizers[i]? = some f) {test : FinalizerAuthority → Bool}
    (htest : ∀ g, test g = true ↔ g.publicKey = f.publicKey) :
    p.finalizers.findIdx? test = some i := by
  obtain ⟨hi, hf'⟩ := List.getElem?_eq_some_iff.mp hf
  rw [findIdx?_eq_some_iff_getElem]
  refine ⟨hi, (htest _).mpr (by rw [hf']), ?_⟩
  intro k hk
  have hne := nodup_iff_pairwise_ne.mp hp
  rw [pairwise_map] at hne
  have hki := pairwise_iff_getElem.mp hne k i (by omega) hi hk
  rw [hf'] at hki
  rwa [htest]

theorem verifyDualFinalizersVotes_eq_ok (hq : q.DistinctKeys) {activeSig pendingSig : QcSig bls} :
    AggregatingQc.verifyDualFinalizersVotes p q activeSig pendingSig = .ok () ↔
      ∀ i j, IsDual p q i j → activeSig.voteAt i = pendingSig.voteAt j := by
  unfold AggregatingQc.verifyDualFinalizersVotes
  rw [forM_eq_ok]
  constructor
  · rintro h i j ⟨f, g, hf, hg, hkey⟩
    have hcheck := h (f, i) (mem_zipIdx_iff_getElem?.mpr hf)
    have hfind : q.finalizers.findIdx? (fun g => f.publicKey == g.publicKey) = some j := by
      refine findIdx?_of_key hq hg fun g' => ?_
      rw [beq_iff_eq, hkey, eq_comm]
    rw [hfind] at hcheck
    simpa [QcSig.voteSameAt, VoteBits.voteAt] using hcheck
  · rintro h ⟨f, i⟩ hmem
    rw [mem_zipIdx_iff_getElem?] at hmem
    split
    · rfl
    · rename_i j hfind
      obtain ⟨hj, hkey, -⟩ := findIdx?_eq_some_iff_getElem.mp hfind
      have hsame := h i j ⟨f, q.finalizers[j], hmem, getElem?_eq_getElem hj, by simpa using hkey⟩
      simpa [QcSig.voteSameAt, VoteBits.voteAt] using hsame

variable {a : AggregatingQcSig bls}

theorem addVote_voteAt_of_ne {index i : ℕ} (hne : index ≠ i) (strong : Bool) (sig : bls.Sig)
    (weight : UInt64) : (a.addVote strong index sig weight).2.voteAt i = a.voteAt i := by
  by_cases hfresh : a.Fresh index
  · rw [addVote_of_fresh hfresh]
    cases strong <;> simp [addStrongVote, addWeakVote,
      voteAt, VotesT.addVote, VotesT.bitAt, getElem?_set_ne hne]
  · rw [addVote_of_not_fresh hfresh]

theorem addVote_voteAt_self (h : Tally p a) {index : ℕ} (hlt : index < p.finalizers.length)
    (hfresh : a.Fresh index) (strong : Bool) (sig : bls.Sig) (weight : UInt64) :
    (a.addVote strong index sig weight).2.voteAt index = (strong, !strong) := by
  have hs : index < a.strongVotes.bitset.length := h.strong_length.symm ▸ hlt
  have hw : index < a.weakVotes.bitset.length := h.weak_length.symm ▸ hlt
  obtain ⟨hns, hnw⟩ := hfresh
  rw [addVote_of_fresh ⟨hns, hnw⟩]
  rw [Bool.not_eq_true] at hns hnw
  cases strong with
  | true => exact Prod.ext ((VotesT.bitAt_addVote hs sig index).mpr (.inl rfl)) hnw
  | false => exact Prod.ext hns ((VotesT.bitAt_addVote hw sig index).mpr (.inl rfl))

variable {i : ℕ}

theorem voteAt_eq_none_iff : a.voteAt i = (false, false) ↔ a.Fresh i := by
  simp [voteAt, AggregatingQcSig.Fresh]

theorem hasVoted_eq_false_iff (h : Tally p a) :
    a.hasVoted i = false ↔ a.voteAt i = (false, false) := by
  simp [hasVoted, VotesT.hasVoted, voteAt, VotesT.bitAt, h.strong_processed, h.weak_processed]

def castVote (vote : VoteMessage bls) (digest : List UInt8) (key : PublicKey)
    (old : Bool × Bool) : Bool × Bool :=
  if key = vote.finalizerKey ∧ bls.verify key digest vote.sig = true ∧ old = (false, false) then
    (vote.strong, !vote.strong)
  else old

theorem addVoteFor_voteAt (hp : p.Valid) (h : Tally p a) (vote : VoteMessage bls)
    (digest : List UInt8) (hf : p.finalizers[i]? = some f) :
    (a.addVoteFor p vote digest).2.2.voteAt i = castVote vote digest f.publicKey (a.voteAt i) := by
  unfold castVote
  by_cases hkey : f.publicKey = vote.finalizerKey
  · have hfind : p.finalizers.findIdx? (fun g => g.publicKey == vote.finalizerKey) = some i := by
      refine findIdx?_of_key hp.keys_nodup hf fun g => ?_
      rw [beq_iff_eq, hkey]
    unfold addVoteFor
    simp only [hfind, hf, hkey, true_and, ← hasVoted_eq_false_iff h]
    by_cases hvoted : a.hasVoted i = true
    · rw [if_pos hvoted, if_neg (by simp [hvoted])]
    · rw [if_neg hvoted]
      rw [Bool.not_eq_true] at hvoted
      have hfresh := voteAt_eq_none_iff.mp ((hasVoted_eq_false_iff h).mp hvoted)
      by_cases hverify : bls.verify vote.finalizerKey digest vote.sig = true
      · rw [if_pos hverify, if_pos ⟨hverify, hvoted⟩]
        exact addVote_voteAt_self h (List.getElem?_eq_some_iff.mp hf).1 hfresh _ _ _
      · rw [if_neg hverify, if_neg (fun hc => hverify hc.1)]
  · rw [if_neg (fun hc => hkey hc.1)]
    rcases addVoteFor_cases a p vote digest with heq | ⟨index, g, hg, hgkey, -, heq⟩
    · rw [heq]
    · rw [heq]
      refine addVote_voteAt_of_ne ?_ _ _ _
      rintro rfl
      exact hkey (Option.some.inj (hf.symm.trans hg) ▸ hgkey)

theorem castVote_of_rejected (hp : p.Valid) (h : Tally p a) {vote : VoteMessage bls}
    {digest : List UInt8} (hf : p.finalizers[i]? = some f)
    (hstatus : (a.addVoteFor p vote digest).1 ≠ .success ∧
      (a.addVoteFor p vote digest).1 ≠ .unknownPublicKey) :
    castVote vote digest f.publicKey (a.voteAt i) = a.voteAt i := by
  refine if_neg ?_
  rintro ⟨hkey, hverify, hnone⟩
  have hfind : p.finalizers.findIdx? (fun g => g.publicKey == vote.finalizerKey) = some i := by
    refine findIdx?_of_key hp.keys_nodup hf fun g => ?_
    rw [beq_iff_eq, hkey]
  have hvoted := (hasVoted_eq_false_iff h).mpr hnone
  rw [hkey] at hverify
  refine hstatus.1 ?_
  simp [addVoteFor, hfind, hf, hvoted, hverify, addVote_of_fresh (voteAt_eq_none_iff.mp hnone)]

variable {active : FinalizerPolicy} {pending : Option FinalizerPolicy}
  {strongDigest weakDigest : List UInt8}

def SameVotes (a : AggregatingQc bls) : Prop :=
  ∀ p sig, a.pendingFinalizerPolicy = some p → a.pendingPolicySig = some sig →
    ∀ i j, IsDual a.activeFinalizerPolicy p i j → a.activePolicySig.voteAt i = sig.voteAt j

variable {a : AggregatingQc bls}

theorem aggregateVote_parts
    {psig : AggregatingQcSig bls} (hpolicy : a.pendingFinalizerPolicy = some q)
    (hpsig : a.pendingPolicySig = some psig) {vote : VoteMessage bls} {digest : List UInt8}
    {added : VoteStatus × Option FinalizerAuthority × AggregatingQcSig bls}
    (hadded : a.activePolicySig.addVoteFor a.activeFinalizerPolicy vote digest = added) :
    (a.aggregateVote vote digest).2 =
      if added.1 ≠ .success ∧ added.1 ≠ .unknownPublicKey then
        { a with activePolicySig := added.2.2 }
      else
        { a with
          activePolicySig := added.2.2
          pendingPolicySig := some (psig.addVoteFor q vote digest).2.2 } := by
  unfold AggregatingQc.aggregateVote
  rw [hadded, hpolicy, hpsig]
  dsimp only
  by_cases hstatus : added.1 ≠ .success ∧ added.1 ≠ .unknownPublicKey
  · rw [if_pos hstatus, if_pos hstatus]
  · rw [if_neg hstatus, if_neg hstatus]

theorem SameVotes.vote (hactive : active.Valid) (hpending : ∀ p, pending = some p → p.Valid)
    (hs : RunSound active pending strongDigest weakDigest a)
    (h : SameVotes a) (vote : VoteMessage bls) (digest : List UInt8)
    (hs' : RunSound active pending strongDigest weakDigest (a.aggregateVote vote digest).2) :
    SameVotes (a.aggregateVote vote digest).2 := by
  intro q sig hq hsig i j hdual
  rw [hs'.pending_eq] at hq
  rw [hs'.active_eq] at hdual
  obtain ⟨psig, hpsig, hpsound⟩ := hs.pending_sound q hq
  have hpolicy := hs.pending_eq.trans hq
  have hsame := h q psig hpolicy hpsig i j (hs.active_eq ▸ hdual)
  have hadded : a.activePolicySig.addVoteFor a.activeFinalizerPolicy vote digest =
      a.activePolicySig.addVoteFor active vote digest := by rw [hs.active_eq]
  have hparts := aggregateVote_parts hpolicy hpsig hadded
  obtain ⟨f, g, hf, hg, hkey⟩ := hdual
  have hactiveVote := addVoteFor_voteAt hactive hs.active_sound.tally vote digest hf
  have hpendingVote := addVoteFor_voteAt (hpending q hq) hpsound.tally vote digest hg
  by_cases hstatus : (a.activePolicySig.addVoteFor active vote digest).1 ≠ .success ∧
      (a.activePolicySig.addVoteFor active vote digest).1 ≠ .unknownPublicKey
  · rw [if_pos hstatus] at hparts
    rw [hparts] at hsig ⊢
    rw [castVote_of_rejected hactive hs.active_sound.tally hf hstatus] at hactiveVote
    cases Option.some.inj (hpsig.symm.trans hsig)
    exact hactiveVote.trans hsame
  · rw [if_neg hstatus] at hparts
    rw [hparts] at hsig ⊢
    cases hsig
    rw [← hkey, ← hsame] at hpendingVote
    exact hactiveVote.trans hpendingVote.symm

theorem SameVotes.receive {a a' : AggregatingQc bls} {qc : Qc bls} {better : Bool}
    (h : SameVotes a) (hset : a.setReceivedQc qc = .ok (better, a')) : SameVotes a' := by
  have hvotes : ∀ (s : AggregatingQcSig bls) (q : QcSig bls) (i : ℕ),
      (s.setReceivedQcSig q).2.voteAt i = s.voteAt i := by
    intro s q i
    unfold setReceivedQcSig
    split
    · rfl
    · split_ifs <;> rfl
  unfold AggregatingQc.setReceivedQc at hset
  intro p sig hp hsig i j hdual
  split at hset
  · rename_i hnone
    cases hset
    exact absurd (hsig.symm.trans hnone) nofun
  · cases hset
  · rename_i psig received hpsig _
    cases hset
    cases hsig
    exact ((hvotes _ _ i).trans (h p psig hp hpsig i j hdual)).trans (hvotes _ _ j).symm

theorem voteAt_ofPolicy (p : FinalizerPolicy) (i : ℕ) :
    (ofPolicy bls p).voteAt i = (false, false) := by
  rw [voteAt_eq_none_iff]
  simp only [AggregatingQcSig.Fresh, ofPolicy, construct,
    VotesT.empty, VotesT.bitAt, getElem?_replicate]
  split_ifs <;> simp

theorem AggregatingRun.sameVotes (hactive : active.Valid)
    (hpending : ∀ p, pending = some p → p.Valid)
    (h : AggregatingRun active pending strongDigest weakDigest a) : SameVotes a := by
  induction h with
  | start =>
    rintro p sig ⟨⟩ ⟨⟩ i j -
    exact (voteAt_ofPolicy active i).trans (voteAt_ofPolicy p j).symm
  | vote vote hrun ih =>
    exact ih.vote hactive hpending (hrun.sound hactive hpending) vote _
      ((hrun.vote vote).sound hactive hpending)
  | receive _ _ hset ih => exact ih.receive hset

variable {blockNum : ℕ}

theorem getBestQc_of_active_none
    (h : a.activePolicySig.getBestQc = .ok none) : a.getBestQc blockNum = .ok none := by
  unfold AggregatingQc.getBestQc
  rw [h]
  rfl

theorem getBestQc_of_pending_none {act : QcSig bls}
    (h : a.activePolicySig.getBestQc = .ok (some act)) (hp : a.pendingPolicySig = none) :
    a.getBestQc blockNum = .ok (some ⟨blockNum, act, none⟩) := by
  unfold AggregatingQc.getBestQc
  rw [h, hp]
  rfl

theorem getBestQc_of_pending_some {act : QcSig bls}
    {sig : AggregatingQcSig bls} {best : Option (QcSig bls)}
    (h : a.activePolicySig.getBestQc = .ok (some act)) (hp : a.pendingPolicySig = some sig)
    (hbest : sig.getBestQc = .ok best) :
    a.getBestQc blockNum = .ok (best.map fun pend => ⟨blockNum, act, some pend⟩) := by
  unfold AggregatingQc.getBestQc
  rw [h, hp]
  change (sig.getBestQc >>= _) = _
  rw [hbest]
  cases best <;> rfl

theorem pickedVotes_voteAt (a : AggregatingQcSig bls) (i : ℕ) :
    a.pickedVotes.voteAt i = match a.pickedReceived with
      | none => a.aggregatedVoteAt i
      | some received => received.voteAt i := by
  have haggregated : (if a.aggregatingState = .strong then
      (⟨some a.strongVotes.bitset, none⟩ : VoteBits)
      else ⟨some a.strongVotes.bitset, some a.weakVotes.bitset⟩).voteAt i =
        a.aggregatedVoteAt i := by
    unfold aggregatedVoteAt
    by_cases hs : a.aggregatingState = .strong
    · rw [if_pos hs, hs]
      rfl
    · rw [if_neg hs, bne_iff_ne.mpr hs, Bool.true_and]
      rfl
  unfold pickedVotes pickedReceived
  cases a.receivedQcSig with
  | none => exact haggregated
  | some received =>
    by_cases hweak : a.aggregatingState = .strong ∧ received.isWeak = true
    · have hdrop : (some received).filter
          (fun r => !(a.aggregatingState == .strong && r.isWeak)) = none := by simp [hweak]
      rw [if_pos hweak.1] at haggregated
      rw [hdrop]
      dsimp only
      rw [if_pos hweak]
      exact haggregated
    · have hkeep : (some received).filter
          (fun r => !(a.aggregatingState == .strong && r.isWeak)) = some received := by
        simpa [or_iff_not_imp_left] using hweak
      rw [hkeep]
      dsimp only
      rw [if_neg hweak]

theorem aggregated_fit_iff {b b' : AggregatingQcSig bls} {D : ℕ → ℕ → Prop}
    (h : ∀ i j, D i j → b.voteAt i = b'.voteAt j) :
    (∀ i j, D i j → b.aggregatedVoteAt i = b'.aggregatedVoteAt j) ↔
      ((b.aggregatingState = .strong ↔ b'.aggregatingState = .strong) ∨
        ∀ i j, D i j → b.weakVotes.bitAt i = false) := by
  have hvotes : ∀ i j, D i j → b.strongVotes.bitAt i = b'.strongVotes.bitAt j ∧
      b.weakVotes.bitAt i = b'.weakVotes.bitAt j := fun i j hd => Prod.ext_iff.mp (h i j hd)
  have hstep : ∀ i j, D i j → (b.aggregatedVoteAt i = b'.aggregatedVoteAt j ↔
      ((b.aggregatingState = .strong ↔ b'.aggregatingState = .strong) ∨
        b.weakVotes.bitAt i = false)) := by
    intro i j hd
    obtain ⟨hstrong, hweak⟩ := hvotes i j hd
    unfold aggregatedVoteAt
    rw [← hstrong, ← hweak, Prod.mk.injEq, eq_self, true_and]
    cases b.weakVotes.bitAt i <;> cases b.aggregatingState <;> cases b'.aggregatingState <;> decide
  constructor
  · intro hfit
    refine or_iff_not_imp_left.mpr fun hstate i j hd => ?_
    exact ((hstep i j hd).mp (hfit i j hd)).resolve_left hstate
  · intro hfit i j hd
    exact (hstep i j hd).mpr (hfit.imp_right fun hweak => hweak i j hd)

theorem partsFit_iff (hsame : SameVotes a) : PartsFit a ↔
    ∀ p sig, a.pendingFinalizerPolicy = some p → a.pendingPolicySig = some sig →
      ∀ i j, IsDual a.activeFinalizerPolicy p i j →
        a.activePolicySig.pickedVotes.voteAt i = sig.pickedVotes.voteAt j := by
  refine forall_congr' fun p => forall_congr' fun sig => forall_congr' fun hp =>
    forall_congr' fun hsig => ?_
  simp only [pickedVotes_voteAt]
  cases a.activePolicySig.pickedReceived with
  | none =>
    cases sig.pickedReceived with
    | none => exact (aggregated_fit_iff (hsame p sig hp hsig)).symm
    | some r => exact Iff.rfl
  | some r =>
    cases sig.pickedReceived with
    | none => exact Iff.rfl
    | some r' => exact Iff.rfl

/-- Two received parts that are picked fit if they are those of one QC that passed. -/
theorem partsFit_of_received {qc : Qc bls} (hkeys : ∀ p, pending = some p → p.DistinctKeys)
    (hqc : (AggregatingQc.construct bls active pending).verifyQc qc strongDigest weakDigest =
      .ok ()) {a : AggregatingQc bls} (hactive : a.activeFinalizerPolicy = active)
    (hpending : a.pendingFinalizerPolicy = pending)
    (hreceived : a.activePolicySig.pickedReceived = some qc.activePolicySig)
    (hreceived' : ∀ sig, a.pendingPolicySig = some sig → sig.pickedReceived = qc.pendingPolicySig) :
    PartsFit a := by
  intro p sig hp hsig
  obtain ⟨-, -, hparts⟩ := verifyQc_eq_ok.mp hqc
  have hpending' : (AggregatingQc.construct bls active pending).pendingFinalizerPolicy = some p :=
    hpending.symm.trans hp
  rw [hpending'] at hparts
  obtain ⟨received, hpart, -, hdual, -⟩ := hparts
  rw [hreceived, hreceived' sig hsig, hpart, hactive]
  exact (verifyDualFinalizersVotes_eq_ok (hkeys p (hpending.symm.trans hp))).mp hdual

/-- Building a QC never fails, and the QC built passes verification exactly when the parts
fit together. -/
theorem getBestQc_verifies_iff (hactive : active.Accepted)
    (hpending : ∀ p, pending = some p → p.Accepted) {a : AggregatingQc bls}
    (h : AggregatingRun active pending strongDigest weakDigest a) (blockNum : ℕ) :
    (∃ best, a.getBestQc blockNum = .ok best) ∧
    ∀ qc, a.getBestQc blockNum = .ok (some qc) →
      ((AggregatingQc.construct bls active pending).verifyQc qc strongDigest weakDigest = .ok () ↔
        PartsFit a) := by
  have hpending' : ∀ p, pending = some p → p.Valid := fun p hp => (hpending p hp).valid
  have hs := h.sound hactive.valid hpending'
  obtain ⟨best, hbest, hgood⟩ := hs.active_sound.getBestQc hactive.valid
  rw [partsFit_iff (h.sameVotes hactive.valid hpending'), hs.active_eq, hs.pending_eq]
  cases best with
  | none =>
    have hnone : a.getBestQc blockNum = .ok none := getBestQc_of_active_none hbest
    rw [hnone]
    exact ⟨⟨none, rfl⟩, nofun⟩
  | some act =>
    obtain ⟨hbits, hformat, hverify⟩ := hgood act rfl
    cases pending with
    | none =>
      rw [getBestQc_of_pending_none hbest (hs.pending_none rfl)]
      refine ⟨⟨_, rfl⟩, ?_⟩
      rintro qc ⟨⟩
      rw [verifyQc_eq_ok]
      exact ⟨fun _ => nofun, fun _ => ⟨hformat, hverify, rfl⟩⟩
    | some p =>
      obtain ⟨psig, hpsig, hpsound⟩ := hs.pending_sound p rfl
      obtain ⟨pbest, hpbest, hpgood⟩ := hpsound.getBestQc (hpending p rfl).valid
      rw [getBestQc_of_pending_some hbest hpsig hpbest]
      refine ⟨⟨_, rfl⟩, ?_⟩
      intro qc hqc
      obtain ⟨pend, rfl, rfl⟩ := Option.map_eq_some_iff.mp (Except.ok.inj hqc)
      obtain ⟨hpbits, hpformat, hpverify⟩ := hpgood pend rfl
      rw [verifyQc_eq_ok]
      constructor
      · rintro ⟨-, -, sig, ⟨⟩, -, hdual, -⟩ q sig ⟨⟩ hsig
        cases hpsig.symm.trans hsig
        rw [← hbits, ← hpbits]
        exact (verifyDualFinalizersVotes_eq_ok (hpending p rfl).valid.keys_nodup).mp hdual
      · intro hfit
        refine ⟨hformat, hverify, pend, rfl, hpformat, ?_, hpverify⟩
        refine (verifyDualFinalizersVotes_eq_ok (hpending p rfl).valid.keys_nodup).mpr ?_
        have hdual := hfit p psig rfl hpsig
        rwa [← hbits, ← hpbits] at hdual

def aggregateVotes (active : FinalizerPolicy) (pending : Option FinalizerPolicy)
    (strongDigest weakDigest : List UInt8) (votes : List (VoteMessage bls)) : AggregatingQc bls :=
  votes.foldl (fun a vote => (a.aggregateVote vote
    (if vote.strong then strongDigest else weakDigest)).2) (.construct bls active pending)

theorem aggregateVotes_run (votes : List (VoteMessage bls)) :
    AggregatingRun active pending strongDigest weakDigest
      (aggregateVotes active pending strongDigest weakDigest votes) := by
  have hfold : ∀ a : AggregatingQc bls, AggregatingRun active pending strongDigest weakDigest a →
      AggregatingRun active pending strongDigest weakDigest (votes.foldl (fun a vote =>
        (a.aggregateVote vote (if vote.strong then strongDigest else weakDigest)).2) a) := by
    induction votes with
    | nil => exact fun a h => h
    | cons vote votes ih => exact fun a h => ih _ (h.vote vote)
  exact hfold _ .start

theorem exists_getBestQc {P : Qc bls → Prop} [DecidablePred P]
    (h : (match a.getBestQc blockNum with | .ok (some qc) => decide (P qc) | _ => false) = true) :
    ∃ qc, a.getBestQc blockNum = .ok (some qc) ∧ P qc := by
  split at h
  · rename_i qc hqc
    exact ⟨qc, hqc, of_decide_eq_true h⟩
  · cases h

def BlsScheme.idealSign (key : PublicKey) (digest : List UInt8) : BlsScheme.ideal.Sig :=
  ({(key, digest)} : Multiset (PublicKey × List UInt8))

def unitVote (strong : Bool) (byte : UInt8) : VoteMessage .ideal :=
  ⟨5 <<< 224, strong, ⟨byte :: replicate 95 0⟩,
    BlsScheme.idealSign ⟨byte :: replicate 95 0⟩ (if strong then [1] else [0])⟩

def overlapRun (votes : List (VoteMessage .ideal)) : AggregatingQc .ideal :=
  aggregateVotes (unitPolicy 1 2 [0, 1, 2]) (some (unitPolicy 2 2 [2, 3])) [1] [0] votes

theorem overlap_strong_verifies : ∃ qc,
    (overlapRun [unitVote true 0, unitVote true 2, unitVote true 3]).getBestQc 5 = .ok (some qc) ∧
      (AggregatingQc.construct .ideal (unitPolicy 1 2 [0, 1, 2])
        (some (unitPolicy 2 2 [2, 3]))).verifyQc qc [1] [0] = .ok () := by
  have hbuilt : ∃ qc, (overlapRun [unitVote true 0, unitVote true 2, unitVote true 3]).getBestQc 5 =
      .ok (some qc) ∧ True := exists_getBestQc (by decide +kernel)
  have hpending : ∀ p, some (unitPolicy 2 2 [2, 3]) = some p → p.Accepted := by
    rintro p ⟨⟩
    exact unitPolicy_accepted (by decide +kernel)
  have hstates :
      (overlapRun [unitVote true 0, unitVote true 2, unitVote true 3]).pendingPolicySig.map
        (fun sig => (sig.pickedReceived.isNone, sig.aggregatingState)) = some (true, .strong) := by
    decide +kernel
  have hactive : (overlapRun [unitVote true 0, unitVote true 2,
      unitVote true 3]).activePolicySig.pickedReceived.isNone = true := by decide +kernel
  obtain ⟨qc, hqc, -⟩ := hbuilt
  refine ⟨qc, hqc, ((getBestQc_verifies_iff (unitPolicy_accepted (by decide +kernel)) hpending
    (aggregateVotes_run _) 5).2 qc hqc).mpr ?_⟩
  intro p sig _ hsig
  obtain ⟨sig', hsig', hstate⟩ := Option.map_eq_some_iff.mp hstates
  cases Option.some.inj (hsig.symm.trans hsig')
  rw [Prod.mk.injEq, Option.isNone_iff_eq_none] at hstate
  rw [Option.isNone_iff_eq_none, overlapRun] at hactive
  rw [hstate.1, hactive]
  exact .inl (iff_of_true (by decide +kernel) hstate.2)

/-- Two strong votes of the active policy make its part strong, so that the weak vote of the
third finalizer is left out of it. The pending policy needs that vote. -/
theorem overlap_weak_rejected :
    (unitPolicy 1 2 [0, 1, 2]).Accepted ∧ (unitPolicy 2 2 [2, 3]).Accepted ∧
    AggregatingRun (unitPolicy 1 2 [0, 1, 2]) (some (unitPolicy 2 2 [2, 3])) [1] [0]
      (overlapRun [unitVote true 0, unitVote true 1, unitVote false 2, unitVote true 3]) ∧
    ∃ qc, (overlapRun [unitVote true 0, unitVote true 1, unitVote false 2,
        unitVote true 3]).getBestQc 5 = .ok (some qc) ∧
      (AggregatingQc.construct .ideal (unitPolicy 1 2 [0, 1, 2])
        (some (unitPolicy 2 2 [2, 3]))).verifyQc qc [1] [0] = .error ⟨.invalidQcClaim,
          "qc ${bn} contains a dual finalizer ${k} which does not vote the same on active and " ++
            "pending policies"⟩ :=
  ⟨unitPolicy_accepted (by decide +kernel), unitPolicy_accepted (by decide +kernel),
    aggregateVotes_run _, exists_getBestQc (by decide +kernel)⟩

end FlonCore
