import FlonCore.QcSig

/-!
# Aggregating the votes of one policy

Votes on a block are added one at a time. Besides the vote vectors and the
aggregate signatures the aggregation keeps a state of five values, updated from
the accumulated strong and weak weights with each vote that is not a duplicate.
-/

namespace FlonCore
open Library Finset List
open FinalizerPolicy

inductive VoteStatus
  | success
  | duplicate
  | unknownPublicKey
  | invalidSignature
  | unknownBlock
  | maxExceeded
deriving DecidableEq, Repr

inductive AggregatingState
  | unrestricted
  | restricted
  | weakAchieved
  | weakFinal
  | strong
deriving DecidableEq, Repr

structure VotesT (bls : BlsScheme) where
  bitset : List Bool
  sig : bls.Sig
  processed : List Bool

structure AggregatingQcSig (bls : BlsScheme) where
  receivedQcSig : Option (QcSig bls)
  (quorum maxWeakSumBeforeWeakFinal : UInt64)
  aggregatingState : AggregatingState
  (strongSum weakSum : UInt64)
  (weakVotes strongVotes : VotesT bls)

variable {bls : BlsScheme}

namespace VotesT

def empty (bls : BlsScheme) (numFinalizers : ℕ) : VotesT bls :=
  ⟨replicate numFinalizers false, bls.zero, replicate numFinalizers false⟩

def hasVoted (v : VotesT bls) (index : ℕ) : Bool := v.processed[index]?.getD false

def bitAt (v : VotesT bls) (index : ℕ) : Bool := v.bitset[index]?.getD false

def addVote (v : VotesT bls) (index : ℕ) (signature : bls.Sig) : VotesT bls :=
  ⟨v.bitset.set index true, bls.aggregate v.sig signature, v.processed.set index true⟩

end VotesT

namespace AggregatingState

variable (s : AggregatingState)

def isQuorumMet : Bool :=
  s == strong || s == weakAchieved || s == weakFinal

/-- The transition of `add_strong_vote`, with the vote already counted in `strongSum`. -/
def afterStrong (quorum strongSum weakSum : UInt64) : AggregatingState :=
  match s with
  | unrestricted | restricted =>
    if quorum ≤ strongSum then strong
    else if quorum ≤ weakSum + strongSum then
      if s = restricted then weakFinal else weakAchieved
    else s
  | weakAchieved => if quorum ≤ strongSum then strong else weakAchieved
  | weakFinal => weakFinal
  | strong => strong

/-- The transition of `add_weak_vote`, with the vote already counted in `weakSum`. -/
def afterWeak (quorum maxWeakSum strongSum weakSum : UInt64) : AggregatingState :=
  match s with
  | unrestricted | restricted =>
    let s' := if quorum ≤ weakSum + strongSum then weakAchieved else s
    if maxWeakSum < weakSum then
      if s' = weakAchieved then weakFinal
      else if s' = unrestricted then restricted
      else s'
    else s'
  | weakAchieved => if maxWeakSum ≤ weakSum then weakFinal else weakAchieved
  | weakFinal => weakFinal
  | strong => strong

end AggregatingState

namespace AggregatingQcSig

def construct (bls : BlsScheme) (numFinalizers : ℕ) (quorum maxWeakSum : UInt64) :
    AggregatingQcSig bls :=
  ⟨none, quorum, maxWeakSum, .unrestricted, 0, 0, .empty bls numFinalizers,
    .empty bls numFinalizers⟩

def ofPolicy (bls : BlsScheme) (p : FinalizerPolicy) : AggregatingQcSig bls :=
  construct bls p.finalizers.length p.threshold p.maxWeakSumBeforeWeakFinal

variable (a : AggregatingQcSig bls)

def isQuorumMet : Bool := a.aggregatingState.isQuorumMet

def hasVoted (index : ℕ) : Bool :=
  a.strongVotes.hasVoted index || a.weakVotes.hasVoted index

def checkDuplicate (index : ℕ) : VoteStatus :=
  if a.strongVotes.bitAt index || a.weakVotes.bitAt index then .duplicate else .success

def addStrongVote (index : ℕ) (sig : bls.Sig) (weight : UInt64) : AggregatingQcSig bls :=
  { a with
    strongVotes := a.strongVotes.addVote index sig
    strongSum := a.strongSum + weight
    aggregatingState :=
      a.aggregatingState.afterStrong a.quorum (a.strongSum + weight) a.weakSum }

def addWeakVote (index : ℕ) (sig : bls.Sig) (weight : UInt64) : AggregatingQcSig bls :=
  { a with
    weakVotes := a.weakVotes.addVote index sig
    weakSum := a.weakSum + weight
    aggregatingState := a.aggregatingState.afterWeak a.quorum a.maxWeakSumBeforeWeakFinal
      a.strongSum (a.weakSum + weight) }

def addVote (strong : Bool) (index : ℕ) (sig : bls.Sig)
    (weight : UInt64) : VoteStatus × AggregatingQcSig bls :=
  match a.checkDuplicate index with
  | .success =>
    if strong then (.success, a.addStrongVote index sig weight)
    else (.success, a.addWeakVote index sig weight)
  | status => (status, a)

end AggregatingQcSig

open AggregatingQcSig

variable {f : FinalizerAuthority}

theorem natWeights_set {finalizers : List FinalizerAuthority} {bits : List Bool} {i : ℕ}
    (hf : finalizers[i]? = some f) (hb : bits[i]? = some false) :
    natWeights finalizers (bits.set i true) = natWeights finalizers bits + f.weight.toNat := by
  induction finalizers generalizing bits i with
  | nil => simp at hf
  | cons g gs ih =>
    cases bits with
    | nil => simp at hb
    | cons b bs =>
      cases i with
      | zero =>
        simp only [getElem?_cons_zero, Option.some.injEq] at hf hb
        subst hf hb
        simp [natWeights]
        omega
      | succ i =>
        simp only [set_cons_succ, natWeights, ih hf hb]
        omega

variable {index : ℕ}

theorem VotesT.bitAt_addVote {v : VotesT bls} (h : index < v.bitset.length)
    (sig : bls.Sig) (i : ℕ) :
    (v.addVote index sig).bitAt i = true ↔ i = index ∨ v.bitAt i = true := by
  by_cases hi : index = i
  · subst hi
    simp [VotesT.addVote, VotesT.bitAt, h]
  · simp [VotesT.addVote, VotesT.bitAt, getElem?_set_ne hi, Ne.symm hi]

theorem VotesT.getElem?_of_bitAt {v : VotesT bls} (h : index < v.bitset.length)
    (hb : ¬ v.bitAt index = true) : v.bitset[index]? = some false := by
  simpa [VotesT.bitAt, h] using hb

structure Tally (p : FinalizerPolicy) (a : AggregatingQcSig bls) : Prop where
  strong_length : a.strongVotes.bitset.length = p.finalizers.length
  weak_length : a.weakVotes.bitset.length = p.finalizers.length
  strong_processed : a.strongVotes.processed = a.strongVotes.bitset
  weak_processed : a.weakVotes.processed = a.weakVotes.bitset
  disjoint : ∀ i, a.strongVotes.bitAt i = true → ¬ a.weakVotes.bitAt i = true
  strong_sum : a.strongSum.toNat = natWeights p.finalizers a.strongVotes.bitset
  weak_sum : a.weakSum.toNat = natWeights p.finalizers a.weakVotes.bitset

def notVotedWeight (p : FinalizerPolicy) (a : AggregatingQcSig bls) : ℕ :=
  ∑ i, if a.strongVotes.bitAt i.val || a.weakVotes.bitAt i.val then 0 else p.weightAt i

variable {a : AggregatingQcSig bls} {p : FinalizerPolicy}

theorem sum_voted (h : Tally p a) :
    a.strongSum.toNat + a.weakSum.toNat + notVotedWeight p a = p.totalWeight := by
  rw [h.strong_sum, h.weak_sum, natWeights_eq_sum, natWeights_eq_sum, notVotedWeight,
    ← p.sum_weightAt, ← sum_add_distrib, ← sum_add_distrib]
  refine sum_congr rfl fun i _ => ?_
  have hd : a.strongVotes.bitset[i.val]?.getD false = true →
      ¬ a.weakVotes.bitset[i.val]?.getD false = true := h.disjoint i
  by_cases hs : a.strongVotes.bitset[i.val]?.getD false = true
  · simp [VotesT.bitAt, weightAt, hs, hd hs]
  · by_cases hw : a.weakVotes.bitset[i.val]?.getD false = true
    · simp [VotesT.bitAt, weightAt, hs, hw]
    · simp [VotesT.bitAt, weightAt, hs, hw]

theorem Tally.sum_lt (h : Tally p a)
    (hp : p.Valid) : a.strongSum.toNat + a.weakSum.toNat < 2 ^ 64 :=
  lt_of_le_of_lt (Nat.le.intro (sum_voted h)) hp.total_lt

theorem toNat_add_weight (hp : p.Valid) {bits : List Bool} (hf : p.finalizers[index]? = some f)
    (hb : bits[index]? = some false) {sum : UInt64}
    (hsum : sum.toNat = natWeights p.finalizers bits) :
    (sum + f.weight).toNat = sum.toNat + f.weight.toNat ∧
      (sum + f.weight).toNat = natWeights p.finalizers (bits.set index true) := by
  have hset := natWeights_set hf hb
  have hle := natWeights_le p.finalizers (bits.set index true)
  have hlt := hp.total_lt
  rw [totalWeight] at hlt
  have hadd : (sum + f.weight).toNat = sum.toNat + f.weight.toNat := by
    rw [UInt64.toNat_add, Nat.mod_eq_of_lt (by omega)]
  exact ⟨hadd, by rw [hadd, hset, hsum]⟩

theorem tally_construct (p : FinalizerPolicy) (quorum maxWeakSum : UInt64) :
    Tally p (construct bls p.finalizers.length quorum maxWeakSum) := by
  have hzero : ∀ (fs : List FinalizerAuthority) (n : ℕ),
      natWeights fs (replicate n false) = 0 := by
    intro fs
    induction fs with
    | nil => simp [natWeights]
    | cons f fs ih =>
      intro n
      cases n with
      | zero => simp [natWeights]
      | succ n => simp [replicate_succ, natWeights, ih]
  refine ⟨by simp [construct, VotesT.empty],
    by simp [construct, VotesT.empty], rfl, rfl, ?_, ?_, ?_⟩
  · intro i hi
    simp [construct, VotesT.empty, VotesT.bitAt, getElem?_replicate] at hi
    split_ifs at hi <;> simp at hi
  · simp [construct, VotesT.empty, hzero]
  · simp [construct, VotesT.empty, hzero]

def AggregatingQcSig.Fresh (a : AggregatingQcSig bls) (index : ℕ) : Prop :=
  ¬ a.strongVotes.bitAt index = true ∧ ¬ a.weakVotes.bitAt index = true

theorem addVote_of_fresh (h : a.Fresh index)
    (strong : Bool) (sig : bls.Sig) (weight : UInt64) :
    a.addVote strong index sig weight = (.success,
      if strong then a.addStrongVote index sig weight else a.addWeakVote index sig weight) := by
  have hc : a.checkDuplicate index = .success := by
    simp [checkDuplicate, h.1, h.2]
  cases strong <;> simp [addVote, hc]

theorem addVote_of_not_fresh (h : ¬ a.Fresh index)
    (strong : Bool) (sig : bls.Sig) (weight : UInt64) :
    a.addVote strong index sig weight = (.duplicate, a) := by
  have hc : a.checkDuplicate index = .duplicate := by
    simp only [AggregatingQcSig.Fresh, not_and_or, not_not] at h
    simp [checkDuplicate, h]
  simp [addVote, hc]

theorem tally_addVote (hp : p.Valid)
    (h : Tally p a) (hf : p.finalizers[index]? = some f)
    (strong : Bool) (sig : bls.Sig) : Tally p (a.addVote strong index sig f.weight).2 := by
  have hlt : index < p.finalizers.length := (List.getElem?_eq_some_iff.mp hf).1
  by_cases hfresh : a.Fresh index
  · have hs := VotesT.getElem?_of_bitAt (h.strong_length.symm ▸ hlt) hfresh.1
    have hw := VotesT.getElem?_of_bitAt (h.weak_length.symm ▸ hlt) hfresh.2
    rw [addVote_of_fresh hfresh]
    cases strong with
    | true =>
      refine ⟨by simp [addStrongVote, VotesT.addVote, h.strong_length],
        h.weak_length, by simp [addStrongVote, VotesT.addVote,
          h.strong_processed], h.weak_processed, ?_, (toNat_add_weight hp hf hs h.strong_sum).2,
        h.weak_sum⟩
      intro i hi
      rcases (VotesT.bitAt_addVote (h.strong_length.symm ▸ hlt) sig i).mp hi with rfl | hi
      · exact hfresh.2
      · exact h.disjoint i hi
    | false =>
      refine ⟨h.strong_length, by simp [addWeakVote, VotesT.addVote, h.weak_length],
        h.strong_processed, by simp [addWeakVote, VotesT.addVote, h.weak_processed], ?_,
        h.strong_sum, (toNat_add_weight hp hf hw h.weak_sum).2⟩
      intro i hi hi'
      rcases (VotesT.bitAt_addVote (h.weak_length.symm ▸ hlt) sig i).mp hi' with rfl | hi'
      · exact hfresh.1 hi
      · exact h.disjoint i hi hi'
  · rw [addVote_of_not_fresh hfresh]
    exact h

end FlonCore
