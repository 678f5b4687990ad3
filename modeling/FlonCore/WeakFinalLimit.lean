import FlonCore.QuorumState

/-!
# The weak-final limit of a policy

The weights of a policy are 64-bit words, but the sum behind the weak-final limit
is accumulated in a signed 32-bit integer. What comes out is the low half of the
sum, sign extended; the limit is exact for the sums this does not change.
-/

namespace FlonCore
open Library BitVec List

theorem toBitVec_addTruncated (acc : Int32) (weight : UInt64) :
    (acc.toInt64.toUInt64 + weight).toUInt32.toInt32.toBitVec =
      acc.toBitVec + weight.toBitVec.setWidth 32 := by
  have hround : (acc.toBitVec.signExtend 64).setWidth 32 = acc.toBitVec := by
    apply eq_of_toNat_eq
    rw [toNat_setWidth, toNat_signExtend, toNat_setWidth]
    split_ifs <;> omega
  change ((acc.toBitVec.signExtend 64 + weight.toBitVec).setWidth 32) = _
  rw [setWidth_add _ _ (by omega), hround]

theorem foldl_addTruncated (finalizers : List FinalizerAuthority) (acc : Int32) :
    (finalizers.foldl (fun acc f => (acc.toInt64.toUInt64 + f.weight).toUInt32.toInt32)
      acc).toBitVec.toNat =
      (acc.toBitVec.toNat + (finalizers.map fun f => f.weight.toNat).sum) % 2 ^ 32 := by
  induction finalizers generalizing acc with
  | nil => simp [Nat.mod_eq_of_lt acc.toBitVec.isLt]
  | cons f fs ih =>
    rw [foldl_cons, ih, toBitVec_addTruncated, toNat_add, toNat_setWidth, map_cons, sum_cons]
    have hweight : f.weight.toBitVec.toNat = f.weight.toNat := rfl
    omega

theorem toNat_signExtended (sum : Int32) :
    sum.toInt64.toUInt64.toNat = if sum.toBitVec.toNat < 2 ^ 31 then sum.toBitVec.toNat
      else sum.toBitVec.toNat + (2 ^ 64 - 2 ^ 32) := by
  change (sum.toBitVec.signExtend 64).toNat = _
  rw [toNat_signExtend, toNat_setWidth, msb_eq_decide]
  simp only [decide_eq_true_eq]
  split_ifs <;> omega

namespace FinalizerPolicy
variable {p : FinalizerPolicy}

def LimitExact (p : FinalizerPolicy) : Prop :=
  p.maxWeakSumBeforeWeakFinal.toNat + p.threshold.toNat = p.totalWeight

instance (p : FinalizerPolicy) : Decidable p.LimitExact := by
  unfold LimitExact
  infer_instance

theorem limitExact_iff (h : p.Valid) :
    p.LimitExact ↔ p.totalWeight < 2 ^ 31 ∨ 2 ^ 64 - 2 ^ 31 ≤ p.totalWeight := by
  have hlt := h.total_lt
  have hle := h.threshold_le
  have hsum := foldl_addTruncated p.finalizers 0
  have hextend := toNat_signExtended (p.finalizers.foldl
    (fun acc f => (acc.toInt64.toUInt64 + f.weight).toUInt32.toInt32) 0)
  rw [hsum] at hextend
  have hzero : (0 : Int32).toBitVec.toNat = 0 := rfl
  have htotal : (p.finalizers.map fun f => f.weight.toNat).sum = p.totalWeight := rfl
  rw [LimitExact, maxWeakSumBeforeWeakFinal, UInt64.toNat_sub, hextend]
  split_ifs <;> omega

end FinalizerPolicy

variable {bls : BlsScheme} {p : FinalizerPolicy}

/-- The aggregation of a policy after a sequence of votes, with the limit the source computes. -/
def policyVotes (calls : List (VoteCall p bls)) : AggregatingQcSig bls :=
  calls.foldl applyCall (.ofPolicy bls p)

theorem policyVotes_eq (h : p.Valid) (hexact : p.LimitExact) (calls : List (VoteCall p bls)) :
    policyVotes calls = runVotes calls := by
  have hlimit : p.maxWeakSumBeforeWeakFinal = UInt64.ofNat (p.totalWeight - p.threshold.toNat) := by
    apply UInt64.toNat_inj.mp
    have hlt := h.total_lt
    rw [UInt64.toNat_ofNat_of_lt' (lt_of_le_of_lt (Nat.sub_le _ _) hlt)]
    rw [FinalizerPolicy.LimitExact] at hexact
    omega
  rw [policyVotes, runVotes, AggregatingQcSig.ofPolicy, hlimit]

theorem givesUpRightly_iff (hpolicy : p.Accepted) (calls : List (VoteCall p bls)) :
    (∀ pre, pre <+: calls → GivesUpRightly p (runVotes pre)) ↔
      ∀ pre call, pre ++ [call] <+: calls → ¬ ReachesLimit (runVotes pre) call := by
  constructor
  · intro h pre call hpre hlimit
    obtain ⟨ht, hquorum, hmax⟩ := runVotes_tally hpolicy.valid pre
    obtain ⟨hfinal, hreach⟩ := exists_reach_of_reachesLimit hpolicy.valid ht
      (by rw [hquorum]; exact hmax) hlimit
    rw [← runVotes_append] at hfinal hreach
    exact absurd (h _ hpre (Or.inr hfinal)) (Nat.not_lt.mpr hreach)
  · intro h pre hpre
    exact (quorumLaw_of_not_reachesLimit hpolicy h pre hpre).out_of_reach

/-- The limit is exact and a strong quorum is given up rightly after every vote of a sequence
exactly when the sum of the weights survives the accumulator and no vote reaches the limit. -/
theorem weakFinalLimit_iff (hpolicy : p.Accepted) (calls : List (VoteCall p bls)) :
    (p.LimitExact ∧ ∀ pre, pre <+: calls → GivesUpRightly p (policyVotes pre)) ↔
      (p.totalWeight < 2 ^ 31 ∨ 2 ^ 64 - 2 ^ 31 ≤ p.totalWeight) ∧
        ∀ pre call, pre ++ [call] <+: calls → ¬ ReachesLimit (policyVotes pre) call := by
  rw [← FinalizerPolicy.limitExact_iff hpolicy.valid]
  refine and_congr_right fun hexact => ?_
  simp only [policyVotes_eq hpolicy.valid hexact]
  exact givesUpRightly_iff hpolicy calls

theorem weakFinalLimit_five : fivePolicy.Accepted ∧ fivePolicy.LimitExact ∧
    ∀ pre, pre <+: [fiveCall false 0, fiveCall false 1, fiveCall false 2] →
      GivesUpRightly fivePolicy (policyVotes pre) := by
  refine ⟨fivePolicy_accepted, (weakFinalLimit_iff fivePolicy_accepted _).mpr
    ⟨by decide +kernel, ?_⟩⟩
  rintro pre call hpre ⟨hstate, -⟩
  have hmem := (mem_inits _ _).mpr ((prefix_append pre [call]).trans hpre)
  simp only [List.inits, map_cons, map_nil, mem_cons, not_mem_nil, or_false] at hmem
  rcases hmem with rfl | rfl | rfl | rfl <;> exact absurd hstate (by decide +kernel)

/-- Three finalizers of weight `2 ^ 30`: the sum of the weights is negative as an `int`. -/
def widePolicy : FinalizerPolicy :=
  ⟨1, 0x80000000, [0, 1, 2].map fun byte => ⟨"", 0x40000000, ⟨byte :: replicate 95 0⟩⟩⟩

theorem widePolicy_accepted : widePolicy.Accepted :=
  ⟨fun _ => true, false, 0,
    ⟨0x80000000, [0, 1, 2].map fun byte => ⟨"", 0x40000000, byte :: replicate 95 0⟩⟩,
    { widePolicy with generation := 0 }, by decide +kernel, rfl, rfl⟩

def wideCall (strong : Bool) (index : Fin 3) : VoteCall widePolicy .ideal :=
  ⟨strong, index, BlsScheme.ideal.zero⟩

/-- The limit of the wide policy should be `2 ^ 30`. It comes out so large that two weak
votes, after which no strong quorum is possible, do not make the state weak-final. With an
exact limit the comparison that is not strict still gives up too early. -/
theorem weakFinalLimit_fails :
    (widePolicy.Accepted ∧ ¬ widePolicy.LimitExact ∧ widePolicy.totalWeight = 3 * 2 ^ 30 ∧
      widePolicy.maxWeakSumBeforeWeakFinal.toNat = 2 ^ 64 - 3 * 2 ^ 30 ∧
      (policyVotes [wideCall false 0, wideCall false 1]).aggregatingState = .weakAchieved) ∧
    (fivePolicy.Accepted ∧ fivePolicy.LimitExact ∧ ¬ GivesUpRightly fivePolicy
      (policyVotes [fiveCall true 0, fiveCall true 1, fiveCall false 2, fiveCall false 3])) := by
  refine ⟨⟨widePolicy_accepted, by decide +kernel⟩, fivePolicy_accepted, by decide +kernel,
    fun h => ?_⟩
  exact absurd (h (by decide +kernel)) (by decide +kernel)

end FlonCore
