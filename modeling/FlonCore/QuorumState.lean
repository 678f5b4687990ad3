import FlonCore.AggregatingQcSig

/-!
# The state of the aggregation as a function of the votes

The comments of the source give each of the five states a meaning in terms of
the votes received: whether a quorum is met, and whether a strong quorum can
still be reached. `StateFits` spells the meaning out in the accumulated weights.
Every transition keeps it except one: in state weak-achieved a weak vote that
makes the weak weight equal to the limit already gives up on a strong quorum.
-/

namespace FlonCore
open Library List UInt64
variable {bls : BlsScheme}

namespace AggregatingState

/-- The meaning of the states, `total` being the weight of all finalizers. -/
def StateFits (s : AggregatingState) (quorum total strongSum weakSum : ℕ) : Prop :=
  match s with
  | unrestricted => strongSum + weakSum < quorum ∧ weakSum + quorum ≤ total
  | restricted => strongSum + weakSum < quorum ∧ total < weakSum + quorum
  | weakAchieved => strongSum < quorum ∧ quorum ≤ strongSum + weakSum ∧ weakSum + quorum ≤ total
  | weakFinal => quorum ≤ strongSum + weakSum ∧ total < weakSum + quorum
  | strong => quorum ≤ strongSum

variable {s : AggregatingState}

theorem afterStrong_fits {quorum strongSum weakSum : UInt64}
    {total before : ℕ} (h : s.StateFits quorum.toNat total before weakSum.toNat)
    (hle : before ≤ strongSum.toNat) (hsum : strongSum.toNat + weakSum.toNat ≤ total)
    (htotal : total < 2 ^ 64) :
    (s.afterStrong quorum strongSum weakSum).StateFits quorum.toNat total strongSum.toNat
      weakSum.toNat := by
  have hadd : (weakSum + strongSum).toNat = weakSum.toNat + strongSum.toNat := by
    rw [UInt64.toNat_add, Nat.mod_eq_of_lt (by omega)]
  cases s with
  | unrestricted =>
    obtain ⟨hlt, hroom⟩ := h
    simp only [afterStrong, le_iff_toNat_le, hadd, reduceCtorEq, if_false]
    split_ifs with hstrong hweak
    · exact hstrong
    · exact ⟨by omega, by omega, hroom⟩
    · exact ⟨by omega, hroom⟩
  | restricted =>
    obtain ⟨hlt, hout⟩ := h
    simp only [afterStrong, le_iff_toNat_le, hadd, if_true]
    split_ifs with hstrong hweak
    · exact hstrong
    · exact ⟨by omega, hout⟩
    · exact ⟨by omega, hout⟩
  | weakAchieved =>
    obtain ⟨hlt, hquorum, hroom⟩ := h
    simp only [afterStrong, le_iff_toNat_le]
    split_ifs with hstrong
    · exact hstrong
    · exact ⟨by omega, by omega, hroom⟩
  | weakFinal =>
    simp only [afterStrong, StateFits] at h ⊢
    omega
  | strong =>
    simp only [afterStrong, StateFits] at h ⊢
    omega

theorem afterWeak_fits {quorum maxWeakSum strongSum weakSum : UInt64}
    {total before : ℕ} (h : s.StateFits quorum.toNat total strongSum.toNat before)
    (hmax : maxWeakSum.toNat + quorum.toNat = total) (hle : before ≤ weakSum.toNat)
    (hsum : strongSum.toNat + weakSum.toNat ≤ total) (htotal : total < 2 ^ 64)
    (hloose : s = weakAchieved → weakSum.toNat ≠ maxWeakSum.toNat) :
    (s.afterWeak quorum maxWeakSum strongSum weakSum).StateFits quorum.toNat total
      strongSum.toNat weakSum.toNat := by
  have hadd : (weakSum + strongSum).toNat = weakSum.toNat + strongSum.toNat := by
    rw [UInt64.toNat_add, Nat.mod_eq_of_lt (by omega)]
  cases s with
  | unrestricted =>
    obtain ⟨hlt, hroom⟩ := h
    simp only [afterWeak, le_iff_toNat_le, lt_iff_toNat_lt, hadd]
    by_cases hquorum : quorum.toNat ≤ weakSum.toNat + strongSum.toNat
    · simp only [if_pos hquorum, if_true]
      split_ifs with hout
      · exact ⟨by omega, by omega⟩
      · exact ⟨by omega, by omega, by omega⟩
    · simp only [if_neg hquorum, reduceCtorEq, if_false, if_true]
      split_ifs with hout
      · exact ⟨by omega, by omega⟩
      · exact ⟨by omega, by omega⟩
  | restricted =>
    obtain ⟨hlt, hbefore⟩ := h
    have hout : maxWeakSum.toNat < weakSum.toNat := by omega
    simp only [afterWeak, le_iff_toNat_le, lt_iff_toNat_lt, hadd, if_pos hout]
    by_cases hquorum : quorum.toNat ≤ weakSum.toNat + strongSum.toNat
    · simp only [if_pos hquorum, if_true]
      exact ⟨by omega, by omega⟩
    · simp only [if_neg hquorum, reduceCtorEq, if_false]
      exact ⟨by omega, by omega⟩
  | weakAchieved =>
    obtain ⟨hlt, hquorum, hroom⟩ := h
    have hne := hloose rfl
    simp only [afterWeak, le_iff_toNat_le]
    split_ifs with hlimit
    · exact ⟨by omega, by omega⟩
    · exact ⟨hlt, by omega, by omega⟩
  | weakFinal =>
    simp only [afterWeak, StateFits] at h ⊢
    omega
  | strong => exact h

theorem StateFits.law {quorum total strongSum weakSum : ℕ}
    (h : s.StateFits quorum total strongSum weakSum) (hle : strongSum + weakSum ≤ total) :
    (s.isQuorumMet = true ↔ quorum ≤ strongSum + weakSum) ∧ (s = strong ↔ quorum ≤ strongSum) ∧
      (s = restricted ∨ s = weakFinal → total < weakSum + quorum) := by
  cases s <;> simp [isQuorumMet, StateFits] at h ⊢ <;> omega

end AggregatingState

/-- A strong quorum is given up only when the finalizers that have not voted cannot complete
one. -/
def GivesUpRightly (p : FinalizerPolicy) (a : AggregatingQcSig bls) : Prop :=
  a.aggregatingState = .restricted ∨ a.aggregatingState = .weakFinal →
    a.strongSum.toNat + notVotedWeight p a < a.quorum.toNat

structure QuorumLaw (p : FinalizerPolicy) (a : AggregatingQcSig bls) : Prop where
  quorum_met : a.isQuorumMet = true ↔ a.quorum.toNat ≤ a.strongSum.toNat + a.weakSum.toNat
  strong_iff : a.aggregatingState = .strong ↔ a.quorum.toNat ≤ a.strongSum.toNat
  out_of_reach : GivesUpRightly p a

variable {a : AggregatingQcSig bls}

theorem quorumLaw_of_fits {p : FinalizerPolicy} (ht : Tally p a)
    (h : a.aggregatingState.StateFits a.quorum.toNat p.totalWeight a.strongSum.toNat
      a.weakSum.toNat) : QuorumLaw p a := by
  have hsum := sum_voted ht
  obtain ⟨hmet, hstrong, hout⟩ := h.law (by omega)
  exact ⟨hmet, hstrong, fun hs => by have := hout hs; omega⟩

section Run
variable (p : FinalizerPolicy)

/-- One call of `add_vote` with the finalizer's index and its weight in the policy. -/
structure VoteCall (bls : BlsScheme) where
  strong : Bool
  index : Fin p.finalizers.length
  sig : bls.Sig

variable {p}

def VoteCall.weight (call : VoteCall p bls) : UInt64 := (p.finalizers.get call.index).weight

def applyCall (a : AggregatingQcSig bls) (call : VoteCall p bls) : AggregatingQcSig bls :=
  (a.addVote call.strong call.index call.sig call.weight).2

def runVotes (calls : List (VoteCall p bls)) : AggregatingQcSig bls :=
  calls.foldl applyCall (.construct bls p.finalizers.length p.threshold
    (UInt64.ofNat (p.totalWeight - p.threshold.toNat)))

def ReachesLimit (a : AggregatingQcSig bls) (call : VoteCall p bls) : Prop :=
  a.aggregatingState = .weakAchieved ∧ call.strong = false ∧ a.Fresh call.index ∧
    a.weakSum.toNat + call.weight.toNat = a.maxWeakSumBeforeWeakFinal.toNat

theorem runVotes_append (calls : List (VoteCall p bls)) (call : VoteCall p bls) :
    runVotes (calls ++ [call]) = applyCall (runVotes calls) call := by
  simp [runVotes]

theorem applyCall_limits (a : AggregatingQcSig bls) (call : VoteCall p bls) :
    (applyCall a call).quorum = a.quorum ∧
      (applyCall a call).maxWeakSumBeforeWeakFinal = a.maxWeakSumBeforeWeakFinal := by
  unfold applyCall
  by_cases hfresh : a.Fresh call.index
  · rw [addVote_of_fresh hfresh]
    cases call.strong <;> exact ⟨rfl, rfl⟩
  · rw [addVote_of_not_fresh hfresh]
    exact ⟨rfl, rfl⟩

theorem runVotes_tally (hp : p.Valid) (calls : List (VoteCall p bls)) :
    Tally p (runVotes calls) ∧ (runVotes calls).quorum = p.threshold ∧
      (runVotes calls).maxWeakSumBeforeWeakFinal.toNat + p.threshold.toNat = p.totalWeight := by
  induction calls using List.reverseRecOn with
  | nil =>
    refine ⟨tally_construct p _ _, rfl, ?_⟩
    have hlt := hp.total_lt
    have hle := hp.threshold_le
    change (UInt64.ofNat (p.totalWeight - p.threshold.toNat)).toNat + _ = _
    rw [toNat_ofNat_of_lt' (lt_of_le_of_lt (Nat.sub_le _ _) hlt)]
    omega
  | append_singleton calls call ih =>
    obtain ⟨htally, hquorum, hmax⟩ := ih
    obtain ⟨hq, hm⟩ := applyCall_limits (runVotes calls) call
    rw [runVotes_append, hq, hm]
    exact ⟨tally_addVote hp htally (getElem?_eq_getElem call.index.2) _ _, hquorum, hmax⟩

theorem applyCall_fits (hp : p.Valid) (ht : Tally p a)
    (hmax : a.maxWeakSumBeforeWeakFinal.toNat + a.quorum.toNat = p.totalWeight)
    (h : a.aggregatingState.StateFits a.quorum.toNat p.totalWeight a.strongSum.toNat
      a.weakSum.toNat) {call : VoteCall p bls} (hcall : ¬ ReachesLimit a call) :
    (applyCall a call).aggregatingState.StateFits a.quorum.toNat p.totalWeight
      (applyCall a call).strongSum.toNat (applyCall a call).weakSum.toNat := by
  have hf : p.finalizers[call.index.val]? = some (p.finalizers.get call.index) :=
    getElem?_eq_getElem call.index.2
  have hsum := sum_voted (tally_addVote hp ht hf call.strong call.sig)
  unfold applyCall
  by_cases hfresh : a.Fresh call.index
  · have hs := VotesT.getElem?_of_bitAt (ht.strong_length.symm ▸ call.index.2) hfresh.1
    have hw := VotesT.getElem?_of_bitAt (ht.weak_length.symm ▸ call.index.2) hfresh.2
    rw [addVote_of_fresh hfresh] at hsum ⊢
    cases hstrong : call.strong with
    | true =>
      rw [hstrong] at hsum
      have hadd := (toNat_add_weight hp hf hs ht.strong_sum).1
      exact AggregatingState.afterStrong_fits h (Nat.le.intro hadd.symm) (Nat.le.intro hsum)
        hp.total_lt
    | false =>
      rw [hstrong] at hsum
      have hadd := (toNat_add_weight hp hf hw ht.weak_sum).1
      refine AggregatingState.afterWeak_fits h hmax (Nat.le.intro hadd.symm)
        (Nat.le.intro hsum) hp.total_lt fun hstate heq => ?_
      exact hcall ⟨hstate, hstrong, hfresh, hadd.symm.trans heq⟩
  · rw [addVote_of_not_fresh hfresh]
    exact h

theorem exists_reach_of_reachesLimit (hp : p.Valid) (ht : Tally p a)
    (hmax : a.maxWeakSumBeforeWeakFinal.toNat + a.quorum.toNat = p.totalWeight)
    {call : VoteCall p bls} (hcall : ReachesLimit a call) :
    (applyCall a call).aggregatingState = .weakFinal ∧ (applyCall a call).quorum.toNat ≤
      (applyCall a call).strongSum.toNat + notVotedWeight p (applyCall a call) := by
  obtain ⟨hstate, hstrong, hfresh, hlimit⟩ := hcall
  have hf : p.finalizers[call.index.val]? = some (p.finalizers.get call.index) :=
    getElem?_eq_getElem call.index.2
  have hw := VotesT.getElem?_of_bitAt (ht.weak_length.symm ▸ call.index.2) hfresh.2
  have hadd : (a.weakSum + call.weight).toNat = a.weakSum.toNat + call.weight.toNat :=
    (toNat_add_weight hp hf hw ht.weak_sum).1
  have ht' : Tally p (applyCall a call) := tally_addVote hp ht hf call.strong call.sig
  have happly : applyCall a call = a.addWeakVote call.index call.sig call.weight := by
    rw [applyCall, addVote_of_fresh hfresh, hstrong]
    rfl
  rw [happly] at ht' ⊢
  constructor
  · simp only [AggregatingQcSig.addWeakVote, hstate, AggregatingState.afterWeak]
    rw [if_pos]
    rw [le_iff_toNat_le, hadd, hlimit]
  · have hsum := sum_voted ht'
    have hquorum : (a.addWeakVote call.index call.sig call.weight).quorum = a.quorum := rfl
    have hweak : (a.addWeakVote call.index call.sig call.weight).weakSum.toNat =
        a.maxWeakSumBeforeWeakFinal.toNat := hadd.trans hlimit
    rw [hquorum]
    omega

theorem quorumLaw_of_not_reachesLimit (hpolicy : p.Accepted) {calls : List (VoteCall p bls)}
    (h : ∀ pre call, pre ++ [call] <+: calls → ¬ ReachesLimit (runVotes pre) call)
    (pre : List (VoteCall p bls)) (hpre : pre <+: calls) : QuorumLaw p (runVotes pre) := by
  have hp := hpolicy.valid
  suffices hfits : (runVotes pre).aggregatingState.StateFits p.threshold.toNat p.totalWeight
      (runVotes pre).strongSum.toNat (runVotes pre).weakSum.toNat by
    obtain ⟨ht, hquorum, -⟩ := runVotes_tally hp pre
    refine quorumLaw_of_fits ht ?_
    rw [hquorum]
    exact hfits
  induction pre using List.reverseRecOn with
  | nil =>
    have hmajority := hp.majority
    have hle := hp.threshold_le
    change (0 : ℕ) + 0 < _ ∧ 0 + _ ≤ _
    omega
  | append_singleton pre call ih =>
    obtain ⟨ht, hquorum, hmax⟩ := runVotes_tally hp pre
    have hstep := applyCall_fits hp ht (by rw [hquorum]; exact hmax)
      (by rw [hquorum]; exact ih ((prefix_append pre [call]).trans hpre)) (h pre call hpre)
    rw [runVotes_append]
    rwa [hquorum] at hstep

/-- The law holds after every vote of a sequence exactly when no vote of it reaches the
limit. -/
theorem quorumLaw_iff (hpolicy : p.Accepted) (calls : List (VoteCall p bls)) :
    (∀ pre, pre <+: calls → QuorumLaw p (runVotes pre)) ↔
      ∀ pre call, pre ++ [call] <+: calls → ¬ ReachesLimit (runVotes pre) call := by
  have hp := hpolicy.valid
  refine ⟨?_, quorumLaw_of_not_reachesLimit hpolicy⟩
  intro h pre call hpre hlimit
  obtain ⟨ht, hquorum, hmax⟩ := runVotes_tally hp pre
  obtain ⟨hfinal, hreach⟩ :=
    exists_reach_of_reachesLimit hp ht (by rw [hquorum]; exact hmax) hlimit
  rw [← runVotes_append] at hfinal hreach
  exact absurd ((h _ hpre).out_of_reach (Or.inr hfinal)) (Nat.not_lt.mpr hreach)

end Run

def fivePolicy : FinalizerPolicy := unitPolicy 1 3 [0, 1, 2, 3, 4]

theorem fivePolicy_accepted : fivePolicy.Accepted := unitPolicy_accepted (by decide +kernel)

def fiveCall (strong : Bool) (index : Fin 5) : VoteCall fivePolicy .ideal :=
  ⟨strong, index, BlsScheme.ideal.zero⟩

theorem quorumLaw_three_strong :
    fivePolicy.Accepted ∧ ∀ pre, pre <+: [fiveCall true 0, fiveCall true 1, fiveCall true 2] →
      QuorumLaw fivePolicy (runVotes pre) := by
  refine ⟨fivePolicy_accepted, (quorumLaw_iff fivePolicy_accepted _).mpr ?_⟩
  rintro pre call hpre ⟨-, hweak, -⟩
  have hmem := hpre.subset (mem_append_right pre (mem_singleton_self call))
  simp only [mem_cons, not_mem_nil, or_false] at hmem
  rcases hmem with rfl | rfl | rfl <;> cases hweak

/-- Two strong and two weak votes end in weak-final although the fifth finalizer can still
complete a strong quorum, and the state stays there when it does. -/
theorem not_quorumLaw_five :
    ¬ QuorumLaw fivePolicy (runVotes [fiveCall true 0, fiveCall true 1, fiveCall false 2,
      fiveCall false 3]) ∧
    ¬ QuorumLaw fivePolicy (runVotes [fiveCall true 0, fiveCall true 1, fiveCall false 2,
      fiveCall false 3, fiveCall true 4]) := by
  constructor
  · intro h
    exact absurd (h.out_of_reach (by decide +kernel)) (by decide +kernel)
  · intro h
    exact absurd (h.strong_iff.mpr (by decide +kernel)) (by decide +kernel)

end FlonCore
