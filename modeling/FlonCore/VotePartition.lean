import FlonCore.VoteMetrics

/-!
# The vote metrics partition the finalizers

A finalizer of both policies has the same vote in both parts of a QC that passed
verification, so each key is in one of the three sets only. Its entry is the one
made for the active policy, whatever the pending policy would have recorded.
-/

namespace FlonCore
open Library List Option
open AggregatingQc KeyedSet
variable {bls : BlsScheme}

section Law

def FinalizerPolicy.keys (p : FinalizerPolicy) : List PublicKey :=
  p.finalizers.map FinalizerAuthority.publicKey

def QcVoteMetrics.entries (m : QcVoteMetrics) : List FinAuth :=
  m.strongVotes.entries ++ m.weakVotes.entries ++ m.missingVotes.entries

variable (a : AggregatingQc bls)

def AggregatingQc.finalizerKeys : List PublicKey :=
  a.activeFinalizerPolicy.keys ++ (a.pendingFinalizerPolicy.map FinalizerPolicy.keys).getD []

/-- The generation the comment on `fin_auth` asks for. -/
def AggregatingQc.generationOf (key : PublicKey) : ℕ :=
  match a.pendingFinalizerPolicy with
  | none => a.activeFinalizerPolicy.generation
  | some pending =>
    if key ∈ pending.keys then pending.generation else a.activeFinalizerPolicy.generation

structure MetricsLaw (qc : Qc bls) (m : QcVoteMetrics) : Prop where
  once : ∀ key ∈ a.finalizerKeys, (m.entries.map FinAuth.key).count key = 1
  generation : ∀ x ∈ m.entries, x.generation = a.generationOf x.key
  missing : a.missingVotes qc = some m.missingVotes

def FinalizerPolicy.VotedAs (p : FinalizerPolicy) (q : VoteBits) (key : PublicKey)
    (vote : Bool × Bool) : Prop :=
  ∃ i f, p.finalizers[i]? = some f ∧ f.publicKey = key ∧ q.voteAt i = vote

variable {p : FinalizerPolicy} {q : VoteBits} {key : PublicKey}

theorem exists_votedAs (h : key ∈ p.keys) : ∃ vote, p.VotedAs q key vote := by
  obtain ⟨f, hf, rfl⟩ := mem_map.mp h
  obtain ⟨i, hi⟩ := getElem?_of_mem hf
  exact ⟨_, i, f, hi, rfl, rfl⟩

theorem index_unique (hp : p.DistinctKeys) {i j : ℕ} {f g : FinalizerAuthority}
    (hf : p.finalizers[i]? = some f) (hg : p.finalizers[j]? = some g)
    (hkey : f.publicKey = g.publicKey) : i = j := by
  have hi : i < (p.finalizers.map FinalizerAuthority.publicKey).length := by
    rw [length_map]
    exact (List.getElem?_eq_some_iff.mp hf).1
  refine (getElem?_inj hi hp).mp ?_
  rw [getElem?_map, getElem?_map, hf, hg, map_some, map_some, hkey]

theorem FinalizerPolicy.VotedAs.unique (hp : p.DistinctKeys)
    {vote vote' : Bool × Bool} (h : p.VotedAs q key vote)
    (h' : p.VotedAs q key vote') : vote = vote' := by
  obtain ⟨i, f, hf, rfl, rfl⟩ := h
  obtain ⟨j, g, hg, hkey, rfl⟩ := h'
  rw [index_unique hp hf hg hkey.symm]

theorem mem_chosen_keys {choice : Bool × Bool → Bool} :
    key ∈ (p.chosen fun i => choice (q.voteAt i)).map FinAuth.key ↔
      ∃ vote, p.VotedAs q key vote ∧ choice vote = true := by
  simp only [List.mem_map, mem_chosen]
  constructor
  · rintro ⟨x, ⟨i, f, hf, hi, rfl⟩, rfl⟩
    exact ⟨_, ⟨i, f, hf, rfl, rfl⟩, hi⟩
  · rintro ⟨vote, ⟨i, f, hf, rfl, rfl⟩, hi⟩
    exact ⟨_, ⟨i, f, hf, hi, rfl⟩, rfl⟩

theorem chosen_cases {x : FinAuth} :
    (∃ f ∈ p.finalizers, x = ⟨f, p.generation⟩) ↔
      x ∈ p.chosen (fun i => (q.voteAt i).1) ∨ x ∈ p.chosen (fun i => (q.voteAt i).2) ∨
        x ∈ p.chosen (fun i => !((q.voteAt i).1 || (q.voteAt i).2)) := by
  constructor
  · rintro ⟨f, hf, rfl⟩
    obtain ⟨i, hi⟩ := getElem?_of_mem hf
    simp only [mem_chosen]
    cases hs : (q.voteAt i).1 with
    | true => exact .inl ⟨i, f, hi, hs, rfl⟩
    | false =>
      cases hw : (q.voteAt i).2 with
      | true => exact .inr (.inl ⟨i, f, hi, hw, rfl⟩)
      | false => exact .inr (.inr ⟨i, f, hi, by rw [hs, hw]; rfl, rfl⟩)
  · rintro (hx | hx | hx)
    all_goals
      obtain ⟨i, f, hf, -, rfl⟩ := mem_chosen.mp hx
      exact ⟨f, mem_of_getElem? hf, rfl⟩

end Law

variable {A P : FinalizerPolicy} {qA qP : VoteBits}

variable (A P)

structure PartsAgree (qA qP : VoteBits) : Prop where
  active_keys : A.DistinctKeys
  pending_keys : P.DistinctKeys
  active_single : ∀ i, qA.voteAt i ≠ (true, true)
  pending_single : ∀ i, qP.voteAt i ≠ (true, true)
  dual : ∀ i j, IsDual A P i j → qA.voteAt i = qP.voteAt j

def pairSet (qA qP : VoteBits) (choice : Bool × Bool → Bool) : FinAuthSet :=
  (empty.insertAll (A.chosen fun i => choice (qA.voteAt i))).insertAll
    (P.chosen fun i => choice (qP.voteAt i))

def pairMetrics (qA qP : VoteBits) : QcVoteMetrics :=
  ⟨pairSet A P qA qP Prod.fst, pairSet A P qA qP Prod.snd,
    pairSet A P qA qP fun vote => !(vote.1 || vote.2)⟩

variable {A P} {choice : Bool × Bool → Bool}

theorem mem_keys_pairSet {key : PublicKey} : key ∈ (pairSet A P qA qP choice).keys ↔
      ∃ vote, (A.VotedAs qA key vote ∨ P.VotedAs qP key vote) ∧ choice vote = true := by
  rw [pairSet, mem_keys_insertAll, mem_keys_insertAll, mem_chosen_keys, mem_chosen_keys, keys_empty]
  simp only [not_mem_nil, false_or, or_and_right, exists_or]

namespace PartsAgree

variable {key : PublicKey}

section
variable (h : PartsAgree A P qA qP)
include h

theorem vote_unique {vote vote' : Bool × Bool}
    (hvote : A.VotedAs qA key vote ∨ P.VotedAs qP key vote)
    (hvote' : A.VotedAs qA key vote' ∨ P.VotedAs qP key vote') : vote = vote' := by
  have hdual : ∀ {v v' : Bool × Bool}, A.VotedAs qA key v → P.VotedAs qP key v' → v = v' := by
    rintro v v' ⟨i, f, hf, rfl, rfl⟩ ⟨j, g, hg, hkey, rfl⟩
    exact h.dual i j ⟨f, g, hf, hg, hkey.symm⟩
  rcases hvote with hA | hP
  · rcases hvote' with hA' | hP'
    · exact hA.unique h.active_keys hA'
    · exact hdual hA hP'
  · rcases hvote' with hA' | hP'
    · exact (hdual hA' hP).symm
    · exact hP.unique h.pending_keys hP'

theorem count_pairSet {vote : Bool × Bool} (hvote : A.VotedAs qA key vote ∨ P.VotedAs qP key vote)
    (choice : Bool × Bool → Bool) :
    ((pairSet A P qA qP choice).entries.map FinAuth.key).count key =
      if choice vote then 1 else 0 := by
  rw [(pairSet A P qA qP choice).keys_nodup.count]
  refine if_congr ?_ rfl rfl
  refine mem_keys_pairSet.trans ⟨?_, fun hc => ⟨vote, hvote, hc⟩⟩
  rintro ⟨vote', hvote', hc⟩
  rwa [h.vote_unique hvote hvote']

theorem count_entries (hkey : key ∈ A.keys ++ P.keys) :
    ((pairMetrics A P qA qP).entries.map FinAuth.key).count key = 1 := by
  obtain ⟨vote, hvote⟩ : ∃ vote, A.VotedAs qA key vote ∨ P.VotedAs qP key vote := by
    rcases mem_append.mp hkey with hA | hP
    · obtain ⟨vote, hvote⟩ := exists_votedAs hA
      exact ⟨vote, .inl hvote⟩
    · obtain ⟨vote, hvote⟩ := exists_votedAs hP
      exact ⟨vote, .inr hvote⟩
  have hsingle : vote ≠ (true, true) := by
    rcases hvote with ⟨i, f, hf, rfl, rfl⟩ | ⟨i, f, hf, rfl, rfl⟩
    · exact h.active_single i
    · exact h.pending_single i
  rw [QcVoteMetrics.entries, map_append, map_append, count_append, count_append]
  simp only [pairMetrics, h.count_pairSet hvote]
  obtain ⟨_ | _, _ | _⟩ := vote
  all_goals first
    | rfl
    | exact absurd rfl hsingle

theorem mem_pairSet {x : FinAuth} : x ∈ (pairSet A P qA qP choice).entries ↔
      x ∈ A.chosen (fun i => choice (qA.voteAt i)) ∨
        (x ∈ P.chosen (fun i => choice (qP.voteAt i)) ∧ x.key ∉ A.keys) := by
  rw [pairSet, mem_insertAll (chosen_keys_nodup h.pending_keys _),
    mem_insertAll (chosen_keys_nodup h.active_keys _), mem_keys_insertAll,
    mem_chosen_keys]
  simp only [entries_empty, keys_empty, not_mem_nil, false_or, not_false_eq_true, and_true]
  refine or_congr_right (and_congr_right fun hx => not_congr ⟨?_, fun hkey => ?_⟩)
  · rintro ⟨vote, ⟨i, f, hf, hkey, -⟩, -⟩
    exact hkey ▸ mem_map_of_mem (mem_of_getElem? hf)
  · obtain ⟨j, g, hg, hchoice, rfl⟩ := mem_chosen.mp hx
    obtain ⟨vote, hvote⟩ := exists_votedAs hkey
    refine ⟨vote, hvote, ?_⟩
    rw [h.vote_unique (Or.inl hvote) (Or.inr ⟨j, g, hg, rfl, rfl⟩)]
    exact hchoice

theorem mem_entries {x : FinAuth} :
    x ∈ (pairMetrics A P qA qP).entries ↔
      (∃ f ∈ A.finalizers, x = ⟨f, A.generation⟩) ∨
        ((∃ f ∈ P.finalizers, x = ⟨f, P.generation⟩) ∧ x.key ∉ A.keys) := by
  rw [QcVoteMetrics.entries, mem_append, mem_append]
  simp only [pairMetrics, h.mem_pairSet]
  rw [chosen_cases, chosen_cases]
  tauto

/-- The generations are right exactly when finalizers of both policies do not tell the
policies apart. -/
theorem generation_iff :
    (∀ x ∈ (pairMetrics A P qA qP).entries,
      x.generation = if x.key ∈ P.keys then P.generation else A.generation) ↔
      ∀ i j, IsDual A P i j → P.generation = A.generation := by
  constructor
  · rintro hall i j ⟨f, g, hf, hg, hkey⟩
    have hx := hall ⟨f, A.generation⟩ (h.mem_entries.mpr (.inl ⟨f, mem_of_getElem? hf, rfl⟩))
    have hmem : (⟨f, A.generation⟩ : FinAuth).key ∈ P.keys :=
      mem_map.mpr ⟨g, mem_of_getElem? hg, hkey.symm⟩
    rw [if_pos hmem] at hx
    exact hx.symm
  · intro hdual x hx
    rcases h.mem_entries.mp hx with ⟨f, hf, rfl⟩ | ⟨⟨f, hf, rfl⟩, -⟩
    · split_ifs with hmem
      · obtain ⟨g, hg, hkey⟩ := mem_map.mp hmem
        obtain ⟨i, hi⟩ := getElem?_of_mem hf
        obtain ⟨j, hj⟩ := getElem?_of_mem hg
        exact (hdual i j ⟨f, g, hi, hj, hkey.symm⟩).symm
      · rfl
    · have hmem : (⟨f, P.generation⟩ : FinAuth).key ∈ P.keys := mem_map_of_mem hf
      rw [if_pos hmem]

end

end PartsAgree

variable {a : AggregatingQc bls} {qc : Qc bls} {strongDigest weakDigest : List UInt8}

theorem voteAt_ne_both {p : FinalizerPolicy} {q : VoteBits} (hf : q.verifyVoteFormat p = .ok ())
    (i : ℕ) : q.voteAt i ≠ (true, true) := by
  obtain ⟨-, -, -, hdisjoint⟩ := VoteBits.verifyVoteFormat_eq_ok.mp hf
  intro h
  rw [VoteBits.voteAt, Prod.mk.injEq] at h
  exact hdisjoint i h.1 h.2

def noPolicy : FinalizerPolicy := ⟨0, 0, []⟩

theorem metrics_of_pending_none (hactive : a.activeFinalizerPolicy.DistinctKeys)
    (hpending : a.pendingFinalizerPolicy = none)
    (hverify : a.verifyQc qc strongDigest weakDigest = .ok ()) :
    ∃ qA qP, PartsAgree a.activeFinalizerPolicy noPolicy qA qP ∧
      a.voteMetrics qc = some (pairMetrics a.activeFinalizerPolicy noPolicy qA qP) ∧
      a.missingVotes qc =
        some (pairMetrics a.activeFinalizerPolicy noPolicy qA qP).missingVotes := by
  obtain ⟨hf, -, -⟩ := verifyQc_eq_ok.mp hverify
  refine ⟨qc.activePolicySig.toVoteBits, ⟨none, none⟩, ⟨hactive, nodup_nil,
    voteAt_ne_both hf, fun _ => by simp [VoteBits.voteAt, VoteBits.strongAt], ?_⟩, ?_, ?_⟩
  · rintro i j ⟨f, g, -, hg, -⟩
    simp [noPolicy] at hg
  · rw [voteMetrics, hpending]
    exact congrArg some (addPolicyVotes_eq hf _)
  · rw [missingVotes, hpending]
    exact congrArg some (addNotVoted_eq hf _)

theorem metrics_of_pending_some (hactive : a.activeFinalizerPolicy.DistinctKeys)
    {P : FinalizerPolicy} (hpending : a.pendingFinalizerPolicy = some P) (hkeys : P.DistinctKeys)
    (hverify : a.verifyQc qc strongDigest weakDigest = .ok ()) :
    ∃ qA qP, PartsAgree a.activeFinalizerPolicy P qA qP ∧
      a.voteMetrics qc = some (pairMetrics a.activeFinalizerPolicy P qA qP) ∧
      a.missingVotes qc = some (pairMetrics a.activeFinalizerPolicy P qA qP).missingVotes := by
  obtain ⟨hf, -, hmatch⟩ := verifyQc_eq_ok.mp hverify
  rw [hpending] at hmatch
  obtain ⟨sig, hsig, hf', hdual, -⟩ := hmatch
  refine ⟨qc.activePolicySig.toVoteBits, sig.toVoteBits, ⟨hactive, hkeys, voteAt_ne_both hf,
    voteAt_ne_both hf', (verifyDualFinalizersVotes_eq_ok hkeys).mp hdual⟩, ?_, ?_⟩
  · rw [voteMetrics, hpending, hsig]
    refine congrArg some ((addPolicyVotes_eq hf' _).trans ?_)
    rw [addPolicyVotes_eq hf]
    rfl
  · rw [missingVotes, hpending, hsig]
    refine congrArg some ((addNotVoted_eq hf' _).trans ?_)
    rw [addNotVoted_eq hf]
    rfl

/-- For a QC that passed verification the metrics are defined and partition the finalizers;
the generations are right exactly when no finalizer is in both policies or these have the
same generation. -/
theorem metricsLaw_iff (hactive : a.activeFinalizerPolicy.DistinctKeys)
    (hkeys : ∀ P, a.pendingFinalizerPolicy = some P → P.DistinctKeys)
    (hverify : a.verifyQc qc strongDigest weakDigest = .ok ()) :
    (∃ m, a.voteMetrics qc = some m ∧ MetricsLaw a qc m) ↔
      ∀ P i j, a.pendingFinalizerPolicy = some P → IsDual a.activeFinalizerPolicy P i j →
        P.generation = a.activeFinalizerPolicy.generation := by
  cases hpending : a.pendingFinalizerPolicy with
  | none =>
    obtain ⟨qA, qP, hagree, hmetrics, hmissing⟩ :=
      metrics_of_pending_none hactive hpending hverify
    refine ⟨fun _ P i j hP => (nomatch hP), fun _ => ⟨_, hmetrics, ?_, ?_, hmissing⟩⟩
    · intro key hkey
      rw [finalizerKeys, hpending] at hkey
      exact hagree.count_entries hkey
    · intro x hx
      rw [generationOf, hpending]
      exact hagree.generation_iff.mpr (by rintro i j ⟨f, g, -, hg, -⟩; simp [noPolicy] at hg) x hx
  | some P =>
    obtain ⟨qA, qP, hagree, hmetrics, hmissing⟩ :=
      metrics_of_pending_some hactive hpending (hkeys P hpending) hverify
    have hgeneration : ∀ x : FinAuth, a.generationOf x.key =
        if x.key ∈ P.keys then P.generation else a.activeFinalizerPolicy.generation := by
      intro x
      rw [generationOf, hpending]
    constructor
    · rintro ⟨m, hm, hlaw⟩ P' i j ⟨⟩ hdual
      cases hmetrics.symm.trans hm
      exact hagree.generation_iff.mp
        (fun x hx => (hlaw.generation x hx).trans (hgeneration x)) i j hdual
    · intro hdual
      refine ⟨_, hmetrics, ?_, fun x hx => ?_, hmissing⟩
      · intro key hkey
        rw [finalizerKeys, hpending] at hkey
        exact hagree.count_entries hkey
      · rw [hgeneration]
        exact hagree.generation_iff.mpr (fun i j => hdual P i j rfl) x hx

def signedVotesOf (p : FinalizerPolicy) (q : VoteBits) : QcSig .ideal :=
  ⟨q, (((QcSig.mk q BlsScheme.ideal.zero : QcSig .ideal).signedGroups p [1] [0]).map
    fun g => (g.1.map fun key => (key, g.2) : Multiset (PublicKey × List UInt8))).sum⟩

def mixedQc (active pending : FinalizerPolicy) : Qc .ideal :=
  ⟨5, signedVotesOf active ⟨some [true, true, false], none⟩,
    some (signedVotesOf pending ⟨none, some [true, true]⟩)⟩

theorem metricsLaw_disjoint : ∃ m,
    (construct .ideal (unitPolicy 1 2 [0, 1, 2])
      (some (unitPolicy 2 2 [3, 4]))).voteMetrics
        (mixedQc (unitPolicy 1 2 [0, 1, 2]) (unitPolicy 2 2 [3, 4])) = some m ∧
    MetricsLaw (construct .ideal (unitPolicy 1 2 [0, 1, 2])
      (some (unitPolicy 2 2 [3, 4])))
        (mixedQc (unitPolicy 1 2 [0, 1, 2]) (unitPolicy 2 2 [3, 4])) m := by
  have hverify : (construct .ideal (unitPolicy 1 2 [0, 1, 2])
      (some (unitPolicy 2 2 [3, 4]))).verifyQc
        (mixedQc (unitPolicy 1 2 [0, 1, 2]) (unitPolicy 2 2 [3, 4])) [1] [0] = .ok () := by
    decide +kernel
  have hdisjoint : ∀ f ∈ (unitPolicy 1 2 [0, 1, 2]).finalizers,
      ∀ g ∈ (unitPolicy 2 2 [3, 4]).finalizers, f.publicKey ≠ g.publicKey := by
    decide +kernel
  refine (metricsLaw_iff (by decide +kernel) ?_ hverify).mpr ?_
  · rintro P ⟨⟩
    decide +kernel
  · rintro P i j ⟨⟩ ⟨f, g, hf, hg, hkey⟩
    exact absurd hkey (hdisjoint f (mem_of_getElem? hf) g (mem_of_getElem? hg))

def strongQc (active pending : FinalizerPolicy) : Qc .ideal :=
  ⟨5, signedVotesOf active ⟨some [true, true, true], none⟩,
    some (signedVotesOf pending ⟨some [true, true], none⟩)⟩

/-- The finalizer with byte 2 is in the pending policy of generation 2 too, but keeps the
entry that was made for the active policy. -/
theorem overlap_keeps_active_generation :
    (construct .ideal (unitPolicy 1 2 [0, 1, 2])
      (some (unitPolicy 2 2 [2, 3]))).verifyQc
        (strongQc (unitPolicy 1 2 [0, 1, 2]) (unitPolicy 2 2 [2, 3])) [1] [0] = .ok () ∧
    ((construct .ideal (unitPolicy 1 2 [0, 1, 2])
      (some (unitPolicy 2 2 [2, 3]))).voteMetrics
        (strongQc (unitPolicy 1 2 [0, 1, 2]) (unitPolicy 2 2 [2, 3]))).map
          (fun m => m.strongVotes.entries.map fun x => (x.key.bytes.head?, x.generation)) =
      some [(some 0, 1), (some 1, 1), (some 2, 1), (some 3, 2)] ∧
    ¬ ∃ m, (construct .ideal (unitPolicy 1 2 [0, 1, 2])
      (some (unitPolicy 2 2 [2, 3]))).voteMetrics
        (strongQc (unitPolicy 1 2 [0, 1, 2]) (unitPolicy 2 2 [2, 3])) = some m ∧
      MetricsLaw (construct .ideal (unitPolicy 1 2 [0, 1, 2])
        (some (unitPolicy 2 2 [2, 3])))
          (strongQc (unitPolicy 1 2 [0, 1, 2]) (unitPolicy 2 2 [2, 3])) m := by
  refine ⟨by decide +kernel, by decide +kernel, ?_⟩
  rintro ⟨m, hm, hlaw⟩
  have hwrong : ((construct .ideal (unitPolicy 1 2 [0, 1, 2])
      (some (unitPolicy 2 2 [2, 3]))).voteMetrics
        (strongQc (unitPolicy 1 2 [0, 1, 2]) (unitPolicy 2 2 [2, 3]))).map
          (fun m => decide (∀ x ∈ m.entries, x.generation = (construct .ideal
            (unitPolicy 1 2 [0, 1, 2]) (some (unitPolicy 2 2 [2, 3]))).generationOf x.key)) =
      some false := by
    decide +kernel
  rw [hm, map_some, Option.some.injEq, decide_eq_false_iff_not] at hwrong
  exact hwrong hlaw.generation

end FlonCore
