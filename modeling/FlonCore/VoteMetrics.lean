import FlonCore.DualFinalizers
import FlonCore.Library.KeyedSet

/-!
# Vote metrics of a QC

For each QC a node reports which finalizers voted strong, voted weak or did not
vote, each with the generation of its policy. The three sets are filled from the
active policy first and from the pending one after it, and a set keeps the first
entry of a key.
-/

namespace FlonCore
open Library List
open FinalizerPolicy VoteBits
variable {bls : BlsScheme}

structure FinAuth where
  finAuth : FinalizerAuthority
  generation : ℕ
deriving DecidableEq, Repr

/-- The comparison of the sets, `fin_auth_less`, looks at the public key. -/
def FinAuth.key (x : FinAuth) : PublicKey := x.finAuth.publicKey

abbrev FinAuthSet := KeyedSet FinAuth.key

structure QcVoteMetrics where
  (strongVotes weakVotes missingVotes : FinAuthSet)

namespace FinalizerPolicy

variable (p : FinalizerPolicy)

/-- The lambda `add_votes`: how many bits are set, and the set with their finalizers. -/
def addVotes (votes : List Bool) (results : FinAuthSet) : ℕ × FinAuthSet :=
  (p.finalizers.zip votes).foldl (fun acc vote =>
    if vote.2 then (acc.1 + 1, acc.2.insert ⟨vote.1, p.generation⟩) else acc) (0, results)

/-- The votes of a vector that may be absent. The count of a vector that is there replaces
the count so far. -/
def addVotesIfPresent (votes : Option (List Bool)) (added : ℕ)
    (results : FinAuthSet) : ℕ × FinAuthSet :=
  match votes with
  | none => (added, results)
  | some bits => p.addVotes bits results

/-- The vector `not_voted` before it is flipped. -/
def voted (q : VoteBits) : List Bool :=
  let strong := q.strongVotes.getD (List.replicate p.finalizers.length false)
  match q.weakVotes with
  | none => strong
  | some weak => List.zipWith or strong weak

/-- The lambda `add_policy_votes`. -/
def addPolicyVotes (q : VoteBits) (result : QcVoteMetrics) : QcVoteMetrics :=
  let strong := p.addVotesIfPresent q.strongVotes 0 result.strongVotes
  let weak := p.addVotesIfPresent q.weakVotes strong.1 result.weakVotes
  ⟨strong.2, weak.2,
    if weak.1 = p.finalizers.length then result.missingVotes
    else (p.addVotes ((p.voted q).map not) result.missingVotes).2⟩

/-- The loop of `add_not_voted` over one vector, with the other vector, if any, at hand. -/
def addNotVotedIn (votes : List Bool) (otherVotes : Option (List Bool))
    (notVoted : FinAuthSet) : FinAuthSet :=
  let checkOther := fun i : ℕ => (otherVotes.bind fun bits => bits[i]?).getD false
  (p.finalizers.zip votes).zipIdx.foldl (fun set vote =>
    if !vote.1.2 && !checkOther vote.2 then set.insert ⟨vote.1.1, p.generation⟩ else set) notVoted

/-- The lambda `add_not_voted` of `missing_votes`. -/
def addNotVoted (q : VoteBits) (notVoted : FinAuthSet) : FinAuthSet :=
  match q.strongVotes with
  | some strong => p.addNotVotedIn strong q.weakVotes notVoted
  | none => p.addNotVotedIn (q.weakVotes.getD []) q.strongVotes notVoted

end FinalizerPolicy

namespace AggregatingQc

/-- Reading the pending part of a QC that has none is undefined. -/
def voteMetrics (a : AggregatingQc bls) (qc : Qc bls) : Option QcVoteMetrics :=
  let active := a.activeFinalizerPolicy.addPolicyVotes qc.activePolicySig.toVoteBits
    ⟨.empty, .empty, .empty⟩
  match a.pendingFinalizerPolicy with
  | none => some active
  | some pending => qc.pendingPolicySig.map fun sig => pending.addPolicyVotes sig.toVoteBits active

def missingVotes (a : AggregatingQc bls) (qc : Qc bls) : Option FinAuthSet :=
  let active := a.activeFinalizerPolicy.addNotVoted qc.activePolicySig.toVoteBits .empty
  match a.pendingFinalizerPolicy with
  | none => some active
  | some pending => qc.pendingPolicySig.map fun sig => pending.addNotVoted sig.toVoteBits active

end AggregatingQc

variable {p : FinalizerPolicy}

def FinalizerPolicy.chosen (p : FinalizerPolicy) (choice : ℕ → Bool) : List FinAuth :=
  (p.finalizers.zipIdx.filter fun f => choice f.2).map fun f => ⟨f.1, p.generation⟩

theorem mem_chosen {choice : ℕ → Bool} {x : FinAuth} :
    x ∈ p.chosen choice ↔ ∃ i f, p.finalizers[i]? = some f ∧ choice i = true ∧
      x = ⟨f, p.generation⟩ := by
  simp only [chosen, mem_map, mem_filter, Prod.exists, mem_zipIdx_iff_getElem?]
  constructor
  · rintro ⟨f, i, ⟨hf, hi⟩, rfl⟩
    exact ⟨i, f, hf, hi, rfl⟩
  · rintro ⟨i, f, hf, hi, rfl⟩
    exact ⟨f, i, ⟨hf, hi⟩, rfl⟩

theorem chosen_keys_nodup (hp : p.DistinctKeys) (choice : ℕ → Bool) :
    ((p.chosen choice).map FinAuth.key).Nodup := by
  have hsub : ((p.chosen choice).map FinAuth.key).Sublist
      (p.finalizers.map FinalizerAuthority.publicKey) := by
    have hall := (filter_sublist (p := fun f : FinalizerAuthority × ℕ => choice f.2)
      (l := p.finalizers.zipIdx)).map fun f => f.1.publicKey
    rw [chosen, map_map]
    refine hall.trans ?_
    rw [← Function.comp_def FinalizerAuthority.publicKey Prod.fst, ← map_map, zipIdx_map_fst]
  exact hp.sublist hsub

variable {votes : List Bool}

theorem zip_votes (h : votes.length = p.finalizers.length) :
    p.finalizers.zip votes = p.finalizers.zipIdx.map fun f => (f.1, votes[f.2]?.getD false) := by
  refine ext_getElem (by simp [h]) fun i hi hi' => ?_
  simp only [length_zip, h, min_self] at hi
  simp [h, hi]

theorem insertAll_chosen (choice : ℕ → Bool) (s : FinAuthSet) :
    s.insertAll (p.chosen choice) = p.finalizers.zipIdx.foldl (fun s f =>
      if choice f.2 then s.insert ⟨f.1, p.generation⟩ else s) s := by
  rw [chosen, KeyedSet.insertAll, foldl_map, foldl_filter]

theorem foldl_count_insert (choice : ℕ → Bool) (l : List (FinalizerAuthority × ℕ)) (n : ℕ)
    (s : FinAuthSet) : l.foldl (fun (acc : ℕ × FinAuthSet) f =>
      if choice f.2 then (acc.1 + 1, acc.2.insert ⟨f.1, p.generation⟩) else acc) (n, s) =
      (n + l.countP (fun f => choice f.2), l.foldl (fun s f =>
        if choice f.2 then s.insert ⟨f.1, p.generation⟩ else s) s) := by
  induction l generalizing n s with
  | nil => simp
  | cons f l ih =>
    rw [foldl_cons, foldl_cons, countP_cons]
    cases choice f.2 with
    | false =>
      simp only [Bool.false_eq_true, if_false]
      rw [ih, Nat.add_zero]
    | true =>
      simp only [if_true]
      rw [ih, Nat.add_assoc, Nat.add_comm 1]

theorem addVotes_eq (h : votes.length = p.finalizers.length)
    (s : FinAuthSet) :
    p.addVotes votes s =
      (p.finalizers.zipIdx.countP (fun f => votes[f.2]?.getD false),
        s.insertAll (p.chosen fun i => votes[i]?.getD false)) := by
  rw [addVotes, zip_votes h, foldl_map, insertAll_chosen]
  have hfold := foldl_count_insert (p := p) (fun i => votes[i]?.getD false) p.finalizers.zipIdx 0 s
  rw [Nat.zero_add] at hfold
  exact hfold

def VoteBits.missingAt (q : VoteBits) (i : ℕ) : Bool := !(q.strongAt i || q.weakAt i)

variable {q : VoteBits}

theorem chosen_missing_eq_nil (voted : ℕ → Bool)
    (hvoted : ∀ i, voted i = true → q.missingAt i = false)
    (hall : p.finalizers.zipIdx.countP (fun f => voted f.2) = p.finalizers.length) :
    p.chosen q.missingAt = [] := by
  have hlength : p.finalizers.length = p.finalizers.zipIdx.length := by simp
  rw [hlength, countP_eq_length] at hall
  rw [chosen, map_eq_nil_iff, filter_eq_nil_iff]
  intro f hf
  rw [hvoted _ (hall f hf)]
  exact Bool.false_ne_true

theorem chosen_congr {choice choice' : ℕ → Bool}
    (h : ∀ i, i < p.finalizers.length → choice i = choice' i) :
    p.chosen choice = p.chosen choice' := by
  rw [chosen, chosen]
  congr 1
  refine filter_congr fun f hf => ?_
  obtain ⟨hi, -⟩ := List.getElem?_eq_some_iff.mp (mem_zipIdx_iff_getElem?.mp hf)
  exact h f.2 hi

theorem chosen_none : p.chosen (fun _ => false) = [] := by
  simp [chosen]

theorem addVotesIfPresent_eq {votes : Option (List Bool)}
    (h : ∀ bits, votes = some bits → bits.length = p.finalizers.length) (n : ℕ) (s : FinAuthSet) :
    p.addVotesIfPresent votes n s =
      (if votes.isSome then p.finalizers.zipIdx.countP
          (fun f => (votes.bind fun bits => bits[f.2]?).getD false) else n,
        s.insertAll (p.chosen fun i => (votes.bind fun bits => bits[i]?).getD false)) := by
  cases votes with
  | none => simp [addVotesIfPresent, chosen_none]
  | some bits => simp [addVotesIfPresent, addVotes_eq (h bits rfl)]

section
variable (hf : q.verifyVoteFormat p = .ok ())
include hf

theorem length_voted : (p.voted q).length = p.finalizers.length := by
  obtain ⟨-, hs, hw, -⟩ := verifyVoteFormat_eq_ok.mp hf
  obtain ⟨strong, weak⟩ := q
  cases strong <;> cases weak <;> simp_all [voted]

theorem getElem?_voted {i : ℕ} (hi : i < p.finalizers.length) :
    (p.voted q)[i]? = some (q.strongAt i || q.weakAt i) := by
  obtain ⟨-, hs, hw, -⟩ := verifyVoteFormat_eq_ok.mp hf
  obtain ⟨strong, weak⟩ := q
  cases strong <;> cases weak <;> simp_all [voted, strongAt, weakAt]

theorem addPolicyVotes_eq (m : QcVoteMetrics) :
    p.addPolicyVotes q m = ⟨m.strongVotes.insertAll (p.chosen q.strongAt),
      m.weakVotes.insertAll (p.chosen q.weakAt),
      m.missingVotes.insertAll (p.chosen q.missingAt)⟩ := by
  obtain ⟨hsome, hs, hw, -⟩ := verifyVoteFormat_eq_ok.mp hf
  have hmissing : (p.addVotes ((p.voted q).map not) m.missingVotes).2 =
      m.missingVotes.insertAll (p.chosen q.missingAt) := by
    rw [addVotes_eq (by rw [length_map, length_voted hf])]
    refine congrArg _ (chosen_congr fun i hi => ?_)
    rw [getElem?_map, getElem?_voted hf hi]
    rfl
  rw [addPolicyVotes, addVotesIfPresent_eq hs, addVotesIfPresent_eq hw, hmissing]
  refine congrArg (QcVoteMetrics.mk _ _) (ite_eq_right_iff.mpr fun hcount => ?_)
  -- The last vector that is there has all its bits set, so nobody is missing.
  suffices hnil : p.chosen q.missingAt = [] by rw [hnil, KeyedSet.insertAll_nil]
  split_ifs at hcount with hweak hstrong
  · refine chosen_missing_eq_nil q.weakAt (fun i hi => ?_) hcount
    simp [missingAt, hi]
  · refine chosen_missing_eq_nil q.strongAt (fun i hi => ?_) hcount
    simp [missingAt, hi]
  · simp_all

end

theorem addNotVotedIn_eq (h : votes.length = p.finalizers.length)
    (otherVotes : Option (List Bool)) (s : FinAuthSet) :
    p.addNotVotedIn votes otherVotes s = s.insertAll (p.chosen fun i =>
      !votes[i]?.getD false && !(otherVotes.bind fun bits => bits[i]?).getD false) := by
  have hzip : (p.finalizers.zip votes).zipIdx =
      p.finalizers.zipIdx.map fun f => ((f.1, votes[f.2]?.getD false), f.2) := by
    refine ext_getElem (by simp [h]) fun i hi hi' => ?_
    simp only [length_zipIdx, length_zip, h, min_self] at hi
    simp [h, hi]
  rw [addNotVotedIn, hzip, foldl_map, insertAll_chosen]

theorem addNotVoted_eq (hf : q.verifyVoteFormat p = .ok ()) (s : FinAuthSet) :
    p.addNotVoted q s = s.insertAll (p.chosen q.missingAt) := by
  obtain ⟨hsome, hs, hw, -⟩ := verifyVoteFormat_eq_ok.mp hf
  obtain ⟨strong, weak⟩ := q
  cases strong with
  | some bits =>
    refine (addNotVotedIn_eq (hs bits rfl) _ _).trans (congrArg _ (chosen_congr fun i _ => ?_))
    simp [missingAt, strongAt, weakAt]
  | none =>
    cases weak with
    | none => simp at hsome
    | some bits =>
      refine (addNotVotedIn_eq (hw bits rfl) _ _).trans (congrArg _ (chosen_congr fun i _ => ?_))
      simp [missingAt, strongAt, weakAt]

end FlonCore
