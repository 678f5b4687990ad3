import FlonCore.FinalizerPolicy

/-!
# Quorum certificates

A QC carries for each finalizer policy a vector of strong votes, a vector of
weak votes, and an aggregate signature; it is strong when the weak vector is
absent. Verification checks the format of the vectors, that the finalizers who
voted reach the threshold, and the signature.
-/

namespace FlonCore
open Library List

structure VoteBits where
  (strongVotes weakVotes : Option (List Bool))
deriving DecidableEq, Repr

namespace VoteBits

variable (q : VoteBits)

def isWeak : Bool := q.weakVotes.isSome
def isStrong : Bool := !q.weakVotes.isSome

def strongAt (i : ℕ) : Bool := (q.strongVotes.bind fun bits => bits[i]?).getD false

def weakAt (i : ℕ) : Bool := (q.weakVotes.bind fun bits => bits[i]?).getD false

variable (p : FinalizerPolicy)

def checkSize (votes : Option (List Bool)) : Except Failure Unit :=
  match votes with
  | none => .ok ()
  | some bits => eosAssert (p.finalizers.length == bits.length) .invalidQcClaim
      ("vote bitset size is not the same as the number of finalizers for the policy it refers " ++
        "to, vote bitset size: ${s}, num of finalizers for the policy: ${n}")

def checkNotBoth : Except Failure Unit :=
  match q.strongVotes, q.weakVotes with
  | some strong, some weak =>
    eosAssert ((strong.zip weak).all fun votes => !(votes.1 && votes.2)) .invalidQcClaim
      "finalizer (bit index ${i}) voted both strong and weak"
  | _, _ => .ok ()

def verifyVoteFormat : Except Failure Unit := do
  eosAssert (q.strongVotes.isSome || q.weakVotes.isSome) .invalidQcClaim
    "Neither strong_votes nor weak_votes present for finalizer policy, generation ${n}"
  checkSize p q.strongVotes
  checkSize p q.weakVotes
  q.checkNotBoth

def weights (bits : List Bool) : UInt64 :=
  (p.finalizers.zip bits).foldl (fun sum vote => if vote.2 then sum + vote.1.weight else sum) 0

def strongWeights : UInt64 :=
  (q.strongVotes.map (weights p)).getD 0

def weakWeights : UInt64 :=
  (q.weakVotes.map (weights p)).getD 0

/-- The quorum check, the first half of `qc_sig_t::verify`. -/
def verifyQuorum : Except Failure Unit :=
  if q.isStrong then
    eosAssert (p.threshold ≤ q.strongWeights p) .invalidQcClaim
      "strong quorum is not met, strong_weights: ${s}, threshold: ${t}"
  else
    eosAssert (p.threshold ≤ q.strongWeights p + q.weakWeights p) .invalidQcClaim
      "weak quorum is not met, strong_weights: ${s}, weak_weights: ${w}, threshold: ${t}"

end VoteBits

/-- The signature scheme. `signers` is the multiset of votes a signature aggregates; an
aggregate verifies exactly when these are the votes it is checked against. -/
structure BlsScheme where
  Sig : Type
  zero : Sig
  aggregate : Sig → Sig → Sig
  verify : PublicKey → List UInt8 → Sig → Bool
  aggregateVerify : List (List PublicKey × List UInt8) → Sig → Bool
  signers : Sig → Multiset (PublicKey × List UInt8)
  signers_zero : signers zero = 0
  signers_aggregate : ∀ a b, signers (aggregate a b) = signers a + signers b
  verify_iff : ∀ key digest sig, verify key digest sig = true ↔ signers sig = {(key, digest)}
  aggregateVerify_iff : ∀ groups sig, aggregateVerify groups sig = true ↔
    signers sig = (groups.map fun g => (g.1.map fun key => (key, g.2) : Multiset _)).sum

def BlsScheme.ideal : BlsScheme where
  Sig := Multiset (PublicKey × List UInt8)
  zero := 0
  aggregate := (· + ·)
  verify key digest sig := decide (sig = {(key, digest)})
  aggregateVerify groups sig :=
    decide (sig = (groups.map fun g => (g.1.map fun key => (key, g.2) : Multiset _)).sum)
  signers := id
  signers_zero := rfl
  signers_aggregate _ _ := rfl
  verify_iff _ _ _ := decide_eq_true_iff
  aggregateVerify_iff _ _ := decide_eq_true_iff

structure QcSig (bls : BlsScheme) extends VoteBits where
  sig : bls.Sig

variable (finalizers : List FinalizerAuthority) (bits : List Bool)

def votedKeys : List PublicKey :=
  ((finalizers.zip bits).filter fun vote => vote.2).map fun vote => vote.1.publicKey

namespace QcSig
variable {bls : BlsScheme}

def signedGroups (q : QcSig bls) (p : FinalizerPolicy) (strongDigest weakDigest : List UInt8) :
    List (List PublicKey × List UInt8) :=
  (q.strongVotes.map fun bits => (votedKeys p.finalizers bits, strongDigest)).toList ++
    (q.weakVotes.map fun bits => (votedKeys p.finalizers bits, weakDigest)).toList

def verify (q : QcSig bls) (p : FinalizerPolicy) (strongDigest weakDigest : List UInt8) :
    Except Failure Unit := do
  q.verifyQuorum p
  eosAssert (bls.aggregateVerify (q.signedGroups p strongDigest weakDigest) q.sig)
    .invalidQcClaim "qc signature validation failed"

def voteSameAt (q other : QcSig bls) (myVoteIndex otherVoteIndex : ℕ) : Bool :=
  q.strongAt myVoteIndex == other.strongAt otherVoteIndex &&
    q.weakAt myVoteIndex == other.weakAt otherVoteIndex

end QcSig

open VoteBits

variable {p : FinalizerPolicy}

def natWeights : List FinalizerAuthority → List Bool → ℕ
  | f :: fs, b :: bs => (if b then f.weight.toNat else 0) + natWeights fs bs
  | _, _ => 0

theorem natWeights_le :
    natWeights finalizers bits ≤ (finalizers.map fun f => f.weight.toNat).sum := by
  induction finalizers generalizing bits with
  | nil => simp [natWeights]
  | cons f fs ih =>
    cases bits with
    | nil => simp [natWeights]
    | cons b bs =>
      have h := ih bs
      cases b <;> simp [natWeights] <;> omega

theorem foldl_weights (sum : UInt64) (h : sum.toNat + natWeights finalizers bits < 2 ^ 64) :
    ((finalizers.zip bits).foldl
      (fun sum vote => if vote.2 then sum + vote.1.weight else sum) sum).toNat =
      sum.toNat + natWeights finalizers bits := by
  induction finalizers generalizing bits sum with
  | nil => simp [natWeights]
  | cons f fs ih =>
    cases bits with
    | nil => simp [natWeights]
    | cons b bs =>
      rw [zip_cons_cons, foldl_cons]
      cases b with
      | false =>
        simp only [natWeights, Bool.false_eq_true, if_false, Nat.zero_add] at h ⊢
        exact ih bs sum h
      | true =>
        simp only [natWeights, if_true] at h ⊢
        have hadd : (sum + f.weight).toNat = sum.toNat + f.weight.toNat := by
          rw [UInt64.toNat_add, Nat.mod_eq_of_lt (by omega)]
        rw [ih bs (sum + f.weight) (by omega), hadd, Nat.add_assoc]

theorem weights_toNat (h : p.Valid) (bits : List Bool) :
    (weights p bits).toNat = natWeights p.finalizers bits := by
  have hle := natWeights_le p.finalizers bits
  have hlt := h.total_lt
  have hsum := foldl_weights p.finalizers bits 0 (by
    rw [FinalizerPolicy.totalWeight] at hlt
    simp
    omega)
  simpa [weights] using hsum

theorem natWeights_eq_sum : natWeights finalizers bits =
      ∑ i : Fin finalizers.length, if bits[i.val]?.getD false then finalizers[i].weight.toNat
        else 0 := by
  induction finalizers generalizing bits with
  | nil => simp [natWeights]
  | cons f fs ih =>
    refine Eq.trans ?_ (Fin.sum_univ_succ _).symm
    cases bits with
    | nil => simp [natWeights]
    | cons b bs =>
      rw [natWeights, ih bs]
      simp

theorem weights_eq_weightOf (h : p.Valid) (bits : List Bool) :
    (weights p bits).toNat = weightOf p.weightAt fun i => bits[i.val]?.getD false = true := by
  rw [weights_toNat h, natWeights_eq_sum, weightOf_eq_sum]
  rfl

theorem strongWeights_eq (h : p.Valid) (q : VoteBits) :
    (q.strongWeights p).toNat = weightOf p.weightAt fun i => q.strongAt i = true := by
  cases hs : q.strongVotes with
  | none => simp [strongWeights, strongAt, hs, weightOf]
  | some bits => simpa [strongWeights, strongAt, hs] using
      weights_eq_weightOf h bits

theorem weakWeights_eq (h : p.Valid) (q : VoteBits) :
    (q.weakWeights p).toNat = weightOf p.weightAt fun i => q.weakAt i = true := by
  cases hs : q.weakVotes with
  | none => simp [weakWeights, weakAt, hs, weightOf]
  | some bits => simpa [weakWeights, weakAt, hs] using
      weights_eq_weightOf h bits

namespace VoteBits

theorem checkSize_eq_ok {votes : Option (List Bool)} {u : Unit} :
    checkSize p votes = .ok u ↔ ∀ bits, votes = some bits → bits.length = p.finalizers.length := by
  cases votes with
  | none => simp [checkSize]
  | some bits =>
    simp only [checkSize, eosAssert_eq_ok, beq_iff_eq, Option.some.injEq, forall_eq']
    exact eq_comm

theorem all_zip_iff (strong weak : List Bool) :
    ((strong.zip weak).all fun votes => !(votes.1 && votes.2)) = true ↔
      ∀ i : ℕ, strong[i]?.getD false = true → ¬ weak[i]?.getD false = true := by
  rw [all_eq_true]
  constructor
  · intro h i hs hw
    have hs' : strong[i]? = some true := by
      cases hx : strong[i]? <;> simp_all
    have hw' : weak[i]? = some true := by
      cases hx : weak[i]? <;> simp_all
    have hz : (strong.zip weak)[i]? = some (true, true) := by
      rw [getElem?_zip_eq_some]
      exact ⟨hs', hw'⟩
    simpa using h _ (mem_of_getElem? hz)
  · rintro h ⟨a, b⟩ hmem
    obtain ⟨i, hi⟩ := getElem?_of_mem hmem
    rw [getElem?_zip_eq_some] at hi
    have hab := h i
    cases a <;> cases b <;> simp_all

variable {q : VoteBits}

theorem checkNotBoth_eq_ok :
    q.checkNotBoth = .ok () ↔ ∀ i, q.strongAt i = true → ¬ q.weakAt i = true := by
  obtain ⟨strong, weak⟩ := q
  cases strong with
  | none => simp [checkNotBoth, strongAt]
  | some s =>
    cases weak with
    | none => simp [checkNotBoth, weakAt]
    | some w => simpa [checkNotBoth, strongAt, weakAt] using all_zip_iff s w

theorem verifyVoteFormat_eq_ok :
    q.verifyVoteFormat p = .ok () ↔
      (q.strongVotes.isSome ∨ q.weakVotes.isSome) ∧
      (∀ bits, q.strongVotes = some bits → bits.length = p.finalizers.length) ∧
      (∀ bits, q.weakVotes = some bits → bits.length = p.finalizers.length) ∧
      ∀ i, q.strongAt i = true → ¬ q.weakAt i = true := by
  simp only [verifyVoteFormat, bind_eq_ok, eosAssert_eq_ok, Bool.or_eq_true, checkSize_eq_ok,
    checkNotBoth_eq_ok, exists_const]

theorem toNat_strong_add_weak (h : p.Valid)
    (hf : q.verifyVoteFormat p = .ok ()) : (q.strongWeights p + q.weakWeights p).toNat =
      (q.strongWeights p).toNat + (q.weakWeights p).toNat ∧
    (q.strongWeights p).toNat + (q.weakWeights p).toNat =
      weightOf p.weightAt fun i => q.strongAt i = true ∨ q.weakAt i = true := by
  obtain ⟨-, -, -, hdisjoint⟩ := verifyVoteFormat_eq_ok.mp hf
  have hor := weightOf_or p.weightAt fun i (hi : q.strongAt i = true) => hdisjoint i hi
  have hle := weightOf_le_total p.weightAt fun i => q.strongAt i = true ∨ q.weakAt i = true
  have hlt := h.total_lt
  rw [p.sum_weightAt] at hle
  rw [UInt64.toNat_add, strongWeights_eq h, weakWeights_eq h, hor, Nat.mod_eq_of_lt (by omega)]
  exact ⟨rfl, rfl⟩

theorem verifyQuorum_eq_ok (h : p.Valid) (hf : q.verifyVoteFormat p = .ok ()) :
    q.verifyQuorum p = .ok () ↔ p.threshold.toNat ≤ weightOf p.weightAt fun i =>
      q.strongAt i = true ∨ (q.isWeak = true ∧ q.weakAt i = true) := by
  obtain ⟨hadd, hsum⟩ := toNat_strong_add_weak h hf
  cases hw : q.weakVotes with
  | none =>
    simp [verifyQuorum, isStrong, isWeak, hw, UInt64.le_iff_toNat_le, strongWeights_eq h q]
  | some bits =>
    simp [verifyQuorum, isStrong, isWeak, hw, UInt64.le_iff_toNat_le, hadd.trans hsum]

/-- No addition of the quorum check wraps: not after any number of rounds of the loop over
the finalizers, and not when the strong and the weak weight are added. -/
structure SumsExact (q : VoteBits) (p : FinalizerPolicy) : Prop where
  rounds : ∀ bits, q.strongVotes = some bits ∨ q.weakVotes = some bits → ∀ k,
    (weights { p with finalizers := p.finalizers.take k } bits).toNat =
      natWeights (p.finalizers.take k) bits
  strong_add_weak : (q.strongWeights p + q.weakWeights p).toNat =
    (q.strongWeights p).toNat + (q.weakWeights p).toNat

theorem totalWeight_take_le (p : FinalizerPolicy) (k : ℕ) :
    ((p.finalizers.take k).map fun f => f.weight.toNat).sum ≤ p.totalWeight := by
  have hsplit : p.totalWeight = ((p.finalizers.take k).map fun f => f.weight.toNat).sum +
      ((p.finalizers.drop k).map fun f => f.weight.toNat).sum := by
    rw [FinalizerPolicy.totalWeight, ← sum_append, ← map_append, take_append_drop]
  exact Nat.le.intro hsplit.symm

theorem sumsExact (h : p.Valid) (hf : q.verifyVoteFormat p = .ok ()) : q.SumsExact p where
  rounds bits _ k := by
    have hle := natWeights_le (p.finalizers.take k) bits
    have htake := totalWeight_take_le p k
    have hlt := h.total_lt
    have hsum := foldl_weights (p.finalizers.take k) bits 0 (by
      simp
      omega)
    simpa [weights] using hsum
  strong_add_weak := (toNat_strong_add_weak h hf).1

theorem threshold_le_voters (h : p.Valid) (hf : q.verifyVoteFormat p = .ok ())
    (hq : q.verifyQuorum p = .ok ()) :
    p.threshold.toNat ≤ weightOf p.weightAt fun i => q.strongAt i = true ∨ q.weakAt i = true :=
  ((verifyQuorum_eq_ok h hf).mp hq).trans (weightOf_mono p.weightAt fun _ hi => hi.imp id And.right)

/-- Any two certificates that pass against one policy share a voter that counts. -/
theorem certificates_intersect (hpolicy : p.Accepted) {q q' : VoteBits}
    (hf : q.verifyVoteFormat p = .ok ()) (hq : q.verifyQuorum p = .ok ())
    (hf' : q'.verifyVoteFormat p = .ok ()) (hq' : q'.verifyQuorum p = .ok ()) :
    (∃ i, 0 < p.weightAt i ∧ (q.strongAt i = true ∨ q.weakAt i = true) ∧
      (q'.strongAt i = true ∨ q'.weakAt i = true)) ∧ q.SumsExact p ∧ q'.SumsExact p := by
  have h := hpolicy.valid
  refine ⟨?_, sumsExact h hf, sumsExact h hf'⟩
  have hvoters := threshold_le_voters h hf hq
  rw [← weightOf_positive] at hvoters
  obtain ⟨i, ⟨hi, hpos⟩, hi'⟩ := exists_common_voter p.weightAt h.sum_lt hvoters
    (threshold_le_voters h hf' hq')
  exact ⟨i, hpos, hi, hi'⟩

theorem certificates_intersect_three :
    (∃ i, 0 < (unitPolicy 1 2 [0, 1, 2]).weightAt i ∧
      ((mk (some [true, true, false]) none).strongAt i = true ∨
        (mk (some [true, true, false]) none).weakAt i = true) ∧
      ((mk (some [false, true, false]) (some [false, false, true])).strongAt i = true ∨
        (mk (some [false, true, false])
          (some [false, false, true])).weakAt i = true)) ∧
    (mk (some [true, true, false]) none).SumsExact (unitPolicy 1 2 [0, 1, 2]) ∧
    (mk (some [false, true, false])
      (some [false, false, true])).SumsExact (unitPolicy 1 2 [0, 1, 2]) :=
  certificates_intersect (unitPolicy_accepted (by decide +kernel)) (by decide +kernel)
    (by decide +kernel) (by decide +kernel) (by decide +kernel)

end VoteBits
end FlonCore
