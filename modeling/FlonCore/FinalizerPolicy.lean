import FlonCore.Library.Quorum
import FlonCore.Types

/-!
# Finalizer policies

A policy lists the finalizers with their weights and the threshold a quorum has
to reach. `setFinalizers` is the host function a contract proposes a policy
with; what it checks is what every later argument about quorums rests on.
Weights are 64-bit words and are added as such.
-/

namespace FlonCore
open Library List UInt64

structure PublicKey where
  bytes : List UInt8
deriving DecidableEq, Repr

structure FinalizerAuthority where
  description : String
  weight : UInt64
  publicKey : PublicKey
deriving DecidableEq, Repr

structure FinalizerPolicy where
  generation : ℕ
  threshold : UInt64
  finalizers : List FinalizerAuthority
deriving DecidableEq, Repr

def maxFinalizers : ℕ := 64 * 1024
def maxFinalizerDescriptionSize : ℕ := 256

structure AbiFinalizerAuthority where
  description : String
  weight : UInt64
  publicKey : List UInt8

structure AbiFinalizerPolicy where
  threshold : UInt64
  finalizers : List AbiFinalizerAuthority

section SetFinalizers
variable (isValidG1 : List UInt8 → Bool)

/-- One round of the loop over the proposed finalizers. -/
def addFinalizer (acc : UInt64 × List FinalizerAuthority) (f : AbiFinalizerAuthority) :
    Except Failure (UInt64 × List FinalizerAuthority) := do
  eosAssert (f.description.utf8ByteSize ≤ maxFinalizerDescriptionSize) .wasmExecutionError
    "Finalizer description greater than ${s}"
  eosAssert (f.weight ≤ UInt64.ofNat (2 ^ 64 - 1) - acc.1) .wasmExecutionError
    "sum of weights causes uint64_t overflow"
  eosAssert (f.publicKey.length == 96) .wasmExecutionError "Invalid bls public key length"
  -- the constructor of `bls_public_key`
  eosAssert (isValidG1 f.publicKey) .assertException "g1: "
  eosAssert (⟨f.publicKey⟩ ∉ acc.2.map FinalizerAuthority.publicKey) .wasmExecutionError
    "Duplicate public key: ${pk}"
  return (acc.1 + f.weight, acc.2 ++ [⟨f.description, f.weight, ⟨f.publicKey⟩⟩])

/-- The policy `set_finalizers` proposes. Its generation is assigned later. -/
def setFinalizers (isReadOnly : Bool) (packedFinalizerFormat : ℕ) (abi : AbiFinalizerPolicy) :
    Except Failure FinalizerPolicy := do
  eosAssert (!isReadOnly) .wasmExecutionError "set_finalizers not allowed in a readonly transaction"
  eosAssert (packedFinalizerFormat == 0) .wasmExecutionError
    "Finalizer policy is in an unknown format!"
  eosAssert (abi.finalizers.length ≤ maxFinalizers) .wasmExecutionError
    "Finalizer policy exceeds the maximum finalizer count for this chain"
  eosAssert (0 < abi.finalizers.length) .wasmExecutionError "Finalizers cannot be empty"
  let (weightSum, finalizers) ← abi.finalizers.foldlM (addFinalizer isValidG1) (0, [])
  eosAssert (abi.threshold ≤ weightSum && weightSum / 2 < abi.threshold) .wasmExecutionError
    ("Finalizer policy threshold (${t}) must be greater than half of the sum of the weights " ++
      "(${w}), and less than or equal to the sum of the weights")
  return ⟨0, abi.threshold, finalizers⟩

end SetFinalizers

namespace FinalizerPolicy

variable (p : FinalizerPolicy)

/-- The weak weight a strong quorum can still tolerate. The source sums the weights into
an accumulator of type `int`, so every partial sum is truncated to 32 bits. -/
def maxWeakSumBeforeWeakFinal : UInt64 :=
  let sum : Int32 := p.finalizers.foldl
    (fun acc f => (acc.toInt64.toUInt64 + f.weight).toUInt32.toInt32) 0
  sum.toInt64.toUInt64 - p.threshold

/-- The policies a contract can install, whatever generation they are given. -/
def Accepted : Prop :=
  ∃ isValidG1 isReadOnly packedFinalizerFormat abi q,
    setFinalizers isValidG1 isReadOnly packedFinalizerFormat abi = .ok q ∧
      p.threshold = q.threshold ∧ p.finalizers = q.finalizers

def weightAt (i : Fin p.finalizers.length) : ℕ :=
  (p.finalizers.get i).weight.toNat

def totalWeight : ℕ :=
  (p.finalizers.map fun f => f.weight.toNat).sum

theorem sum_weightAt : ∑ i, p.weightAt i = p.totalWeight := by
  rw [totalWeight, ← sum_ofFn, ← ofFn_getElem_eq_map p.finalizers fun f => f.weight.toNat]
  rfl

structure Valid : Prop where
  nonempty : 0 < p.finalizers.length
  length_le : p.finalizers.length ≤ maxFinalizers
  keys_nodup : (p.finalizers.map FinalizerAuthority.publicKey).Nodup
  total_lt : p.totalWeight < 2 ^ 64
  threshold_le : p.threshold.toNat ≤ p.totalWeight
  majority : p.totalWeight < 2 * p.threshold.toNat

theorem Valid.sum_lt {p : FinalizerPolicy} (h : p.Valid) :
    ∑ i, p.weightAt i < 2 * p.threshold.toNat := by
  rw [p.sum_weightAt]
  exact h.majority

end FinalizerPolicy

structure LoopInv (acc : UInt64 × List FinalizerAuthority) : Prop where
  sum_eq : acc.1.toNat = (acc.2.map fun f => f.weight.toNat).sum
  keys_nodup : (acc.2.map FinalizerAuthority.publicKey).Nodup

variable {acc acc' : UInt64 × List FinalizerAuthority} {isValidG1 : List UInt8 → Bool}

theorem addFinalizer_inv {f : AbiFinalizerAuthority}
    (h : addFinalizer isValidG1 acc f = .ok acc') (hinv : LoopInv acc) :
    LoopInv acc' ∧ acc'.2.length = acc.2.length + 1 := by
  simp only [addFinalizer, bind_eq_ok, eosAssert_eq_ok, decide_eq_true_eq] at h
  obtain ⟨-, -, -, hweight, -, -, -, -, -, hkey, hacc⟩ := h
  cases hacc
  have hle : acc.1.toNat + f.weight.toNat < 2 ^ 64 := by
    rw [le_iff_toNat_le, UInt64.toNat_sub_of_le] at hweight
    · have hmax : (UInt64.ofNat (2 ^ 64 - 1)).toNat = 2 ^ 64 - 1 := rfl
      have hlt := acc.1.toNat_lt
      omega
    · have hlt := acc.1.toNat_lt
      rw [le_iff_toNat_le]
      have hmax : (UInt64.ofNat (2 ^ 64 - 1)).toNat = 2 ^ 64 - 1 := rfl
      omega
  refine ⟨⟨?_, ?_⟩, by simp⟩
  · rw [UInt64.toNat_add, Nat.mod_eq_of_lt hle, hinv.sum_eq]
    simp
  · simp only [map_append, map_cons, map_nil]
    rw [nodup_append_comm, singleton_append, nodup_cons]
    exact ⟨hkey, hinv.keys_nodup⟩

theorem foldlM_addFinalizer_inv (l : List AbiFinalizerAuthority)
    (h : l.foldlM (addFinalizer isValidG1) acc = .ok acc') (hinv : LoopInv acc) :
    LoopInv acc' ∧ acc'.2.length = acc.2.length + l.length := by
  induction l generalizing acc with
  | nil =>
    cases h
    exact ⟨hinv, rfl⟩
  | cons f l ih =>
    rw [foldlM_cons, bind_eq_ok] at h
    obtain ⟨mid, hstep, hrest⟩ := h
    obtain ⟨hmid, hlen⟩ := addFinalizer_inv hstep hinv
    obtain ⟨hfin, hlen'⟩ := ih hrest hmid
    refine ⟨hfin, ?_⟩
    rw [length_cons]
    omega

theorem FinalizerPolicy.Accepted.valid {p : FinalizerPolicy} (h : p.Accepted) : p.Valid := by
  obtain ⟨isValidG1, isReadOnly, format, abi, q, hset, hthreshold, hfinalizers⟩ := h
  simp only [setFinalizers, bind_eq_ok, eosAssert_eq_ok, decide_eq_true_eq, Bool.and_eq_true]
    at hset
  obtain ⟨-, -, -, -, -, hlen, -, hpos, ⟨weightSum, finalizers⟩, hloop, -, hquorum, hq⟩ := hset
  cases hq
  dsimp only at hquorum hthreshold hfinalizers
  obtain ⟨hinv, hlength⟩ := foldlM_addFinalizer_inv _ hloop ⟨by simp, by simp⟩
  have htotal : p.totalWeight = weightSum.toNat := by
    rw [FinalizerPolicy.totalWeight, hfinalizers, hinv.sum_eq]
  have hlt := weightSum.toNat_lt
  obtain ⟨hle, hhalf⟩ := hquorum
  rw [le_iff_toNat_le] at hle
  rw [lt_iff_toNat_lt, UInt64.toNat_div, show (2 : UInt64).toNat = 2 from rfl] at hhalf
  simp only [length_nil, Nat.zero_add] at hlength
  refine ⟨?_, ?_, ?_, by omega, ?_, ?_⟩
  · rw [hfinalizers]
    omega
  · rw [hfinalizers]
    omega
  · rw [hfinalizers]
    exact hinv.keys_nodup
  · rw [hthreshold]
    omega
  · rw [hthreshold]
    omega

def unitPolicy (generation : ℕ) (threshold : UInt64) (bytes : List UInt8) : FinalizerPolicy :=
  ⟨generation, threshold, bytes.map fun byte => ⟨"", 1, ⟨byte :: replicate 95 0⟩⟩⟩

theorem unitPolicy_accepted {generation : ℕ} {threshold : UInt64} {bytes : List UInt8}
    (h : setFinalizers (fun _ => true) false 0
      ⟨threshold, bytes.map fun byte => ⟨"", 1, byte :: replicate 95 0⟩⟩ =
        .ok (unitPolicy 0 threshold bytes)) : (unitPolicy generation threshold bytes).Accepted :=
  ⟨_, _, _, _, _, h, rfl, rfl⟩

end FlonCore
