import FlonCore.FinalityCore
import FlonCore.FinalizerPolicy
import FlonCore.OrderedDiff
import Mathlib.Data.List.TakeWhile

/-!
# Block headers and their extensions

A header carries its extensions as packed data with their ids in ascending
order. What the network sees of a change of policy is a diff inside the
finality extension. Packing and hashing are parameters: the packed form is an
arbitrary type, unpacking inverts packing, and a hash is any function of the
data that is hashed.
-/

namespace FlonCore

open OrderedDiff List

structure BlockSigningAuthority where
  threshold : UInt32
  keys : List (KeyWeight String)
deriving DecidableEq, Repr

structure ProducerAuthority where
  producerName : AccountName
  authority : BlockSigningAuthority
deriving DecidableEq, Repr

structure ProducerAuthoritySchedule where
  version : UInt32
  producers : List ProducerAuthority
deriving DecidableEq, Repr

structure ProposerPolicy where
  proposalTime : BlockTimestamp
  proposerSchedule : ProducerAuthoritySchedule
deriving DecidableEq, Repr

structure ProposerPolicyDiff where
  version : UInt32
  proposalTime : BlockTimestamp
  producerAuthDiff : DiffResult ProducerAuthority
deriving DecidableEq, Repr

def ProposerPolicy.createDiff (p target : ProposerPolicy) : Except Failure ProposerPolicyDiff := do
  let producers ← diff p.proposerSchedule.producers target.proposerSchedule.producers
  return ⟨target.proposerSchedule.version, target.proposalTime, producers⟩

def ProposerPolicy.applyDiff (p : ProposerPolicy) (d : ProposerPolicyDiff) :
    Except Failure ProposerPolicy := do
  let producers ← OrderedDiff.applyDiff p.proposerSchedule.producers d.producerAuthDiff
  return ⟨d.proposalTime, ⟨d.version, producers⟩⟩

structure FinalizerPolicyDiff where
  generation : ℕ
  threshold : UInt64
  finalizersDiff : DiffResult FinalizerAuthority
deriving DecidableEq, Repr

def FinalizerPolicy.createDiff (p target : FinalizerPolicy) :
    Except Failure FinalizerPolicyDiff := do
  let finalizers ← diff p.finalizers target.finalizers
  return ⟨target.generation, target.threshold, finalizers⟩

def FinalizerPolicy.applyDiff (p : FinalizerPolicy) (d : FinalizerPolicyDiff) :
    Except Failure FinalizerPolicy := do
  let finalizers ← OrderedDiff.applyDiff p.finalizers d.finalizersDiff
  return ⟨d.generation, d.threshold, finalizers⟩

theorem FinalizerPolicy.createDiff_generation {p target : FinalizerPolicy}
    {d : FinalizerPolicyDiff} (h : p.createDiff target = .ok d) :
    d.generation = target.generation := by
  rw [createDiff, bind_eq_ok] at h
  obtain ⟨_, -, h⟩ := h
  cases h
  rfl

theorem FinalizerPolicy.applyDiff_generation {p q : FinalizerPolicy} {d : FinalizerPolicyDiff}
    (h : p.applyDiff d = .ok q) : q.generation = d.generation := by
  rw [applyDiff, bind_eq_ok] at h
  obtain ⟨_, -, h⟩ := h
  cases h
  rfl

structure FinalityExtension where
  qcClaim : QcClaim
  newFinalizerPolicyDiff : Option FinalizerPolicyDiff
  newProposerPolicyDiff : Option ProposerPolicyDiff
  claim_lt : qcClaim.blockNum < 2 ^ 32
deriving DecidableEq, Repr

inductive BlockHeaderExtension
  | protocolFeatureActivation (protocolFeatures : List Digest)
  | producerScheduleChange (schedule : ProducerAuthoritySchedule)
  | finality (extension : FinalityExtension)
deriving DecidableEq, Repr

def BlockHeaderExtension.finality? : BlockHeaderExtension → Option FinalityExtension
  | .finality extension => some extension
  | _ => none

def BlockHeaderExtension.protocolFeatures? : BlockHeaderExtension → Option (List Digest)
  | .protocolFeatureActivation features => some features
  | _ => none

def protocolFeatureActivationId : ℕ := 0
def producerScheduleChangeId : ℕ := 1
def finalityExtensionId : ℕ := 2

abbrev HeaderExtensionMultimap := List (ℕ × BlockHeaderExtension)

def emplaceExtension {γ : Type} (exts : List (ℕ × γ)) (id : ℕ) (data : γ) : List (ℕ × γ) :=
  exts.takeWhile (fun e => !decide (id < e.1)) ++
    (id, data) :: exts.dropWhile (fun e => !decide (id < e.1))

namespace HeaderExtensionMultimap

def finality (exts : HeaderExtensionMultimap) : Option FinalityExtension :=
  exts.findSome? fun e => e.2.finality?

def protocolFeatures (exts : HeaderExtensionMultimap) : Option (List Digest) :=
  exts.findSome? fun e => e.2.protocolFeatures?

end HeaderExtensionMultimap

/-- The packing of header extensions into data of type `β`. -/
structure ExtensionCodec (β : Type) where
  packProtocolFeatures : List Digest → β
  unpackProtocolFeatures : β → Except Failure (List Digest)
  unpackProducerSchedule : β → Except Failure ProducerAuthoritySchedule
  packFinality : FinalityExtension → β
  unpackFinality : β → Except Failure FinalityExtension
  unpack_packProtocolFeatures : ∀ features,
    unpackProtocolFeatures (packProtocolFeatures features) = .ok features
  unpack_packFinality : ∀ extension, unpackFinality (packFinality extension) = .ok extension

def ExtensionCodec.identity : ExtensionCodec BlockHeaderExtension where
  packProtocolFeatures := .protocolFeatureActivation
  unpackProtocolFeatures
    | .protocolFeatureActivation features => .ok features
    | _ => .error ⟨.assertException, ""⟩
  unpackProducerSchedule
    | .producerScheduleChange schedule => .ok schedule
    | _ => .error ⟨.assertException, ""⟩
  packFinality := .finality
  unpackFinality
    | .finality extension => .ok extension
    | _ => .error ⟨.assertException, ""⟩
  unpack_packProtocolFeatures _ := rfl
  unpack_packFinality _ := rfl

variable {β : Type}

structure LegacyProducerSchedule where
  version : UInt32
  producers : List (AccountName × String)
deriving DecidableEq, Repr

structure BlockHeader (β : Type) where
  timestamp : BlockTimestamp
  producer : AccountName
  confirmed : UInt16
  previous : BlockId
  (transactionMroot actionMroot : Digest)
  scheduleVersion : UInt32
  newProducers : Option LegacyProducerSchedule
  headerExtensions : List (ℕ × β)
deriving DecidableEq, Repr

def properSvnnScheduleVersion : UInt32 := 0x80000000

namespace BlockHeader

variable (h : BlockHeader β)

def blockNum : ℕ := u32 (numFromId h.previous + 1)

def isProperSvnnBlock : Bool := h.scheduleVersion == properSvnnScheduleVersion

def containsHeaderExtension (extensionId : ℕ) : Bool :=
  h.headerExtensions.any fun e => e.1 == extensionId

def isLegacyBlock : Bool := !h.containsHeaderExtension finalityExtensionId

theorem blockNum_lt : h.blockNum < 2 ^ 32 := Nat.mod_lt _ (Nat.two_pow_pos 32)

end BlockHeader

section Extract
variable (codec : ExtensionCodec β)

def unpackActivation (data : β) : Except Failure (List Digest) := do
  let features ← codec.unpackProtocolFeatures data
  eosAssert (!features.isEmpty) .illFormedProtocolFeatureActivation
    "Protocol feature activation extension must have at least one protocol feature digest"
  eosAssert features.Nodup .illFormedProtocolFeatureActivation
    "Protocol feature digest ${d} was repeated in the protocol feature activation extension"
  return features

def extractExtension (id : ℕ) (data : β) : Except Failure BlockHeaderExtension :=
  if id = protocolFeatureActivationId then
    (unpackActivation codec data).map .protocolFeatureActivation
  else if id = producerScheduleChangeId then
    (codec.unpackProducerSchedule data).map .producerScheduleChange
  else if id = finalityExtensionId then (codec.unpackFinality data).map .finality
  else .error ⟨.invalidBlockHeaderExtension,
    "Block header extension with id type ${id} is not supported"⟩

end Extract

/-- The loop over the extensions of a header or a block, with what it throws for ids that are
not in order or repeat. The previous id is absent in the first round, where the lower bound is
zero. -/
def extractFrom {γ : Type} (extract : ℕ → β → Except Failure γ) (unordered repeated : Failure)
    (previous : Option ℕ) (results : List (ℕ × γ)) :
    List (ℕ × β) → Except Failure (List (ℕ × γ))
  | [] => .ok results
  | (id, data) :: rest => do
    eosAssert (previous.getD 0 ≤ id) unordered.kind unordered.message
    let extension ← extract id data
    eosAssert (isAfter id previous) repeated.kind repeated.message
    extractFrom extract unordered repeated (some id) (emplaceExtension results id extension) rest

section Extract
variable (codec : ExtensionCodec β)

def validateAndExtractHeaderExtensions (h : BlockHeader β) :
    Except Failure HeaderExtensionMultimap :=
  extractFrom (extractExtension codec)
    ⟨.invalidBlockHeaderExtension,
      "Block header extensions are not in the correct order (ascending id types required)"⟩
    ⟨.invalidBlockHeaderExtension,
      "Block header extension with id type ${id} is not allowed to repeat"⟩
    none [] h.headerExtensions

def extractHeaderExtension (h : BlockHeader β) (extensionId : ℕ) :
    Except Failure (Option BlockHeaderExtension) :=
  match (h.headerExtensions.takeWhile fun e => !decide (extensionId < e.1)).find?
    fun e => e.1 == extensionId with
  | none => .ok none
  | some e => (extractExtension codec e.1 e.2).map some

end Extract

variable {γ : Type} {extract : ℕ → β → Except Failure γ} {unordered repeated : Failure}

theorem emplaceExtension_last {exts : List (ℕ × γ)} {id : ℕ} (data : γ)
    (h : ∀ e ∈ exts, e.1 ≤ id) : emplaceExtension exts id data = exts ++ [(id, data)] := by
  have hall : ∀ e ∈ exts, (!decide (id < e.1)) = true := fun e he => by simpa using h e he
  rw [emplaceExtension, takeWhile_eq_self_iff.mpr hall, dropWhile_eq_nil_iff.mpr hall]

theorem extractFrom_eq_ok {previous : Option ℕ} {results exts : List (ℕ × γ)}
    {l : List (ℕ × β)} (hresults : ∀ e ∈ results, ∃ p, previous = some p ∧ e.1 ≤ p)
    (h : extractFrom extract unordered repeated previous results l = .ok exts) :
    ∃ extracted, exts = results ++ extracted ∧
      List.Forall₂ (fun d e => e.1 = d.1 ∧ extract d.1 d.2 = .ok e.2) l extracted := by
  induction l generalizing previous results with
  | nil =>
    cases h
    exact ⟨[], by simp, .nil⟩
  | cons d rest ih =>
    obtain ⟨id, data⟩ := d
    simp only [extractFrom, bind_eq_ok, eosAssert_eq_ok] at h
    obtain ⟨-, -, extension, hextension, -, hafter, h⟩ := h
    have hlast : ∀ e ∈ results, e.1 ≤ id := by
      intro e he
      obtain ⟨p, rfl, hle⟩ := hresults e he
      have hlt : p < id := by simpa [isAfter] using hafter
      omega
    rw [emplaceExtension_last extension hlast] at h
    obtain ⟨extracted, rfl, hforall⟩ := ih (by
      intro e he
      refine ⟨id, rfl, ?_⟩
      rcases mem_append.mp he with he | he
      · exact hlast e he
      · rw [mem_singleton.mp he]) h
    exact ⟨(id, extension) :: extracted, by simp, .cons ⟨rfl, hextension⟩ hforall⟩

variable {codec : ExtensionCodec β}

theorem extractExtension_cases {id : ℕ} {data : β} {x : BlockHeaderExtension}
    (h : extractExtension codec id data = .ok x) :
    (id < finalityExtensionId ∧ x.finality? = none) ∨
    (id = finalityExtensionId ∧ ∃ f, x = .finality f) := by
  unfold extractExtension at h
  split_ifs at h with h0 h1 h2
  · obtain ⟨features, -, rfl⟩ := map_eq_ok.mp h
    exact .inl ⟨by rw [h0]; decide, rfl⟩
  · obtain ⟨schedule, -, rfl⟩ := map_eq_ok.mp h
    exact .inl ⟨by rw [h1]; decide, rfl⟩
  · obtain ⟨f, -, rfl⟩ := map_eq_ok.mp h
    exact .inr ⟨h2, f, rfl⟩

theorem extractHeaderExtension_finality {h : BlockHeader β} {exts : HeaderExtensionMultimap}
    (hexts : validateAndExtractHeaderExtensions codec h = .ok exts) :
    extractHeaderExtension codec h finalityExtensionId = .ok (exts.finality.map .finality) := by
  obtain ⟨extracted, rfl, hforall⟩ := extractFrom_eq_ok (by simp) hexts
  unfold extractHeaderExtension HeaderExtensionMultimap.finality
  generalize h.headerExtensions = l at hforall
  clear hexts
  induction hforall with
  | nil => rfl
  | @cons d e l extracted hde _ ih =>
    obtain ⟨hid, hextract⟩ := hde
    rcases extractExtension_cases hextract with ⟨hlt, hnone⟩ | ⟨heq, f, hf⟩
    · rw [takeWhile_cons_of_pos (by simp; omega), find?_cons_of_neg (by simp; omega),
        findSome?_cons_of_isNone (by simp [hnone])]
      exact ih
    · rw [takeWhile_cons_of_pos (by simp; omega), find?_cons_of_pos (by simp [heq])]
      simp [hextract, hf, Except.map, BlockHeaderExtension.finality?]

structure SignedBlockHeader (β : Type) extends BlockHeader β where
  producerSignature : String
deriving DecidableEq, Repr

structure BlockRefDigestData where
  blockNum : ℕ
  timestamp : BlockTimestamp
  finalityDigest : Digest
  parentTimestamp : BlockTimestamp
deriving DecidableEq, Repr

def FinalityCore.reversibleBlocks (c : FinalityCore) : List BlockRefDigestData :=
  (c.refs.zip (c.refs.drop 1)).map fun (parent, ref) =>
    ⟨ref.blockNum, ref.timestamp, ref.finalityDigest, parent.timestamp⟩

end FlonCore
