import FlonCore.FeatureManager
import FlonCore.Library.Assoc

/-!
# Activation of protocol features along a chain

A block lists the features it activates. The list is checked twice: against the
features active in the parent when the header is validated, and against the
preactivated features when the block starts. Over a chain the two checks leave
a sequence of features without repetition in which each comes after the
features it depends on.
-/

namespace FlonCore
open Library Finset List
open ProtocolFeatureSet

namespace BlockTimestamp

/-- Microseconds since the Unix epoch; slots of half a second count from the year 2000. -/
def toTimePoint (t : BlockTimestamp) : ℤ := (t.slot.toNat * 500 + 946684800000) * 1000

end BlockTimestamp

def requireReady : Recognized → Except Failure Unit
  | .unrecognized => .error ⟨.protocolFeatureException,
      "protocol feature with digest '${digest}' is unrecognized"⟩
  | .disabled => .error ⟨.protocolFeatureException,
      "protocol feature with digest '${digest}' is disabled"⟩
  | .tooEarly => .error ⟨.protocolFeatureException,
      "${timestamp} is too early for the earliest allowed activation time of the protocol " ++
        "feature with digest '${digest}'"⟩
  | .ready => .ok ()

section Check
variable (pfs : ProtocolFeatureSet) (timestamp : BlockTimestamp) (current : Finset Digest)

/-- One round of `check_protocol_features`; `before` are the features listed before `f`. -/
def checkProtocolFeature (before : List Digest) (f : Digest) : Except Failure Unit := do
  requireReady (pfs.isRecognized f timestamp.toTimePoint)
  eosAssert (f ∉ current) .protocolFeatureException
    "protocol feature with digest '${digest}' has already been activated"
  eosAssert (pfs.validateDependencies f fun d => d ∈ current ∨ d ∈ before)
    .protocolFeatureException
    "not all dependencies of protocol feature with digest '${digest}' have been activated"

def checkProtocolFeaturesAfter (before : List Digest) : List Digest → Except Failure Unit
  | [] => .ok ()
  | f :: features => do
    checkProtocolFeature pfs timestamp current before f
    checkProtocolFeaturesAfter (before ++ [f]) features

def checkProtocolFeatures (newFeatures : List Digest) : Except Failure Unit :=
  checkProtocolFeaturesAfter pfs timestamp current [] newFeatures

end Check

structure ProtocolStateObject where
  activatedProtocolFeatures : List (Digest × UInt32)
  preactivatedProtocolFeatures : List Digest
deriving DecidableEq, Repr

/-- The variables of the activation loop: the map of features that are preactivated or
activated, with the mark of those activated, and the count of preactivated ones activated. -/
structure ActivationLoop where
  marks : List (Digest × Bool)
  count : ℕ
  protocolFeatures : ProtocolFeatureManager

section StartBlock
variable (trigger : BuiltinProtocolFeatureT → Except Failure Unit) (blockNum : UInt32)

def ActivationLoop.mark (l : ActivationLoop) (f : ProtocolFeature) (featureDigest : Digest) :
    Except Failure ActivationLoop :=
  match find l.marks featureDigest with
  | none => do
    eosAssert (!f.preactivationRequired) .protocolFeatureException
      "attempted to activate protocol feature without prior required preactivation: ${digest}"
    return { l with marks := assign l.marks featureDigest true }
  | some activated => do
    eosAssert (!activated) .blockValidateException
      "attempted duplicate activation within a single block: ${digest}"
    return { l with marks := assign l.marks featureDigest true, count := l.count + 1 }

def triggerActivationHandler : Option BuiltinProtocolFeatureT → Except Failure Unit
  | some codename => trigger codename
  | none => .ok ()

/-- One round of the activation loop. `trigger` is the handler of a builtin feature. -/
def ActivationLoop.activate (l : ActivationLoop) (featureDigest : Digest) :
    Except Failure ActivationLoop := do
  let f ← l.protocolFeatures.protocolFeatureSet.getProtocolFeature featureDigest
  let l ← l.mark f featureDigest
  triggerActivationHandler trigger f.builtinFeature
  let protocolFeatures ← l.protocolFeatures.activateFeature featureDigest blockNum
  return { l with protocolFeatures := protocolFeatures }

def preactivatedMarks (preactivated : List Digest) : List (Digest × Bool) :=
  preactivated.foldl (fun marks d => emplace marks (d, false)) []

/-- The part of `start_block` that activates features, for a block that is not ephemeral. -/
def startBlockFeatures (pso : ProtocolStateObject) (protocolFeatures : ProtocolFeatureManager)
    (newFeatures : List Digest) :
    Except Failure (ProtocolStateObject × ProtocolFeatureManager) := do
  let numPreactivated := pso.preactivatedProtocolFeatures.length
  if newFeatures.isEmpty then
    eosAssert (numPreactivated = 0) .blockValidateException
      ("There are pre-activated protocol features that were not activated at the start of " ++
        "this block")
    return (pso, protocolFeatures)
  else
    let l ← newFeatures.foldlM (ActivationLoop.activate trigger blockNum)
      ⟨preactivatedMarks pso.preactivatedProtocolFeatures, 0, protocolFeatures⟩
    eosAssert (numPreactivated = 0 ∨ l.count = numPreactivated) .blockValidateException
      ("There are pre-activated protocol features that were not activated at the start of " ++
        "this block")
    return (⟨pso.activatedProtocolFeatures ++ newFeatures.map fun d => (d, blockNum), []⟩,
      l.protocolFeatures)

end StartBlock

/-- What a block brings to the activation of features: its list, and the features that the
transactions of earlier blocks have left preactivated. -/
structure FeatureBlock where
  blockNum : UInt32
  timestamp : BlockTimestamp
  (newFeatures preactivated : List Digest)
deriving DecidableEq, Repr

structure FeatureState where
  activated : Finset Digest
  activatedInState : List (Digest × UInt32)
  protocolFeatures : ProtocolFeatureManager

namespace FeatureState

def genesis (pfs : ProtocolFeatureSet) : FeatureState :=
  ⟨∅, [], { ProtocolFeatureManager.ofSet pfs with initialized := true }⟩

def applyBlock (trigger : BuiltinProtocolFeatureT → Except Failure Unit) (s : FeatureState)
    (b : FeatureBlock) : Except Failure FeatureState := do
  checkProtocolFeatures s.protocolFeatures.protocolFeatureSet b.timestamp s.activated b.newFeatures
  let (pso, protocolFeatures) ← startBlockFeatures trigger b.blockNum
    ⟨s.activatedInState, b.preactivated⟩ s.protocolFeatures b.newFeatures
  return ⟨s.activated ∪ b.newFeatures.toFinset, pso.activatedProtocolFeatures, protocolFeatures⟩

def applyBlocks (trigger : BuiltinProtocolFeatureT → Except Failure Unit)
    (pfs : ProtocolFeatureSet) (blocks : List FeatureBlock) : Except Failure FeatureState :=
  blocks.foldlM (applyBlock trigger) (genesis pfs)

end FeatureState

variable {digest : BuiltinProtocolFeature → Digest} {s s' : ProtocolFeatureSet}

theorem getProtocolFeature_eq_ok {d : Digest} {f : ProtocolFeature} :
    s.getProtocolFeature d = .ok f ↔ s.find d = some f := by
  unfold getProtocolFeature
  cases s.find d <;> simp

theorem validateDependencies_eq_true {d : Digest} {validator : Digest → Bool} :
    s.validateDependencies d validator = true ↔
      ∃ f, s.find d = some f ∧ ∀ e ∈ f.dependencies, validator e = true := by
  unfold validateDependencies
  cases s.find d with
  | none => simp
  | some f => simp

theorem mem_of_satisfyDependency {expected : List BuiltinProtocolFeatureT} {ds : List Digest}
    {satisfied : Finset BuiltinProtocolFeatureT}
    (h : ds.foldlM (s.satisfyDependency expected) ∅ = .ok satisfied) :
    ∀ b ∈ satisfied, b ∈ expected ∧ ∃ e ∈ ds, ∃ g, s.find e = some g ∧
      g.builtinFeature = some b := by
  refine @foldlM_eq_ok_induction _ _ _ _ (fun ds (satisfied : Finset _) => ∀ b ∈ satisfied,
    b ∈ expected ∧ ∃ e ∈ ds, ∃ g, s.find e = some g ∧ g.builtinFeature = some b) ?_ ds [] _ _
    (by simp) h
  intro seen d old new hold hstep b hb
  -- the features seen before keep their dependencies
  have hkeep : b ∈ old → b ∈ expected ∧ ∃ e ∈ seen ++ [d], ∃ g, s.find e = some g ∧
      g.builtinFeature = some b := by
    intro hb
    obtain ⟨hexp, e, he, hg⟩ := hold b hb
    exact ⟨hexp, e, mem_append_left _ he, hg⟩
  unfold satisfyDependency at hstep
  cases hfind : s.find d with
  | none => simp [hfind] at hstep
  | some f =>
    cases hcode : f.builtinFeature with
    | none =>
      simp only [hfind, hcode, Except.ok.injEq] at hstep
      exact hkeep (hstep ▸ hb)
    | some c =>
      simp only [hfind, hcode, Except.ok.injEq] at hstep
      subst hstep
      split_ifs at hb with hexp
      · obtain rfl | hb := mem_insert.mp hb
        · exact ⟨hexp, d, by simp, f, hfind, hcode⟩
        · exact hkeep hb
      · exact hkeep hb

variable {f : BuiltinProtocolFeature}

theorem addFeature_eq_ok (h : s.addFeature digest f = .ok s') :
    ∃ spec satisfied, builtinProtocolFeatureCodenames f.codename = some spec ∧
      f.dependencies.foldlM (s.satisfyDependency spec.builtinDependencies) ∅ = .ok satisfied ∧
      spec.builtinDependencies.length ≤ satisfied.card ∧
      ∃ g, s'.recognized = s.recognized ++ [g] ∧ g.dependencies = f.dependencies ∧
        g.builtinFeature = some f.codename := by
  unfold addFeature at h
  cases hspec : builtinProtocolFeatureCodenames f.codename with
  | none => simp [hspec] at h
  | some spec =>
    simp only [hspec] at h
    obtain ⟨-, h⟩ := seq_eq_ok.mp h
    obtain ⟨satisfied, hsat, h⟩ := bind_eq_ok.mp h
    obtain ⟨hcard, h⟩ := seq_eq_ok.mp h
    obtain ⟨-, h⟩ := seq_eq_ok.mp h
    refine ⟨spec, satisfied, rfl, hsat, ?_, ?_⟩
    · by_contra hlt
      rw [checkSatisfied, if_pos (not_le.mp hlt), seq_eq_ok] at hcard
      cases hcard.2
    · simp only [pure, Except.pure, Except.ok.injEq] at h
      exact h ▸ ⟨_, rfl, rfl, rfl⟩

def HasBuiltinDependencies (s : ProtocolFeatureSet) (f : ProtocolFeature) : Prop :=
  ∃ codename spec, f.builtinFeature = some codename ∧
    builtinProtocolFeatureCodenames codename = some spec ∧
    ∀ b ∈ spec.builtinDependencies, ∃ e ∈ f.dependencies, ∃ g, s.find e = some g ∧
      g.builtinFeature = some b

theorem hasBuiltinDependencies_of_addFeature (h : s.addFeature digest f = .ok s')
    (hold : ∀ d g, s.find d = some g → HasBuiltinDependencies s g) :
    ∀ d g, s'.find d = some g → HasBuiltinDependencies s' g := by
  obtain ⟨spec, satisfied, hspec, hsat, hcard, new, hrec, hdeps, hcode⟩ := addFeature_eq_ok h
  have hkeep : ∀ d g, s.find d = some g → s'.find d = some g := by
    intro d g hfind
    rw [ProtocolFeatureSet.find, hrec, find?_append, ← ProtocolFeatureSet.find, hfind]
    rfl
  intro d g hfind
  rw [ProtocolFeatureSet.find, hrec, find?_append, ← ProtocolFeatureSet.find,
    Option.or_eq_some_iff] at hfind
  obtain hfind | ⟨-, hfind⟩ := hfind
  · obtain ⟨codename, spec', hcode', hspec', hall⟩ := hold d g hfind
    refine ⟨codename, spec', hcode', hspec', fun b hb => ?_⟩
    obtain ⟨e, he, g', hg', hb'⟩ := hall b hb
    exact ⟨e, he, g', hkeep e g' hg', hb'⟩
  · obtain rfl : g = new := by simpa using mem_of_find?_eq_some hfind
    refine ⟨f.codename, spec, hcode, hspec, fun b hb => ?_⟩
    -- as many are satisfied as are expected, so all are
    have hsub : satisfied ⊆ spec.builtinDependencies.toFinset := fun b hb =>
      mem_toFinset.mpr (mem_of_satisfyDependency hsat b hb).1
    have heq := eq_of_subset_of_card_le hsub ((toFinset_card_le _).trans hcard)
    have hb' : b ∈ satisfied := heq ▸ mem_toFinset.mpr hb
    obtain ⟨-, e, he, g', hg', hbuiltin⟩ := mem_of_satisfyDependency hsat b hb'
    exact ⟨e, hdeps ▸ he, g', hkeep e g' hg', hbuiltin⟩

theorem hasBuiltinDependencies_of_addFeatures {features : List BuiltinProtocolFeature}
    (h : addFeatures digest features = .ok s) :
    ∀ d g, s.find d = some g → HasBuiltinDependencies s g := by
  refine @foldlM_eq_ok_induction _ _ _ _ (fun _ s => ∀ d g, s.find d = some g →
    HasBuiltinDependencies s g) ?_ features [] _ _ ?_ h
  · intro _ f s s' hold hadd
    exact hasBuiltinDependencies_of_addFeature hadd hold
  · intro d g hfind
    cases hfind

variable {pfs : ProtocolFeatureSet} {t : BlockTimestamp} {current : Finset Digest}

theorem checkProtocolFeature_eq_ok {before : List Digest} {d : Digest}
    (h : checkProtocolFeature pfs t current before d = .ok ()) :
    d ∉ current ∧ ∃ f, pfs.find d = some f ∧
      ∀ e ∈ f.dependencies, e ∈ current ∨ e ∈ before := by
  obtain ⟨-, h⟩ := seq_eq_ok.mp h
  obtain ⟨hnew, h⟩ := seq_eq_ok.mp h
  rw [eosAssert_eq_ok] at hnew h
  obtain ⟨f, hfind, hall⟩ := validateDependencies_eq_true.mp h
  exact ⟨of_decide_eq_true hnew, f, hfind, fun e he => of_decide_eq_true (hall e he)⟩

theorem checkProtocolFeaturesAfter_eq_ok {before features : List Digest}
    (h : checkProtocolFeaturesAfter pfs t current before features = .ok ()) :
    ∀ front d back, features = front ++ d :: back → d ∉ current ∧
      ∃ f, pfs.find d = some f ∧ ∀ e ∈ f.dependencies, e ∈ current ∨ e ∈ before ++ front := by
  induction features generalizing before with
  | nil =>
    intro front d back heq
    simp at heq
  | cons f features ih =>
    obtain ⟨hfirst, hrest⟩ := seq_eq_ok.mp h
    intro front d back heq
    cases front with
    | nil =>
      cases heq
      rw [append_nil]
      exact checkProtocolFeature_eq_ok hfirst
    | cons f' front =>
      obtain ⟨rfl, hback⟩ := List.cons.inj heq
      rw [append_cons]
      exact ih hrest front d back hback

variable {trigger : BuiltinProtocolFeatureT → Except Failure Unit} {blockNum : UInt32}
  {pre seen : List Digest} {l l' : ActivationLoop} {d : Digest}

theorem mark_eq_ok {f : ProtocolFeature} : l.mark f d = .ok l' ↔
    (find l.marks d = none ∧ f.preactivationRequired = false ∧
      l' = { l with marks := assign l.marks d true }) ∨
    (find l.marks d = some false ∧
      l' = { l with marks := assign l.marks d true, count := l.count + 1 }) := by
  unfold ActivationLoop.mark
  cases hfind : find l.marks d with
  | none =>
    rw [seq_eq_ok, eosAssert_eq_ok]
    simp [pure, Except.pure, @eq_comm _ l']
  | some b =>
    rw [seq_eq_ok, eosAssert_eq_ok]
    simp [pure, Except.pure, @eq_comm _ l']

structure Marked (pfs : ProtocolFeatureSet) (pre seen : List Digest) (l : ActivationLoop) :
    Prop where
  set_eq : l.protocolFeatures.protocolFeatureSet = pfs
  nodup : seen.Nodup
  marks : ∀ d, find l.marks d =
    if d ∈ seen then some true else if d ∈ pre then some false else none
  count : l.count = (pre.toFinset ∩ seen.toFinset).card
  preactivated : ∀ d ∈ seen, ∀ f, pfs.find d = some f → f.preactivationRequired = true → d ∈ pre

theorem find_preactivatedMarks (pre : List Digest) (d : Digest) :
    find (preactivatedMarks pre) d = if d ∈ pre then some false else none := by
  have hfold : ∀ marks, find (pre.foldl (fun marks d => emplace marks (d, false)) marks) d =
      (find marks d).or (if d ∈ pre then some false else none) := by
    induction pre with
    | nil => simp
    | cons e pre ih =>
      intro marks
      rw [foldl_cons, ih, find_emplace, Option.or_assoc]
      congr 1
      by_cases hde : e = d
      · simp [hde]
      · simp [hde, Ne.symm hde]
  exact hfold []

theorem marked_start {m : ProtocolFeatureManager} (hm : m.protocolFeatureSet = pfs) :
    Marked pfs pre [] ⟨preactivatedMarks pre, 0, m⟩ where
  set_eq := hm
  nodup := nodup_nil
  marks d := by simpa using find_preactivatedMarks pre d
  count := by simp
  preactivated := by simp

theorem Marked.mark (h : Marked pfs pre seen l) {f : ProtocolFeature}
    (hmark : l.mark f d = .ok l') :
    d ∉ seen ∧ (f.preactivationRequired = true → d ∈ pre) ∧
      l' = { l with marks := assign l.marks d true,
                    count := l.count + if d ∈ pre then 1 else 0 } := by
  have hmarks := h.marks d
  obtain ⟨hnone, hreq, rfl⟩ | ⟨hfalse, rfl⟩ := mark_eq_ok.mp hmark
  · rw [hnone] at hmarks
    split_ifs at hmarks with hseen hpre
    exact ⟨hseen, by simp [hreq], by simp [hpre]⟩
  · rw [hfalse] at hmarks
    split_ifs at hmarks with hseen hpre
    · cases hmarks
    · exact ⟨hseen, fun _ => hpre, by simp [hpre]⟩

theorem card_inter_concat (pre seen : List Digest) (hnew : d ∉ seen) :
    (pre.toFinset ∩ (seen ++ [d]).toFinset).card =
      (pre.toFinset ∩ seen.toFinset).card + if d ∈ pre then 1 else 0 := by
  have hset : (seen ++ [d]).toFinset = insert d seen.toFinset := by
    ext e
    simp
  rw [hset]
  split_ifs with hpre
  · rw [inter_insert_of_mem (mem_toFinset.mpr hpre), card_insert_of_notMem]
    simp [hnew]
  · rw [inter_insert_of_notMem (by simpa using hpre), add_zero]

theorem Marked.activate (h : Marked pfs pre seen l)
    (hact : l.activate trigger blockNum d = .ok l') : Marked pfs pre (seen ++ [d]) l' := by
  obtain ⟨f, hget, hact⟩ := bind_eq_ok.mp hact
  obtain ⟨l₁, hmark, hact⟩ := bind_eq_ok.mp hact
  obtain ⟨-, hact⟩ := seq_eq_ok.mp hact
  obtain ⟨m, hm, hl'⟩ := bind_eq_ok.mp hact
  simp only [pure, Except.pure, Except.ok.injEq] at hl'
  subst hl'
  obtain ⟨hnew, hreq, rfl⟩ := h.mark hmark
  rw [h.set_eq, getProtocolFeature_eq_ok] at hget
  constructor
  case set_eq =>
    obtain ⟨-, feature, -, -, codename, -, entry, -, -, rfl⟩ :=
      ProtocolFeatureManager.activateFeature_eq_ok.mp hm
    exact h.set_eq
  case nodup => exact List.Nodup.append h.nodup (List.nodup_singleton d) (by simpa using hnew)
  case marks =>
    intro e
    rw [find_assign, h.marks e]
    by_cases he : e = d
    · simp [he]
    · simp [he]
  case count =>
    rw [card_inter_concat pre seen hnew, h.count]
  case preactivated =>
    intro e he g hg hrequired
    obtain he | he := List.mem_append.mp he
    · exact h.preactivated e he g hg hrequired
    · obtain rfl := List.mem_singleton.mp he
      rw [hget, Option.some.injEq] at hg
      exact hreq (hg ▸ hrequired)

structure Started (pfs : ProtocolFeatureSet) (pre features : List Digest) : Prop where
  nodup : features.Nodup
  preactivated : ∀ d ∈ features, ∀ f, pfs.find d = some f → f.preactivationRequired = true →
    d ∈ pre
  complete : ∀ d ∈ pre, d ∈ features

theorem subset_of_card_inter {features : List Digest}
    (h : (pre.toFinset ∩ features.toFinset).card = pre.length) : ∀ d ∈ pre, d ∈ features := by
  intro d hd
  have hle : pre.toFinset.card ≤ (pre.toFinset ∩ features.toFinset).card :=
    (toFinset_card_le pre).trans h.ge
  have heq := eq_of_subset_of_card_le inter_subset_left hle
  have hmem : d ∈ pre.toFinset ∩ features.toFinset := by
    rw [heq]
    exact mem_toFinset.mpr hd
  exact mem_toFinset.mp (mem_inter.mp hmem).2

theorem startBlockFeatures_eq_ok {pso pso' : ProtocolStateObject}
    {m m' : ProtocolFeatureManager} {features : List Digest}
    (hm : m.protocolFeatureSet = pfs)
    (h : startBlockFeatures trigger blockNum pso m features = .ok (pso', m')) :
    Started pfs pso.preactivatedProtocolFeatures features ∧ m'.protocolFeatureSet = pfs ∧
      pso'.activatedProtocolFeatures =
        pso.activatedProtocolFeatures ++ features.map fun d => (d, blockNum) := by
  unfold startBlockFeatures at h
  split at h
  case isTrue hempty =>
    obtain rfl := List.isEmpty_iff.mp hempty
    obtain ⟨hzero, h⟩ := seq_eq_ok.mp h
    obtain ⟨rfl, rfl⟩ := h
    have hpre := eq_nil_of_length_eq_zero (of_decide_eq_true (eosAssert_eq_ok.mp hzero))
    exact ⟨⟨nodup_nil, by simp, by simp [hpre]⟩, hm, by simp⟩
  case isFalse =>
    obtain ⟨l, hloop, h⟩ := bind_eq_ok.mp h
    obtain ⟨hall, h⟩ := seq_eq_ok.mp h
    obtain ⟨rfl, rfl⟩ := h
    have hl : Marked pfs pso.preactivatedProtocolFeatures ([] ++ features) l :=
      foldlM_eq_ok_induction (fun _ _ _ _ => Marked.activate) (marked_start hm) hloop
    refine ⟨⟨hl.nodup, hl.preactivated, ?_⟩, hl.set_eq, rfl⟩
    obtain hzero | hcount := of_decide_eq_true (eosAssert_eq_ok.mp hall)
    · simp [eq_nil_of_length_eq_zero hzero]
    · exact subset_of_card_inter (hl.count ▸ hcount)

def activationSequence (blocks : List FeatureBlock) : List Digest :=
  blocks.flatMap FeatureBlock.newFeatures

theorem activationSequence_concat (blocks : List FeatureBlock) (b : FeatureBlock) :
    activationSequence (blocks ++ [b]) = activationSequence blocks ++ b.newFeatures := by
  simp [activationSequence]

theorem append_eq_append_cons {α : Type} {xs ys front back : List α} {d : α}
    (h : xs ++ ys = front ++ d :: back) :
    (∃ mid, xs = front ++ d :: mid) ∨ ∃ mid, front = xs ++ mid ∧ ys = mid ++ d :: back := by
  obtain ⟨mid, rfl, rfl⟩ | ⟨mid, rfl, hmid⟩ := append_eq_append_iff.mp h
  · exact .inr ⟨mid, rfl, rfl⟩
  · cases mid with
    | nil => exact .inr ⟨[], by simp, by simpa using hmid.symm⟩
    | cons e mid =>
      cases hmid
      exact .inl ⟨mid, rfl⟩

structure FeatureClosed (pfs : ProtocolFeatureSet) (blocks : List FeatureBlock)
    (s : FeatureState) : Prop where
  set_eq : s.protocolFeatures.protocolFeatureSet = pfs
  activated : s.activated = (activationSequence blocks).toFinset
  inState : s.activatedInState.map Prod.fst = activationSequence blocks
  nodup : (activationSequence blocks).Nodup
  ordered : ∀ front d back, activationSequence blocks = front ++ d :: back →
    ∃ f, pfs.find d = some f ∧ ∀ e ∈ f.dependencies, e ∈ front
  started : ∀ b ∈ blocks, Started pfs b.preactivated b.newFeatures

open FeatureState

theorem featureClosed_genesis : FeatureClosed pfs [] (genesis pfs) where
  set_eq := rfl
  activated := rfl
  inState := rfl
  nodup := nodup_nil
  ordered front d back h := by simp [activationSequence] at h
  started := by simp

theorem FeatureClosed.applyBlock
    {blocks : List FeatureBlock}
    {b : FeatureBlock} {s s' : FeatureState} (h : FeatureClosed pfs blocks s)
    (hb : s.applyBlock trigger b = .ok s') : FeatureClosed pfs (blocks ++ [b]) s' := by
  obtain ⟨hcheck, hb⟩ := seq_eq_ok.mp hb
  obtain ⟨⟨pso, m⟩, hstart, hb⟩ := bind_eq_ok.mp hb
  simp only [pure, Except.pure, Except.ok.injEq] at hb
  subst hb
  rw [h.set_eq, h.activated] at hcheck
  have hfeatures := checkProtocolFeaturesAfter_eq_ok hcheck
  obtain ⟨hstarted, hset, hstate⟩ := startBlockFeatures_eq_ok h.set_eq hstart
  constructor
  case set_eq => exact hset
  case activated => simp [activationSequence_concat, h.activated]
  case inState =>
    simp [hstate, activationSequence_concat, h.inState, Function.comp_def]
  case nodup =>
    rw [activationSequence_concat, nodup_append]
    refine ⟨h.nodup, hstarted.nodup, fun d hd e he hde => ?_⟩
    subst hde
    obtain ⟨front, back, hsplit⟩ := append_of_mem he
    exact (hfeatures front d back hsplit).1 (mem_toFinset.mpr hd)
  case ordered =>
    intro front d back hsplit
    rw [activationSequence_concat] at hsplit
    obtain ⟨mid, hold⟩ | ⟨mid, rfl, hnew⟩ := append_eq_append_cons hsplit
    · exact h.ordered front d mid hold
    · obtain ⟨-, f, hfind, hdeps⟩ := hfeatures mid d back hnew
      exact ⟨f, hfind, fun e he => by simpa using hdeps e he⟩
  case started =>
    exact forall_mem_append.mpr ⟨h.started, forall_mem_singleton.mpr hstarted⟩

/-- Over a chain no feature is activated twice, each is activated after those it depends on,
by digest or as builtin feature, and each block activates exactly what is preactivated and
needs to be. -/
theorem activated_features_closed {digest : BuiltinProtocolFeature → Digest}
    {features : List BuiltinProtocolFeature} {pfs : ProtocolFeatureSet}
    {trigger : BuiltinProtocolFeatureT → Except Failure Unit} {blocks : List FeatureBlock}
    {s : FeatureState} (hpfs : addFeatures digest features = .ok pfs)
    (h : applyBlocks trigger pfs blocks = .ok s) :
    s.activatedInState.map Prod.fst = activationSequence blocks ∧
    (activationSequence blocks).Nodup ∧
    (∀ front d back, activationSequence blocks = front ++ d :: back →
      ∃ f, pfs.find d = some f ∧ (∀ e ∈ f.dependencies, e ∈ front) ∧
        ∃ codename spec, f.builtinFeature = some codename ∧
          builtinProtocolFeatureCodenames codename = some spec ∧
          ∀ b ∈ spec.builtinDependencies, ∃ e ∈ front, ∃ g, pfs.find e = some g ∧
            g.builtinFeature = some b) ∧
    (∀ b ∈ blocks, ∀ d ∈ b.newFeatures, ∀ f, pfs.find d = some f →
      f.preactivationRequired = true → d ∈ b.preactivated) ∧
    ∀ b ∈ blocks, ∀ d ∈ b.preactivated, d ∈ b.newFeatures := by
  have hs : FeatureClosed pfs ([] ++ blocks) s :=
    foldlM_eq_ok_induction (fun _ _ _ _ => FeatureClosed.applyBlock) featureClosed_genesis h
  refine ⟨hs.inState, hs.nodup, fun front d back hsplit => ?_,
    fun b hb => (hs.started b hb).preactivated, fun b hb => (hs.started b hb).complete⟩
  obtain ⟨f, hfind, hdeps⟩ := hs.ordered front d back hsplit
  obtain ⟨codename, spec, hcode, hspec, hbuiltin⟩ :=
    hasBuiltinDependencies_of_addFeatures hpfs d f hfind
  refine ⟨f, hfind, hdeps, codename, spec, hcode, hspec, fun b hb => ?_⟩
  obtain ⟨e, he, hg⟩ := hbuiltin b hb
  exact ⟨e, hdeps e he, hg⟩

theorem activated_features_of_two_blocks :
    addFeatures BuiltinProtocolFeature.descriptionDigest
      [⟨.preactivateFeature, 1, [], ⟨0, false, true⟩⟩,
        ⟨.onlyLinkToExistingPermission, 2, [1], ⟨0, true, true⟩⟩] = .ok twoFeatures ∧
    ∃ s, applyBlocks (fun _ => .ok ()) twoFeatures
      [⟨2, ⟨10⟩, [1], []⟩, ⟨3, ⟨11⟩, [2], [2]⟩] = .ok s ∧
    s.activatedInState.map Prod.fst = [1, 2] ∧
    ∃ f, twoFeatures.find 2 = some f ∧ ∀ e ∈ f.dependencies, e ∈ [(1 : Digest)] := by
  have hpfs : addFeatures BuiltinProtocolFeature.descriptionDigest
      [⟨.preactivateFeature, 1, [], ⟨0, false, true⟩⟩,
        ⟨.onlyLinkToExistingPermission, 2, [1], ⟨0, true, true⟩⟩] = .ok twoFeatures := rfl
  obtain ⟨s, hs⟩ := isOk_iff.mp (by decide +kernel :
    (applyBlocks (fun _ => .ok ()) twoFeatures
      [⟨2, ⟨10⟩, [1], []⟩, ⟨3, ⟨11⟩, [2], [2]⟩]).isOk = true)
  obtain ⟨hstate, -, hordered, -⟩ := activated_features_closed hpfs hs
  obtain ⟨f, hfind, hdeps, -⟩ := hordered [1] 2 [] rfl
  exact ⟨hpfs, s, hs, hstate, f, hfind, hdeps⟩

end FlonCore
