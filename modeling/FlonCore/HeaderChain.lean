import FlonCore.FinalityCoreRuns
import FlonCore.HeaderTransition

/-!
# Chains of header states

A chain starts at the Savanna genesis state and grows by blocks that were
assembled or received, each with a claim that meets the preconditions of the
core. `Linked` is what holds between the newest state and the chain below it:
the core has the shape of its block number, and its references are those of
blocks of the chain. A block whose number wrapped to zero ends its chain.
-/

namespace FlonCore
open Library FinalityCore List
open BlockHeaderState
variable {β : Type} (env : HeaderEnv β)

structure GenesisBlock (bsp : BlockStateLegacy β) (fExt : FinalityExtension) : Prop where
  id_eq : bsp.blockId = bsp.header.calculateId env
  num_pos : 0 < bsp.header.blockNum
  exts_eq : validateAndExtractHeaderExtensions env.codec bsp.header = .ok bsp.headerExts
  extension : extractHeaderExtension env.codec bsp.header finalityExtensionId =
    .ok (some (.finality fExt))
  claim_eq : fExt.qcClaim = ⟨bsp.header.blockNum, false⟩
  generation_eq : ∀ d, fExt.newFinalizerPolicyDiff = some d → d.generation = 1

def IsSavannaGenesis (G : BlockHeaderState β) : Prop :=
  ∃ bsp fExt, GenesisBlock env bsp fExt ∧ bsp.createIfGenesisBlock env = .returns G

variable (S S' : BlockHeaderState β)

def BuiltOn : Prop :=
  (∃ input, input.parentId = S.blockId ∧ S.next env input = .returns S') ∨
    ∃ h validator, S.nextOfHeader env h validator = .returns S'

structure Extends : Prop where
  built : BuiltOn env S S'
  claim_ge : ∀ fExt, S'.headerExts.finality = some fExt → S.core.latestQcClaim.le fExt.qcClaim
  claim_le : ∀ fExt, S'.headerExts.finality = some fExt →
    fExt.qcClaim.blockNum ≤ S.core.currentBlockNum

def NumbersPolicies : Prop :=
  ∀ fExt d, S'.headerExts.finality = some fExt → fExt.newFinalizerPolicyDiff = some d →
    d.generation = u32 (S.finalizerPolicyGeneration + 1)

/-- `HeaderChain env chain S`: the blocks from the genesis block up to `S`, oldest first. -/
inductive HeaderChain (env : HeaderEnv β) : List (BlockHeaderState β) → BlockHeaderState β → Prop
  | genesis {G : BlockHeaderState β} : IsSavannaGenesis env G → HeaderChain env [G] G
  | next {chain : List (BlockHeaderState β)} {S S' : BlockHeaderState β} :
      HeaderChain env chain S → Extends env S S' → NumbersPolicies S S' →
      HeaderChain env (chain ++ [S']) S'

section Step
variable {env : HeaderEnv β} {S S' : BlockHeaderState β}

theorem calculateId_num (env : HeaderEnv β) (h : BlockHeader β) :
    numFromId (h.calculateId env) = h.blockNum :=
  numFromId_stampId _ h.blockNum_lt

theorem makeBlockRef_blockNum {ref : BlockRef} (h : S.makeBlockRef env = some ref) :
    ref.blockNum = numFromId S.blockId := by
  obtain ⟨digest, -, rfl⟩ := Option.map_eq_some_iff.mp h
  rfl

theorem finished_of_finishNext {header : BlockHeader β} {exts : HeaderExtensionMultimap}
    {newFeatures : List Digest} {fExt : FinalityExtension}
    (h : S.finishNext env header exts newFeatures fExt = .returns S')
    (hprev : header.previous = S.blockId) (hf : exts.finality = some fExt) :
    BlockHeaderState.Finished env S S'.header S'.headerExts fExt S' ∧
      S'.header.previous = S.blockId ∧ S'.headerExts.finality = some fExt := by
  have hfin := finishNext_finished h
  obtain rfl := hfin.header_eq
  obtain rfl := hfin.exts_eq
  exact ⟨hfin, hprev, hf⟩

theorem BuiltOn.finished (h : BuiltOn env S S') :
    ∃ fExt, BlockHeaderState.Finished env S S'.header S'.headerExts fExt S' ∧
      S'.header.previous = S.blockId ∧ S'.headerExts.finality = some fExt := by
  rcases h with ⟨input, hparent, hnext⟩ | ⟨header, validator, hnext⟩
  · obtain ⟨fExt, -, hfinish⟩ := next_eq_returns hnext
    exact ⟨fExt, finished_of_finishNext hfinish hparent (inputExtensions_finality _ _)⟩
  · obtain ⟨exts, newFeatures, fExt, hrec, hfinish⟩ :=
      nextOfHeader_eq_returns hnext
    exact ⟨fExt, finished_of_finishNext hfinish hrec.previous_eq hrec.finality_eq⟩

end Step

structure Linked (chain : List (BlockHeaderState β)) (S : BlockHeaderState β) : Prop where
  shape : CoreShape S.blockNum S.core
  id_num : numFromId S.blockId = S.blockNum
  final_pos : 0 < S.core.lastFinalBlockNum
  claim_lt : S.core.refs = [] ∨ S.core.latestQcClaim.blockNum < S.blockNum
  mem : S ∈ chain
  sorted : chain.Pairwise fun A B => A.blockNum < B.blockNum
  le_tip : ∀ A ∈ chain, A.blockNum ≤ S.blockNum
  refs_defined : ∀ A ∈ chain, ∃ ref, A.makeBlockRef env = some ref
  reference : ∀ n, S.core.lastFinalBlockNum ≤ n → n < S.blockNum →
    ∃ A ∈ chain, A.blockNum = n ∧ ∃ ref, A.makeBlockRef env = some ref ∧
      S.core.getBlockReference n = some ref

structure Wrapped : Prop where
  num_eq : S.blockNum = 0
  current_eq : S.core.currentBlockNum = 0
  claim_pos : 0 < S.core.latestQcClaim.blockNum

section Invariant
variable {env : HeaderEnv β} {chain : List (BlockHeaderState β)} {S S' : BlockHeaderState β}

theorem Wrapped.not_extends (h : Wrapped S) (hext : Extends env S S') : False := by
  obtain ⟨fExt, -, -, hf⟩ := hext.built.finished
  have hge := QcClaim.blockNum_le (hext.claim_ge fExt hf)
  have hle := hext.claim_le fExt hf
  have hcur := h.current_eq
  have hpos := h.claim_pos
  omega

theorem exists_makeBlockRef {height : ℕ} (hshape : CoreShape height S.core)
    (hclaim : S.core.refs = [] ∨ S.core.latestQcClaim.blockNum < height) :
    ∃ ref, S.makeBlockRef env = some ref := by
  obtain ⟨claimed, hclaimed⟩ : ∃ claimed, S.latestQcClaimRef = some claimed := by
    unfold latestQcClaimRef
    by_cases hgen : S.core.isGenesisCore
    · exact ⟨_, if_pos hgen⟩
    · have hlt := hclaim.resolve_left fun hnil => hgen (by simp [isGenesisCore, hnil])
      obtain ⟨r, hr, -⟩ := hshape.getBlockReference hshape.final_le_claim hlt
      exact ⟨r, by rw [if_neg hgen, hr]⟩
  exact ⟨_, by
    rw [makeBlockRef, computeFinalityDigest, hclaimed]
    rfl⟩

theorem IsSavannaGenesis.created (h : IsSavannaGenesis env S) :
    ∃ bsp fExt policy, GenesisBlock env bsp fExt ∧ bsp.genesisPolicy env = .returns policy ∧
      S.blockId = bsp.blockId ∧ S.header = bsp.header ∧ S.headerExts = bsp.headerExts ∧
      S.core = .createCoreForGenesisBlock bsp.blockId bsp.header.timestamp ∧
      S.activeFinalizerPolicy = policy ∧ S.pendingFinalizerPolicy = none ∧
      S.proposedFinalizerPolicies = [] ∧ S.finalizerPolicyGeneration = 1 := by
  obtain ⟨bsp, fExt, hbsp, hS⟩ := h
  obtain ⟨policy, hpolicy, hS⟩ := Outcome.bind_eq_returns.mp hS
  cases hS
  exact ⟨bsp, fExt, policy, hbsp, hpolicy, rfl, rfl, rfl, rfl, rfl, rfl, rfl, rfl⟩

theorem IsSavannaGenesis.linked (h : IsSavannaGenesis env S) : Linked env [S] S := by
  obtain ⟨bsp, fExt, policy, hbsp, -, hid, hheader, -, hcore, -⟩ := h.created
  have hnum : numFromId bsp.blockId = S.blockNum := by
    rw [hbsp.id_eq, calculateId_num, blockNum, hheader]
  have hpos : 0 < S.blockNum := by
    rw [blockNum, hheader]
    exact hbsp.num_pos
  have hshape : CoreShape S.blockNum S.core := by
    rw [hcore, ← hnum]
    exact genesis_coreShape _ _
  have hfinal : S.core.lastFinalBlockNum = S.blockNum := by
    rw [hcore, genesis_lastFinalBlockNum, hnum]
  have hrefs : S.core.refs = [] := by
    rw [hcore]
    rfl
  refine ⟨hshape, by rw [hid, hnum], by omega, .inl hrefs, mem_singleton_self S,
    pairwise_singleton _ S, ?_, ?_, fun n hf hn => by omega⟩
  · intro A hA
    rw [mem_singleton.mp hA]
  · intro A hA
    rw [mem_singleton.mp hA]
    exact exists_makeBlockRef hshape (.inl hrefs)

section
variable (h : Linked env chain S)
include h

theorem Linked.blockNum_next (hprev : S'.header.previous = S.blockId) :
    S'.blockNum = u32 (S.blockNum + 1) := by
  rw [blockNum, BlockHeader.blockNum, hprev, h.id_num]

theorem Linked.blockNum_succ (hext : Extends env S S') (hnum : S'.blockNum ≠ 0) :
    S'.blockNum = S.blockNum + 1 := by
  obtain ⟨-, -, hprev, -⟩ := hext.built.finished
  have hnext := h.blockNum_next hprev
  have hlt : S.blockNum < 2 ^ 32 := S.header.blockNum_lt
  rcases Nat.lt_or_ge (S.blockNum + 1) (2 ^ 32) with hsmall | hbig
  · rw [hnext, u32_of_lt hsmall]
  · rw [show S.blockNum + 1 = 2 ^ 32 by omega] at hnext
    exact absurd hnext hnum

theorem Linked.current_eq : S.core.currentBlockNum = S.blockNum := by
  rw [h.shape.current_eq]
  exact Nat.mod_eq_of_lt S.header.blockNum_lt

theorem Linked.num_pos : 0 < S.blockNum :=
  h.final_pos.trans_le (h.shape.final_le_front.trans h.shape.front_le_height)

end

/-- What one block does to the core of its parent: the link it selects, the core that results
and the claim it carries. -/
structure CoreStep (env : HeaderEnv β) (S S' : BlockHeaderState β) (fExt : FinalityExtension)
    (ref : BlockRef) (l : QcLink) : Prop where
  finished : BlockHeaderState.Finished env S S'.header S'.headerExts fExt S'
  finality : S'.headerExts.finality = some fExt
  ref_eq : S.makeBlockRef env = some ref
  previous : S'.header.previous = S.blockId
  link : S.core.links[l.sourceBlockNum - S.core.frontLink.sourceBlockNum]? = some l
  core_eq : S'.core = S.core.advance l ref fExt.qcClaim
  shape : CoreShape (S.blockNum + 1) S'.core
  final_mono : S.core.lastFinalBlockNum ≤ S'.core.lastFinalBlockNum
  final_eq : S'.core.lastFinalBlockNum = l.targetBlockNum
  final_le_claim : S'.core.lastFinalBlockNum ≤ S'.core.latestQcClaim.blockNum
  claim_eq : S'.core.latestQcClaim = fExt.qcClaim
  claim_mono : S.core.latestQcClaim.blockNum ≤ fExt.qcClaim.blockNum
  claim_le : fExt.qcClaim.blockNum ≤ S.blockNum

theorem Extends.core_next (hext : Extends env S S') (hshape : CoreShape S.blockNum S.core)
    (hid : numFromId S.blockId = S.blockNum) : ∃ fExt ref l, CoreStep env S S' fExt ref l := by
  obtain ⟨fExt, hfin, hprev, hf⟩ := hext.built.finished
  obtain ⟨ref, href, hnext⟩ := hfin.core_next
  have hlt : S.blockNum < 2 ^ 32 := S.header.blockNum_lt
  have hcur := hshape.current_eq
  rw [Nat.mod_eq_of_lt hlt] at hcur
  have hge := hext.claim_ge fExt hf
  have hle := hext.claim_le fExt hf
  have hrefNum : ref.blockNum = S.core.currentBlockNum := by
    rw [makeBlockRef_blockNum href, hid, hcur]
  obtain ⟨l, -, hl, -, -, -, -, hmono, hclaim, hadv, hnextShape⟩ :=
    hshape.next hlt hrefNum hge hle
  rw [hadv, Option.some.injEq] at hnext
  have hfinal : S'.core.lastFinalBlockNum = l.targetBlockNum := by
    rw [← hnext]
    exact advance_lastFinalBlockNum hl
  have hlatest : S'.core.latestQcClaim = fExt.qcClaim := by
    rw [← hnext]
    exact advance_latestQcClaim
  refine ⟨fExt, ref, l, hfin, hf, href, hprev, hl, hnext.symm, hnext ▸ hnextShape, by omega, hfinal,
    by rw [hlatest]; omega, hlatest, QcClaim.blockNum_le hge, by omega⟩

theorem Linked.core_next (h : Linked env chain S) (hext : Extends env S S') :
    ∃ fExt ref l, CoreStep env S S' fExt ref l :=
  hext.core_next h.shape h.id_num

theorem Linked.next (h : Linked env chain S) (hext : Extends env S S') :
    Linked env (chain ++ [S']) S' ∨ Wrapped S' := by
  obtain ⟨fExt, ref, l, hstep⟩ := h.core_next hext
  have hmono := hstep.final_mono
  have hfinal := hstep.final_eq
  have hfc := hstep.final_le_claim
  have hle := hstep.claim_le
  have hshape := hstep.shape
  have hnum := h.blockNum_next hstep.previous
  have hlt : S.blockNum < 2 ^ 32 := S.header.blockNum_lt
  have hpos := h.final_pos
  rcases Nat.lt_or_ge (S.blockNum + 1) (2 ^ 32) with hsmall | hwrap
  · left
    rw [u32_of_lt hsmall] at hnum
    have hclaim : S'.core.refs = [] ∨ S'.core.latestQcClaim.blockNum < S'.blockNum := by
      rw [hstep.claim_eq, hnum]
      exact .inr (by omega)
    have hid : numFromId S'.blockId = S'.blockNum := by
      rw [hstep.finished.id_eq, calculateId_num, blockNum]
    rw [← hnum] at hshape
    refine ⟨hshape, hid, by omega, hclaim, by simp, ?_, ?_, ?_, ?_⟩
    · refine pairwise_append_one h.sorted fun A hA => ?_
      have hA' := h.le_tip A hA
      omega
    · intro A hA
      rcases mem_append.mp hA with hA | hA
      · have hA' := h.le_tip A hA
        omega
      · rw [mem_singleton.mp hA]
    · exact forall_mem_append.mpr
        ⟨h.refs_defined, forall_mem_singleton.mpr (exists_makeBlockRef hshape hclaim)⟩
    · intro n hn hlt'
      rcases Nat.lt_or_ge n S.blockNum with hn' | hn'
      · obtain ⟨A, hA, hAn, r, hr, hget⟩ := h.reference n (by omega) hn'
        refine ⟨A, mem_append_left _ hA, hAn, r, hr, ?_⟩
        rw [hstep.core_eq, advance_getBlockReference_of_lt h.shape hstep.link (by omega) hn', hget]
      · obtain rfl : n = S.blockNum := by omega
        refine ⟨S, mem_append_left _ h.mem, rfl, ref, hstep.ref_eq, ?_⟩
        rw [hstep.core_eq]
        exact advance_getBlockReference_self h.shape hstep.link (by omega) hlt
  · right
    have hheight : S.blockNum + 1 = 2 ^ 32 := by omega
    refine ⟨by rw [hnum, hheight]; rfl, ?_, by omega⟩
    rw [hshape.current_eq, hheight]
    rfl

theorem HeaderChain.linked (h : HeaderChain env chain S) : Linked env chain S ∨ Wrapped S := by
  induction h with
  | genesis hG => exact .inl hG.linked
  | next hchain hext hpol ih =>
    rcases ih with hlinked | hwrapped
    · exact hlinked.next hext
    · exact (hwrapped.not_extends hext).elim

theorem Linked.ancestor_reference (h : Linked env chain S) {A : BlockHeaderState β} (hA : A ∈ chain)
    (hlow : S.core.lastFinalBlockNum ≤ A.blockNum) (hlt : A.blockNum < S.blockNum) :
    numFromId A.blockId = A.blockNum ∧
      ∃ ref, S.core.getBlockReference A.blockNum = some ref ∧ ref.blockId = A.blockId := by
  obtain ⟨A', hA', hnum, ref, href, hget⟩ := h.reference _ hlow hlt
  obtain rfl : A' = A :=
    inj_on_of_nodup_map (pairwise_map.mpr (h.sorted.imp fun hlt => hlt.ne)) hA' hA hnum
  obtain ⟨ref', hget', hrefNum⟩ := h.shape.getBlockReference hlow hlt
  cases hget.symm.trans hget'
  obtain ⟨digest, -, rfl⟩ := Option.map_eq_some_iff.mp href
  exact ⟨hrefNum, _, hget, rfl⟩

/-- A block extends exactly its ancestors from the last final one on, and the question always
has an answer: every index it reads is in bounds. -/
theorem extends_iff_ancestor (h : HeaderChain env chain S) (hnum : S.blockNum ≠ 0) (id : BlockId) :
    (S.core.extendsBlock id).isSome = true ∧ (S.core.extendsBlock id = some true ↔
      ∃ A ∈ chain, A.blockId = id ∧ S.core.lastFinalBlockNum ≤ A.blockNum ∧
        A.blockNum < S.blockNum) := by
  have hlinked := h.linked.resolve_right fun hwrapped => hnum hwrapped.num_eq
  rw [extendsBlock, hlinked.current_eq]
  split_ifs with hrange
  · obtain ⟨A, hA, hAn, -⟩ := hlinked.reference _ hrange.1 hrange.2
    obtain ⟨-, ref, hget, hid⟩ := hlinked.ancestor_reference hA (by omega) (by omega)
    rw [← hAn, hget]
    refine ⟨rfl, ?_⟩
    simp only [Option.map_some, Option.some.injEq, decide_eq_true_eq, hid]
    constructor
    · intro heq
      exact ⟨A, hA, heq, by omega, by omega⟩
    · rintro ⟨A', hA', rfl, hlow, hlt⟩
      obtain ⟨hnum', ref', hget', hid'⟩ := hlinked.ancestor_reference hA' hlow hlt
      rw [← hnum', ← hAn, hget] at hget'
      cases hget'
      exact hid.symm.trans hid'
  · refine ⟨rfl, iff_of_false (by simp) ?_⟩
    rintro ⟨A, hA, rfl, hlow, hlt⟩
    rw [(hlinked.ancestor_reference hA hlow hlt).1] at hrange
    exact hrange ⟨hlow, hlt⟩

end Invariant

def zeroHashEnv : HeaderEnv BlockHeaderExtension where
  codec := .identity
  hash := ⟨fun _ => 0, fun _ => 0, fun _ => 0, fun _ => 0, fun _ => 0, fun _ => 0, fun _ => 0,
    fun _ => 0⟩

/-- The extension of a genesis block with the given number, proposing a policy without
finalizers. -/
def plainExtension (num : ℕ) : FinalityExtension :=
  ⟨⟨u32 num, false⟩, some ⟨1, 0, ⟨[], []⟩⟩, none, Nat.mod_lt _ (Nat.two_pow_pos 32)⟩

def plainLegacy (num : ℕ) : BlockStateLegacy BlockHeaderExtension where
  blockId := stampId 0 (u32 num)
  header :=
    { timestamp := ⟨100⟩
      producer := 1
      confirmed := 0
      previous := stampId 0 (num - 1)
      transactionMroot := 0
      actionMroot := 0
      scheduleVersion := 0
      newProducers := none
      headerExtensions := [(finalityExtensionId, .finality (plainExtension num))] }
  activatedProtocolFeatures := ∅
  activeSchedule := ⟨1, [⟨1, ⟨1, []⟩⟩]⟩
  headerExts := [(finalityExtensionId, .finality (plainExtension num))]

def plainGenesis (num : ℕ) : BlockHeaderState BlockHeaderExtension where
  blockId := stampId 0 (u32 num)
  header := (plainLegacy num).header
  activatedProtocolFeatures := ∅
  core := .createCoreForGenesisBlock (stampId 0 (u32 num)) ⟨100⟩
  activeFinalizerPolicy := ⟨1, 0, []⟩
  activeProposerPolicy := ⟨0, ⟨.zero, ⟨1, [⟨1, ⟨1, []⟩⟩]⟩⟩⟩
  latestProposedProposerPolicy := none
  latestPendingProposerPolicy := none
  proposedFinalizerPolicies := []
  pendingFinalizerPolicy := none
  latestQcClaimBlockActiveFinalizerPolicy := none
  finalizerPolicyGeneration := 1
  lastPendingFinalizerPolicyDigest := 0
  lastPendingFinalizerPolicyStartTimestamp := ⟨100⟩
  headerExts := [(finalityExtensionId, .finality (plainExtension num))]

theorem plainGenesis_isSavannaGenesis {num : ℕ} (hpos : 0 < num) (hlt : num < 2 ^ 32) :
    IsSavannaGenesis zeroHashEnv (plainGenesis num) := by
  have hnum : (plainLegacy num).header.blockNum = u32 num := by
    simp only [plainLegacy, BlockHeader.blockNum]
    rw [numFromId_stampId 0 (by omega), show num - 1 + 1 = num by omega]
  refine ⟨plainLegacy num, plainExtension num, ⟨?_, ?_, rfl, rfl, ?_, ?_⟩, rfl⟩
  · rw [BlockHeader.calculateId, hnum]
    rfl
  · rw [hnum, u32_of_lt hlt]
    exact hpos
  · rw [hnum]
    rfl
  · rintro d ⟨⟩
    rfl

variable (s : BlockHeaderState BlockHeaderExtension)

def claimInput (claimed : ℕ) (strong : Bool) (policy : Option FinalizerPolicy) :
    BlockHeaderStateInput where
  parentId := s.blockId
  timestamp := ⟨s.timestamp.slot + 1⟩
  producer := 1
  newProtocolFeatureActivations := []
  transactionMroot := 0
  newProposerPolicy := none
  newFinalizerPolicy := policy
  mostRecentAncestorWithQc := ⟨u32 claimed, strong⟩
  finalityMrootClaim := 0
  claim_lt := Nat.mod_lt _ (Nat.two_pow_pos 32)

def plainInput (claimed : ℕ) (policy : Option FinalizerPolicy) : BlockHeaderStateInput :=
  claimInput s claimed false policy

def plainNext (claimed : ℕ)
    (policy : Option FinalizerPolicy) : BlockHeaderState BlockHeaderExtension :=
  (s.next zeroHashEnv (plainInput s claimed policy)).getD s

theorem extends_of_claimInput {s s' : BlockHeaderState BlockHeaderExtension} {claimed : ℕ}
    {strong : Bool} {policy : Option FinalizerPolicy}
    (hnext : s.next zeroHashEnv (claimInput s claimed strong policy) = .returns s')
    (hclaim : s.core.latestQcClaim.le ⟨u32 claimed, strong⟩)
    (hle : u32 claimed ≤ s.core.currentBlockNum)
    (hgen : ∀ p ∈ policy, p.generation = u32 (s.finalizerPolicyGeneration + 1)) :
    Extends zeroHashEnv s s' ∧ NumbersPolicies s s' := by
  obtain ⟨fExt, hasm, hfinish⟩ := next_eq_returns hnext
  have hexts : s'.headerExts.finality = some fExt := by
    rw [(finishNext_finished hfinish).exts_eq]
    exact inputExtensions_finality _ _
  have hclaimed : fExt.qcClaim = ⟨u32 claimed, strong⟩ := hasm.claim_eq
  refine ⟨⟨.inl ⟨_, rfl, hnext⟩, ?_, ?_⟩, ?_⟩
  · intro fExt' hf
    rw [hexts] at hf
    cases hf
    rw [hclaimed]
    exact hclaim
  · intro fExt' hf
    rw [hexts] at hf
    cases hf
    rw [hclaimed]
    exact hle
  · intro fExt' d hf hd
    rw [hexts] at hf
    cases hf
    obtain ⟨p, hp, hdp⟩ := createFinalizerDiff_generation hasm.finalizer_diff d hd
    rw [hdp]
    exact hgen p hp

theorem plainNext_extends (claimed : ℕ) (policy : Option FinalizerPolicy)
    (hnext : s.next zeroHashEnv (plainInput s claimed policy) =
      .returns (plainNext s claimed policy))
    (hclaim : s.core.latestQcClaim.le ⟨u32 claimed, false⟩)
    (hle : u32 claimed ≤ s.core.currentBlockNum)
    (hgen : ∀ p ∈ policy, p.generation = u32 (s.finalizerPolicyGeneration + 1)) :
    Extends zeroHashEnv s (plainNext s claimed policy) ∧
      NumbersPolicies s (plainNext s claimed policy) :=
  extends_of_claimInput hnext hclaim hle hgen

/-- The policies that the blocks of a chain propose: the second and the fifth one do. -/
def handoverPolicy : ℕ → Option FinalizerPolicy
  | 0 => some (unitPolicy 2 2 [0, 1])
  | 3 => some (unitPolicy 3 2 [1, 2, 3])
  | _ => none

/-- A chain in which every block claims a strong QC on its parent. -/
def handover : ℕ → BlockHeaderState BlockHeaderExtension
  | 0 => plainGenesis 1
  | k + 1 => ((handover k).next zeroHashEnv
      (claimInput (handover k) (k + 1) true (handoverPolicy k))).getD (handover k)

theorem handover_next : ∀ k < 6, (handover k).next zeroHashEnv
      (claimInput (handover k) (k + 1) true (handoverPolicy k)) = .returns (handover (k + 1)) ∧
    (handover k).core.latestQcClaim.le ⟨u32 (k + 1), true⟩ ∧
    u32 (k + 1) ≤ (handover k).core.currentBlockNum ∧
    ∀ p ∈ handoverPolicy k, p.generation = u32 ((handover k).finalizerPolicyGeneration + 1) := by
  decide +kernel

theorem handover_extends {k : ℕ} (hk : k < 6) :
    Extends zeroHashEnv (handover k) (handover (k + 1)) ∧
      NumbersPolicies (handover k) (handover (k + 1)) := by
  obtain ⟨hnext, hclaim, hle, hgen⟩ := handover_next k hk
  exact extends_of_claimInput hnext hclaim hle hgen

theorem handover_chain :
    ∀ k ≤ 6, HeaderChain zeroHashEnv ((range (k + 1)).map handover) (handover k)
  | 0, _ => .genesis (plainGenesis_isSavannaGenesis Nat.one_pos (by decide))
  | k + 1, hk => by
    obtain ⟨hext, hpol⟩ := handover_extends hk
    rw [range_succ, map_append]
    exact (handover_chain k (by omega)).next hext hpol

/-- The seventh block of the chain, whose last final block is the fifth, extends that one but
no longer the third. -/
theorem extends_iff_ancestor_handover :
    (∀ id, ((handover 6).core.extendsBlock id).isSome = true) ∧
    (handover 6).core.extendsBlock (handover 4).blockId = some true ∧
    (handover 6).core.extendsBlock (handover 2).blockId ≠ some true := by
  have hextends := extends_iff_ancestor (handover_chain 6 le_rfl) (by decide +kernel)
  refine ⟨fun id => (hextends id).1, (hextends _).2.mpr ?_, fun h => ?_⟩
  · exact ⟨handover 4, mem_map_of_mem (by decide), rfl, by decide +kernel, by decide +kernel⟩
  · obtain ⟨A, hA, hid, hfinal, -⟩ := (hextends _).2.mp h
    obtain ⟨k, hk, rfl⟩ := mem_map.mp hA
    have hnone : ∀ k ∈ range 7, (handover k).blockId = (handover 2).blockId →
        (handover k).blockNum < (handover 6).core.lastFinalBlockNum := by decide +kernel
    exact absurd hfinal (hnone k hk hid).not_ge

end FlonCore
