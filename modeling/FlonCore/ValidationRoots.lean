import FlonCore.HeaderChain
import FlonCore.IncrementalMerkle

/-!
# Validation trees

Every block of a Savanna chain has a leaf, and the validation tree of a block is
the merkle tree over the leaves from the genesis block on. A block state keeps the
roots of the trees of the blocks that are not final, and the last final one. A
producer looks up the root it claims in the roots of the parent, a validator in
those of the block itself.
-/

namespace FlonCore
open Library FinalityCore List Option
open IncrementalMerkleTree Outcome
variable {β : Type}

structure FinalityLeafNode where
  blockNum : ℕ
  (timestamp parentTimestamp : BlockTimestamp)
  (finalityDigest actionMroot : Digest)
deriving DecidableEq, Repr

structure LeafHashing where
  leaf : FinalityLeafNode → Digest
  combine : Digest → Digest → Digest

structure Valid where
  validationTree : IncrementalMerkleTree Digest
  /-- The roots of the blocks from the last final one on. -/
  validationMroots : List Digest

structure BlockState (β : Type) extends BlockHeaderState β where
  strongDigest : Digest
  valid : Option Valid

variable (env : HeaderEnv β) (hashing : LeafHashing)

def BlockStateLegacy.genesisLeaf (bsp : BlockStateLegacy β) (strongDigest actionMroot : Digest) :
    FinalityLeafNode :=
  ⟨bsp.header.blockNum, bsp.header.timestamp, .zero, strongDigest, actionMroot⟩

/-- `create_if_genesis_block` with the `valid` structure it sets. -/
def BlockStateLegacy.createIfGenesisBlockState (bsp : BlockStateLegacy β)
    (actionMrootSavanna : Option Digest) : Outcome Failure (BlockState β) := do
  let actionMroot ← .ofOption actionMrootSavanna
  let state ← bsp.createIfGenesisBlock env
  let strongDigest ← .ofOption (state.computeFinalityDigest env)
  let leafNode := bsp.genesisLeaf strongDigest actionMroot
  let validationTree ← .ofOption (append hashing.combine .empty (hashing.leaf leafNode))
  let root ← .ofOption (validationTree.getRoot hashing.combine 0)
  return { state with
    strongDigest := strongDigest
    valid := some ⟨validationTree, [root]⟩ }

namespace BlockState
variable (b : BlockState β)

def nextLeaf (nextBhs : BlockHeaderState β) (actionMroot strongDigest : Digest) :
    FinalityLeafNode :=
  ⟨nextBhs.blockNum, nextBhs.timestamp, b.timestamp, strongDigest, actionMroot⟩

def newValid (nextBhs : BlockHeaderState β) (actionMroot strongDigest : Digest) : Option Valid := do
  let valid ← b.valid
  let start := wrapSub (2 ^ 32) nextBhs.core.lastFinalBlockNum b.core.lastFinalBlockNum
  let validationMroots ← fromOffset valid.validationMroots start
  let leafNode := b.nextLeaf nextBhs actionMroot strongDigest
  let validationTree ← valid.validationTree.append hashing.combine (hashing.leaf leafNode)
  let root ← validationTree.getRoot hashing.combine 0
  return ⟨validationTree, validationMroots ++ [root]⟩

def getValidationMroot (targetBlockNum : ℕ) : Outcome Failure Digest :=
  match b.valid with
  | none => .returns 0
  | some valid => do
    .ofExcept (eosAssert (!valid.validationMroots.isEmpty) .blockValidateException
      "validation mroot history is empty")
    .ofExcept (eosAssert (decide (b.core.lastFinalBlockNum ≤ targetBlockNum ∧
        targetBlockNum < b.core.lastFinalBlockNum + valid.validationMroots.length))
      .blockValidateException
      "validation mroot block ${target} is outside available range [${first}, ${last}]")
    .ofOption valid.validationMroots[targetBlockNum - b.core.lastFinalBlockNum]?

def getFinalityMrootClaim (claim : QcClaim) : Outcome Failure Digest := do
  let metadata ← .ofOption (b.core.nextMetadata claim)
  if b.core.isGenesisBlockNum metadata.latestQcClaimBlockNum then return 0
  else b.getValidationMroot metadata.latestQcClaimBlockNum

/-- The root `apply_block` expects in the header of the block it validates. -/
def actualFinalityMroot : Outcome Failure Digest :=
  if b.core.isGenesisBlockNum b.core.latestQcClaim.blockNum then .returns 0
  else b.getValidationMroot b.core.latestQcClaim.blockNum

def verifyFinalityMroot : Outcome Failure Unit := do
  let actual ← b.actualFinalityMroot
  .ofExcept (eosAssert (b.finalityMroot == actual) .blockValidateException
    ("finality_mroot does not match, received finality_mroot: ${r} != " ++
      "actual_finality_mroot: ${a}"))

structure Child (b b' : BlockState β) (leafNode : FinalityLeafNode) : Prop where
  extended : Extends env b.toBlockHeaderState b'.toBlockHeaderState
  digest : b'.computeFinalityDigest env = some b'.strongDigest
  leaf : ∃ actionMroot, leafNode = b.nextLeaf b'.toBlockHeaderState actionMroot b'.strongDigest ∧
    b.newValid hashing b'.toBlockHeaderState actionMroot b'.strongDigest = b'.valid
  built : b'.valid.isSome

end BlockState

inductive ValidChain : List FinalityLeafNode → BlockState β → Prop
  | genesis {bsp : BlockStateLegacy β} {actionMroot : Digest} {b : BlockState β} :
      bsp.blockId = bsp.header.calculateId env → 0 < bsp.header.blockNum →
      bsp.createIfGenesisBlockState env hashing (some actionMroot) = .returns b →
      ValidChain [bsp.genesisLeaf b.strongDigest actionMroot] b
  | next {leaves : List FinalityLeafNode} {b b' : BlockState β} {leafNode : FinalityLeafNode} :
      ValidChain leaves b → BlockState.Child env hashing b b' leafNode →
      ValidChain (leaves ++ [leafNode]) b'

variable {c : FinalityCore} {height : ℕ} {l : QcLink} {currentBlock : BlockRef} {claim : QcClaim}

def StrictLinks (c : FinalityCore) : Prop :=
  ∀ i l, 0 < i → c.links[i]? = some l → l.targetBlockNum < c.frontLink.sourceBlockNum + i

theorem FinalityCore.CoreShape.front_le_source (h : CoreShape height c)
    (hl : c.links[l.sourceBlockNum - c.frontLink.sourceBlockNum]? = some l) :
    c.frontLink.sourceBlockNum ≤ l.sourceBlockNum := by
  by_contra hlt
  have hnum := h.links_num _ _ hl
  have hfront := h.front_lt
  rw [show l.sourceBlockNum - c.frontLink.sourceBlockNum = 0 by omega, Nat.add_zero,
    Nat.mod_eq_of_lt hfront] at hnum
  omega

section
variable (h : StrictLinks c) (hshape : CoreShape height c)
  (hl : c.links[l.sourceBlockNum - c.frontLink.sourceBlockNum]? = some l)
include h hshape hl

theorem StrictLinks.advance (hle : claim.blockNum ≤ height) :
    StrictLinks (c.advance l currentBlock claim) := by
  have hs := hshape.front_le_source hl
  have hlength := hshape.links_length
  intro i a hi ha
  rw [advance_frontLink hl]
  rcases getElem?_drop_append_one ha with ha | ⟨hi', rfl⟩
  · have hlt := h _ _ (by omega) ha
    omega
  · dsimp only
    omega

theorem isGenesisBlockNum_advance {n : ℕ} (hn : l.sourceBlockNum ≤ n) :
    (c.advance l currentBlock claim).isGenesisBlockNum n = c.isGenesisBlockNum n := by
  rcases Nat.eq_zero_or_pos (l.sourceBlockNum - c.frontLink.sourceBlockNum) with hzero | hpos
  · rw [hzero, hshape.links_front, Option.some.injEq] at hl
    rw [isGenesisBlockNum, isGenesisBlockNum, advance_frontLink (by rw [hzero, ← hl,
      hshape.links_front]), hl]
  · have hlt := h _ _ hpos hl
    have hnew : (c.advance l currentBlock claim).isGenesisBlockNum n = false := by
      simp only [isGenesisBlockNum, advance_frontLink hl, Bool.and_eq_false_iff,
        decide_eq_false_iff_not]
      omega
    have hold : c.isGenesisBlockNum n = false := by
      simp only [isGenesisBlockNum, Bool.and_eq_false_iff, decide_eq_false_iff_not]
      omega
    rw [hnew, hold]

end

def rootUpTo (g : ℕ) (leaves : List FinalityLeafNode) (num : ℕ) : Option Digest :=
  calculateMerkle hashing.combine 0 ((leaves.take (num + 1 - g)).map hashing.leaf)

variable {leaves : List FinalityLeafNode}

theorem rootUpTo_append {g num : ℕ}
    (h : num + 1 ≤ g + leaves.length) (leafNode : FinalityLeafNode) :
    rootUpTo hashing g (leaves ++ [leafNode]) num = rootUpTo hashing g leaves num := by
  rw [rootUpTo, rootUpTo, take_append_of_le_length (by omega)]

def treeOf (leaves : List FinalityLeafNode) : IncrementalMerkleTree Digest :=
  ⟨maskOf leaves.length 0,
    peaks hashing.combine (leaves.map hashing.leaf)⟩

theorem treeOf_nil : treeOf hashing [] = .empty := by
  simp [empty, treeOf, maskOf, peaks_nil]

theorem treeOf_append (h : leaves.length + 1 ≤ 2 ^ 63)
    (leafNode : FinalityLeafNode) :
    (treeOf hashing leaves).append hashing.combine (hashing.leaf leafNode) =
      some (treeOf hashing (leaves ++ [leafNode])) := by
  have happend := append_eq hashing.combine (l := leaves.map hashing.leaf)
    (by simpa using h) (hashing.leaf leafNode)
  simpa [treeOf] using happend

theorem getRoot_treeOf {g num : ℕ} (h : leaves.length < 2 ^ 64)
    (hnum : num + 1 = g + leaves.length) :
    (treeOf hashing leaves).getRoot hashing.combine 0 = rootUpTo hashing g leaves num := by
  have hroot := getRoot_peaks hashing.combine 0 (l := leaves.map hashing.leaf) (by simpa using h)
  rw [rootUpTo, hnum, Nat.add_sub_cancel_left, take_length]
  simpa [treeOf] using hroot

theorem exists_rootUpTo (g : ℕ) (leaves : List FinalityLeafNode) (num : ℕ) :
    ∃ root, rootUpTo hashing g leaves num = some root :=
  exists_calculateMerkle hashing.combine 0 _

/-- The roots of a state whose chain has the leaves of the blocks `g` to `height`. -/
structure Aligned (g height : ℕ) (leaves : List FinalityLeafNode) (b : BlockState β) : Prop where
  pos : 0 < g
  height_eq : height + 1 = g + leaves.length
  numbered : Numbered (2 ^ 32) FinalityLeafNode.blockNum g leaves
  shape : CoreShape height b.core
  num : b.blockNum = height % 2 ^ 32
  id_num : numFromId b.blockId = b.blockNum
  strict : StrictLinks b.core
  genesis_le : g ≤ b.core.lastFinalBlockNum
  roots : ∃ mroots, b.valid = some ⟨treeOf hashing leaves, mroots⟩ ∧
    b.core.lastFinalBlockNum + mroots.length = height + 1 ∧
    ∀ i < mroots.length,
      mroots[i]? = rootUpTo hashing g leaves (b.core.lastFinalBlockNum + i)

open BlockState

variable {env hashing} {g : ℕ} {b b' : BlockState β} {leafNode : FinalityLeafNode}

theorem genesis_strictLinks (id : BlockId) (timestamp : BlockTimestamp) :
    StrictLinks (createCoreForGenesisBlock id timestamp) := by
  intro i l hi hl
  rw [createCoreForGenesisBlock, getElem?_eq_none (by rw [length_singleton]; omega)] at hl
  simp at hl

variable {bsp : BlockStateLegacy β}

theorem aligned_genesis {actionMroot : Digest}
    (hid : bsp.blockId = bsp.header.calculateId env) (hpos : 0 < bsp.header.blockNum)
    (h : bsp.createIfGenesisBlockState env hashing (some actionMroot) = .returns b) :
    Aligned hashing bsp.header.blockNum bsp.header.blockNum
      [bsp.genesisLeaf b.strongDigest actionMroot] b := by
  simp only [BlockStateLegacy.createIfGenesisBlockState, bind_eq_returns,
    ofOption_eq_returns, Option.some.injEq] at h
  obtain ⟨actionMroot, rfl, state, hstate, digest, -, tree, htree, root, hroot, h⟩ := h
  obtain ⟨policy, -, hstate⟩ := bind_eq_returns.mp hstate
  have hnum : numFromId bsp.blockId = bsp.header.blockNum := by rw [hid, calculateId_num]
  have hlt : bsp.header.blockNum < 2 ^ 32 := bsp.header.blockNum_lt
  cases hstate
  cases h
  rw [← treeOf_nil hashing, treeOf_append hashing (by simp), Option.some.injEq, nil_append] at htree
  subst htree
  have hlast : bsp.header.blockNum + 1 =
      bsp.header.blockNum + [bsp.genesisLeaf digest actionMroot].length := by simp
  rw [getRoot_treeOf hashing (by simp) hlast] at hroot
  refine ⟨hpos, by simp, Numbered.singleton (Nat.mod_eq_of_lt hlt).symm, ?_,
    (Nat.mod_eq_of_lt hlt).symm, hnum, genesis_strictLinks _ _, ?_, _, rfl, ?_, ?_⟩
  · rw [← hnum]
    exact genesis_coreShape _ _
  · exact hnum.ge
  · show (createCoreForGenesisBlock _ _).lastFinalBlockNum + 1 = _
    rw [genesis_lastFinalBlockNum, hnum]
  · intro i hi
    obtain rfl : i = 0 := by simpa using hi
    rw [genesis_lastFinalBlockNum, hnum, Nat.add_zero]
    exact hroot.symm

section
variable (h : Aligned hashing g height leaves b)
include h

theorem Aligned.final_pos : 0 < b.core.lastFinalBlockNum := h.pos.trans_le h.genesis_le

theorem Aligned.blockNum_eq (hge : b.core.latestQcClaim.le claim)
    (hle : claim.blockNum ≤ b.core.currentBlockNum) : height < 2 ^ 32 ∧ b.blockNum = height := by
  have hlt := h.shape.height_lt (.inl h.final_pos) hge hle
  exact ⟨hlt, by rw [h.num, Nat.mod_eq_of_lt hlt]⟩

theorem Aligned.core_next {S' : BlockHeaderState β} (hext : Extends env b.toBlockHeaderState S') :
    ∃ fExt ref l, CoreStep env b.toBlockHeaderState S' fExt ref l ∧ height < 2 ^ 32 ∧
      b.blockNum = height ∧ S'.blockNum = (height + 1) % 2 ^ 32 := by
  obtain ⟨fExt', -, -, hf'⟩ := hext.built.finished
  obtain ⟨hheight, hnum⟩ := h.blockNum_eq (hext.claim_ge fExt' hf') (hext.claim_le fExt' hf')
  have hshape : CoreShape b.blockNum b.core := by
    rw [hnum]
    exact h.shape
  obtain ⟨fExt, ref, l, hstep⟩ := hext.core_next hshape h.id_num
  have hnum' : S'.blockNum = (height + 1) % 2 ^ 32 := by
    rw [BlockHeaderState.blockNum, BlockHeader.blockNum, hstep.previous, h.id_num, hnum]
    rfl
  exact ⟨fExt, ref, l, hstep, hheight, hnum, hnum'⟩

theorem Aligned.getValidationMroot {n : ℕ} (hf : b.core.lastFinalBlockNum ≤ n) (hn : n ≤ height) :
    ∃ root, rootUpTo hashing g leaves n = some root ∧ b.getValidationMroot n = .returns root := by
  obtain ⟨mroots, hvalid, hlength, hroots⟩ := h.roots
  obtain ⟨root, hroot⟩ := exists_rootUpTo hashing g leaves n
  have hentry := hroots (n - b.core.lastFinalBlockNum) (by omega)
  rw [show b.core.lastFinalBlockNum + (n - b.core.lastFinalBlockNum) = n by omega, hroot] at hentry
  have hne : mroots.isEmpty = false := by
    rw [isEmpty_eq_false_iff, ← length_pos_iff]
    omega
  have hrange : n < b.core.lastFinalBlockNum + mroots.length := by omega
  refine ⟨root, hroot, ?_⟩
  rw [BlockState.getValidationMroot, hvalid]
  refine Outcome.bind_eq_returns.mpr ⟨(), by simp [hne], ?_⟩
  refine Outcome.bind_eq_returns.mpr ⟨(), by simp [hf, hrange], ?_⟩
  simpa using hentry

/-- What the parent makes for its child: the roots below the new last final block are
dropped, and the root of the longer tree is added. -/
theorem Aligned.newValid (hheight : height < 2 ^ 32) {nextBhs : BlockHeaderState β}
    (hmono : b.core.lastFinalBlockNum ≤ nextBhs.core.lastFinalBlockNum)
    (hle : nextBhs.core.lastFinalBlockNum ≤ height) {actionMroot strongDigest : Digest}
    (hleaf : leafNode = b.nextLeaf nextBhs actionMroot strongDigest) :
    ∃ mroots, b.newValid hashing nextBhs actionMroot strongDigest =
        some ⟨treeOf hashing (leaves ++ [leafNode]), mroots⟩ ∧
      nextBhs.core.lastFinalBlockNum + mroots.length = height + 1 + 1 ∧
      ∀ i < mroots.length, mroots[i]? =
        rootUpTo hashing g (leaves ++ [leafNode]) (nextBhs.core.lastFinalBlockNum + i) := by
  obtain ⟨mroots, hvalid, hlength, hroots⟩ := h.roots
  have hcount := h.height_eq
  obtain ⟨root, hroot⟩ := exists_rootUpTo hashing g (leaves ++ [leafNode]) (height + 1)
  have hlast : height + 1 + 1 = g + (leaves ++ [leafNode]).length := by
    rw [length_append, length_singleton]
    omega
  have hget : (treeOf hashing (leaves ++ [leafNode])).getRoot hashing.combine 0 = some root := by
    rw [getRoot_treeOf hashing (by omega) hlast, hroot]
  have happend := treeOf_append hashing (by omega : leaves.length + 1 ≤ 2 ^ 63) leafNode
  have hstart : wrapSub (2 ^ 32) nextBhs.core.lastFinalBlockNum b.core.lastFinalBlockNum =
      nextBhs.core.lastFinalBlockNum - b.core.lastFinalBlockNum :=
    wrapSub_of_le hmono (by omega)
  have htrim := fromOffset_of_le (by omega :
    nextBhs.core.lastFinalBlockNum - b.core.lastFinalBlockNum ≤ mroots.length)
  have hnew : b.newValid hashing nextBhs actionMroot strongDigest =
      some ⟨treeOf hashing (leaves ++ [leafNode]),
        mroots.drop (nextBhs.core.lastFinalBlockNum - b.core.lastFinalBlockNum) ++ [root]⟩ := by
    rw [hleaf] at happend hget ⊢
    rw [BlockState.newValid, hvalid]
    simp only [bind_eq_bind, bind_some, hstart, htrim, happend, hget]
    rfl
  refine ⟨_, hnew, ?_, ?_⟩
  · rw [length_append, length_drop, length_singleton]
    omega
  · intro i hi
    rw [length_append, length_drop, length_singleton] at hi
    rw [getElem?_append, length_drop]
    split_ifs with hold
    · rw [getElem?_drop, hroots _ (by omega), rootUpTo_append hashing (by omega)]
      congr 1
      omega
    · rw [show i - (mroots.length -
          (nextBhs.core.lastFinalBlockNum - b.core.lastFinalBlockNum)) = 0 by omega,
        show nextBhs.core.lastFinalBlockNum + i = height + 1 by omega, hroot]
      rfl

theorem Aligned.next (hc : BlockState.Child env hashing b b' leafNode) :
    Aligned hashing g (height + 1) (leaves ++ [leafNode]) b' := by
  obtain ⟨fExt, ref, l, hstep, hheight, hb, hnum⟩ := h.core_next hc.extended
  have hle := hstep.claim_le
  have hmono := hstep.final_mono
  have hfc := hstep.final_le_claim
  have hshape := hstep.shape
  rw [hstep.claim_eq] at hfc
  rw [hb] at hle hshape
  obtain ⟨actionMroot, hleaf, hvalid⟩ := hc.leaf
  obtain ⟨mroots, hnew, hlength, hroots⟩ := h.newValid hheight hmono (by omega) hleaf
  have hcount := h.height_eq
  have hgenesis := h.genesis_le
  refine ⟨h.pos, by rw [length_append, length_singleton]; omega, ?_, hshape, hnum, ?_,
    ?_, by omega, mroots, hvalid.symm.trans hnew, hlength, hroots⟩
  · apply h.numbered.append_one
    rw [hleaf, ← hcount]
    exact hnum
  · rw [hstep.finished.id_eq, calculateId_num, BlockHeaderState.blockNum]
  · rw [hstep.core_eq]
    exact h.strict.advance h.shape hstep.link hle

theorem Aligned.getFinalityMrootClaim (hge : b.core.latestQcClaim.le claim)
    (hle : claim.blockNum ≤ b.core.currentBlockNum) :
    ∃ root, b.getFinalityMrootClaim claim = .returns root ∧
      if b.core.isGenesisBlockNum claim.blockNum then root = 0
      else rootUpTo hashing g leaves claim.blockNum = some root := by
  obtain ⟨hheight, -⟩ := h.blockNum_eq hge hle
  have hcurrent := h.shape.current_eq
  have hge' := QcClaim.blockNum_le hge
  obtain ⟨l, hnew, -⟩ := h.shape.getNewBlockNumbers hge' (by omega) (by omega)
  have hmeta : b.core.nextMetadata claim = some ⟨l.targetBlockNum, claim.blockNum⟩ := by
    rw [nextMetadata, hnew]
    rfl
  have hrun : b.getFinalityMrootClaim claim =
      if b.core.isGenesisBlockNum claim.blockNum then .returns 0
      else b.getValidationMroot claim.blockNum := by
    rw [BlockState.getFinalityMrootClaim, hmeta]
    rfl
  rw [hrun]
  split_ifs with hgenesis
  · exact ⟨0, rfl, rfl⟩
  · obtain ⟨root, hroot, hget⟩ :=
      h.getValidationMroot (h.shape.final_le_claim.trans hge') (by omega)
    exact ⟨root, hget, hroot⟩

theorem Aligned.actualFinalityMroot (hc : BlockState.Child env hashing b b' leafNode)
    {fExt : FinalityExtension}
    (hf : b'.headerExts.finality = some fExt) :
    b'.actualFinalityMroot = b.getFinalityMrootClaim fExt.qcClaim := by
  obtain ⟨fExt', ref, l, hstep, -, hb, -⟩ := h.core_next hc.extended
  cases hf.symm.trans hstep.finality
  have hl := hstep.link
  have hcore := hstep.core_eq
  have hlatest := hstep.claim_eq
  have hle := hstep.claim_le
  have hfc := hstep.final_le_claim
  have hfront := hstep.shape.front_le_claim
  rw [hlatest] at hfc
  rw [hlatest, hcore, advance_frontLink hl] at hfront
  have hgenesis : b'.core.isGenesisBlockNum fExt.qcClaim.blockNum =
      b.core.isGenesisBlockNum fExt.qcClaim.blockNum := by
    rw [hcore]
    exact isGenesisBlockNum_advance h.strict h.shape hl hfront
  obtain ⟨root, hclaim, hroot⟩ := h.getFinalityMrootClaim (hc.extended.claim_ge fExt hf)
    (hc.extended.claim_le fExt hf)
  rw [hclaim, BlockState.actualFinalityMroot, hlatest, hgenesis]
  split_ifs at hroot ⊢ with hcase
  · rw [hroot]
  · have hcount := h.height_eq
    obtain ⟨root', hroot', hget⟩ := (h.next hc).getValidationMroot hfc (by omega)
    rw [rootUpTo_append hashing (by omega), hroot, Option.some.injEq] at hroot'
    rw [hget, hroot']

end

theorem ValidChain.aligned (h : ValidChain env hashing leaves b) :
    ∃ g height, Aligned hashing g height leaves b := by
  induction h with
  | genesis hid hpos hcreate => exact ⟨_, _, aligned_genesis hid hpos hcreate⟩
  | next hchain hc ih =>
    obtain ⟨g, height, ih⟩ := ih
    exact ⟨g, height + 1, ih.next hc⟩

theorem validation_roots_aligned (h : ValidChain env hashing leaves b) :
    ∃ valid g, b.valid = some valid ∧
      Numbered (2 ^ 32) FinalityLeafNode.blockNum g leaves ∧
      leaves.length = wrapSub (2 ^ 32) b.blockNum g + 1 ∧ g ≤ b.core.lastFinalBlockNum ∧
      valid.validationMroots.length =
        wrapSub (2 ^ 32) b.blockNum b.core.lastFinalBlockNum + 1 ∧
      (∀ i < valid.validationMroots.length, valid.validationMroots[i]? =
        calculateMerkle hashing.combine 0
          ((leaves.take (b.core.lastFinalBlockNum + i + 1 - g)).map hashing.leaf)) ∧
      ∀ claim, b.core.latestQcClaim.le claim → claim.blockNum ≤ b.core.currentBlockNum →
        ∃ root, b.getFinalityMrootClaim claim = .returns root ∧
          ∀ b' leafNode fExt, BlockState.Child env hashing b b' leafNode →
            b'.headerExts.finality = some fExt → fExt.qcClaim = claim →
            b'.actualFinalityMroot = .returns root := by
  obtain ⟨g, height, ha⟩ := h.aligned
  obtain ⟨mroots, hvalid, hlength, hroots⟩ := ha.roots
  have hcount := ha.height_eq
  have hfinal := ha.shape.final_le_claim.trans ha.shape.claim_le_height
  have hcurrent : b.core.currentBlockNum = b.blockNum := by rw [ha.shape.current_eq, ha.num]
  have hsub : ∀ n, 0 < n → n ≤ height → wrapSub (2 ^ 32) b.blockNum n = height - n := by
    intro n hpos hn
    rw [← hcurrent]
    exact ha.shape.current_sub hn (.inl hpos)
  have hg := ha.genesis_le
  have hpos := ha.pos
  refine ⟨_, g, hvalid, ha.numbered, ?_, hg, ?_, hroots, ?_⟩
  · rw [hsub g hpos (by omega)]
    omega
  · rw [hsub _ ha.final_pos hfinal]
    show mroots.length = _
    omega
  · intro claim hge hle
    obtain ⟨root, hroot, -⟩ := ha.getFinalityMrootClaim hge hle
    refine ⟨root, hroot, ?_⟩
    intro b' leafNode fExt hc hf hclaim
    rw [ha.actualFinalityMroot hc hf, hclaim, hroot]

theorem ValidChain.verifyFinalityMroot_iff (h : ValidChain env hashing leaves b)
    (hc : BlockState.Child env hashing b b' leafNode) {fExt : FinalityExtension}
    (hf : b'.headerExts.finality = some fExt) :
    b'.verifyFinalityMroot = .returns () ↔
      b.getFinalityMrootClaim fExt.qcClaim = .returns b'.finalityMroot := by
  obtain ⟨g, height, ha⟩ := h.aligned
  rw [verifyFinalityMroot, ha.actualFinalityMroot hc hf, bind_eq_returns]
  simp only [ofExcept_eq_returns, eosAssert_eq_ok, beq_iff_eq]
  constructor
  · intro hverify
    obtain ⟨root, hroot, heq⟩ := hverify
    rw [hroot, heq]
  · intro hroot
    exact ⟨_, hroot, rfl⟩

theorem exists_genesisState {S : BlockHeaderState β}
    (hstate : bsp.createIfGenesisBlock env = .returns S) (actionMroot : Digest) :
    ∃ b : BlockState β, b.toBlockHeaderState = S ∧
      bsp.createIfGenesisBlockState env hashing (some actionMroot) = .returns b := by
  obtain ⟨digest, hdigest⟩ : ∃ digest, S.computeFinalityDigest env = some digest := by
    obtain ⟨policy, -, hS⟩ := bind_eq_returns.mp hstate
    cases hS
    exact ⟨_, rfl⟩
  have hlast : 0 + 1 = 0 + [bsp.genesisLeaf digest actionMroot].length := by simp
  obtain ⟨root, hroot⟩ := exists_rootUpTo hashing 0 [bsp.genesisLeaf digest actionMroot] 0
  refine ⟨⟨S, digest, some ⟨treeOf hashing [bsp.genesisLeaf digest actionMroot], [root]⟩⟩, rfl, ?_⟩
  simp only [BlockStateLegacy.createIfGenesisBlockState, bind_eq_returns, ofOption_eq_returns]
  refine ⟨actionMroot, rfl, S, hstate, digest, hdigest, treeOf hashing [bsp.genesisLeaf digest
    actionMroot], ?_, root, ?_, rfl⟩
  · rw [← treeOf_nil hashing, treeOf_append hashing (by simp), nil_append]
  · rw [getRoot_treeOf hashing (by simp) hlast, hroot]

theorem ValidChain.exists_child (h : ValidChain env hashing leaves b) {S' : BlockHeaderState β}
    (hext : Extends env b.toBlockHeaderState S') :
    ∃ b' leafNode, b'.toBlockHeaderState = S' ∧ BlockState.Child env hashing b b' leafNode := by
  obtain ⟨g, height, ha⟩ := h.aligned
  obtain ⟨fExt, ref, l, hstep, hheight, hb, -⟩ := ha.core_next hext
  have hle := hstep.claim_le
  have hmono := hstep.final_mono
  have hfc := hstep.final_le_claim
  rw [hstep.claim_eq] at hfc
  have hrefs : ∃ ref, S'.makeBlockRef env = some ref :=
    exists_makeBlockRef hstep.shape (.inr (by rw [hstep.claim_eq]; omega))
  obtain ⟨ref', href⟩ := hrefs
  obtain ⟨digest, hdigest, -⟩ := map_eq_some_iff.mp href
  obtain ⟨mroots, hnew, -⟩ := ha.newValid hheight hmono (by omega)
    (rfl : b.nextLeaf S' 0 digest = b.nextLeaf S' 0 digest)
  exact ⟨⟨S', digest, _⟩, b.nextLeaf S' 0 digest, rfl, hext, hdigest, ⟨0, rfl, hnew⟩, rfl⟩

def sumHashing : LeafHashing where
  leaf n := BitVec.ofNat 256 n.blockNum
  combine a b := a + 3 * b

theorem handover_validChain : ∀ k ≤ 6, ∃ leaves b, ValidChain zeroHashEnv sumHashing leaves b ∧
    b.toBlockHeaderState = handover k
  | 0, _ => by
    have hcreate : (plainLegacy 1).createIfGenesisBlock zeroHashEnv =
      .returns (plainGenesis 1) := rfl
    obtain ⟨b, hb, hstate⟩ : ∃ b : BlockState BlockHeaderExtension,
        b.toBlockHeaderState = plainGenesis 1 ∧
        (plainLegacy 1).createIfGenesisBlockState zeroHashEnv sumHashing (some 0) = .returns b :=
      exists_genesisState hcreate 0
    exact ⟨_, b, .genesis (by decide +kernel) (by decide +kernel) hstate, hb⟩
  | k + 1, hk => by
    obtain ⟨leaves, b, hchain, hb⟩ := handover_validChain k (by omega)
    have hext := (handover_extends hk).1
    rw [← hb] at hext
    obtain ⟨b', leafNode, hb', hc⟩ := hchain.exists_child hext
    exact ⟨_, b', hchain.next hc, hb'⟩

/-- The fifth block is final for the seventh, so that it keeps three roots. -/
theorem validation_roots_aligned_handover :
    ∃ leaves b valid g, ValidChain zeroHashEnv sumHashing leaves b ∧
      b.toBlockHeaderState = handover 6 ∧ b.valid = some valid ∧
      Numbered (2 ^ 32) FinalityLeafNode.blockNum g leaves ∧
      leaves.length = wrapSub (2 ^ 32) 7 g + 1 ∧ g ≤ 5 ∧ valid.validationMroots.length = 3 ∧
      (∀ i < valid.validationMroots.length, valid.validationMroots[i]? =
        calculateMerkle sumHashing.combine 0
          ((leaves.take (5 + i + 1 - g)).map sumHashing.leaf)) ∧
      ∀ claim, (⟨6, true⟩ : QcClaim).le claim → claim.blockNum ≤ 7 →
        ∃ root, b.getFinalityMrootClaim claim = .returns root ∧
          ∀ b' leafNode fExt, BlockState.Child zeroHashEnv sumHashing b b' leafNode →
            b'.headerExts.finality = some fExt → fExt.qcClaim = claim →
            b'.actualFinalityMroot = .returns root := by
  obtain ⟨leaves, b, hchain, hb⟩ := handover_validChain 6 le_rfl
  have hnums : (b.blockNum, b.core.lastFinalBlockNum, b.core.latestQcClaim,
      b.core.currentBlockNum) = (7, 5, ⟨6, true⟩, 7) := by
    rw [hb]
    decide +kernel
  simp only [Prod.mk.injEq] at hnums
  obtain ⟨hnum, hfinal, hclaim, hcurrent⟩ := hnums
  obtain ⟨valid, g, hvalid, haligned⟩ := validation_roots_aligned hchain
  rw [hnum, hfinal, hclaim, hcurrent, wrapSub_of_le (show 5 ≤ 7 by decide) (by decide)] at haligned
  exact ⟨leaves, b, valid, g, hchain, hb, hvalid, haligned⟩

end FlonCore
