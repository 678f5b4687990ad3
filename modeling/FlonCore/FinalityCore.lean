import FlonCore.Library.Numbered
import FlonCore.Types

/-!
# The finality core

The core of a block keeps two sliding windows over its branch: `links`, one
entry per block from the source of the oldest relevant QC link up to the block
itself, and `refs`, one entry per ancestor from the last final block on. Both
are read at the difference of block numbers, computed in 32 bits.

A subscript or an iterator offset past the end of a vector is undefined
behaviour in the program; the functions that index return `none` there. Reading
the front or the back of an empty `links`, which invariant 1 excludes, returns
the default link.
-/

namespace FlonCore
open Library

structure BlockRef where
  blockId : BlockId
  timestamp : BlockTimestamp
  finalityDigest : Digest
  (activePolicyGeneration pendingPolicyGeneration : ℕ)
deriving DecidableEq, Repr

namespace BlockRef

def unset : BlockRef := ⟨0, .zero, 0, 0, 0⟩

def empty (r : BlockRef) : Bool := r.blockId == 0

def blockNum (r : BlockRef) : ℕ := numFromId r.blockId

end BlockRef

structure QcLink where
  (sourceBlockNum targetBlockNum : ℕ)
  isLinkStrong : Bool
deriving DecidableEq, Repr, Inhabited

structure QcClaim where
  blockNum : ℕ
  isStrongQc : Bool
deriving DecidableEq, Repr

def QcClaim.le (a b : QcClaim) : Bool :=
  decide (a.blockNum < b.blockNum) ||
    (decide (a.blockNum = b.blockNum) && (!a.isStrongQc || b.isStrongQc))

theorem QcClaim.blockNum_le {a b : QcClaim} (h : a.le b) : a.blockNum ≤ b.blockNum := by
  simp only [QcClaim.le, Bool.or_eq_true, Bool.and_eq_true, decide_eq_true_eq] at h
  omega

theorem QcClaim.le_refl (a : QcClaim) : a.le a := by
  cases hs : a.isStrongQc <;> simp [QcClaim.le, hs]

structure CoreMetadata where
  (lastFinalBlockNum latestQcClaimBlockNum : ℕ)
deriving DecidableEq, Repr

structure FinalityCore where
  links : List QcLink
  refs : List BlockRef
  genesisTimestamp : BlockTimestamp
deriving DecidableEq, Repr

namespace FinalityCore

def createCoreForGenesisBlock (blockId : BlockId) (timestamp : BlockTimestamp) : FinalityCore :=
  ⟨[⟨numFromId blockId, numFromId blockId, false⟩], [], timestamp⟩

variable (c : FinalityCore)

def isGenesisCore : Bool := c.refs.isEmpty

def frontLink : QcLink := c.links.head?.getD default
def backLink : QcLink := c.links.getLast?.getD default

def currentBlockNum : ℕ := c.backLink.sourceBlockNum

def lastFinalBlockNum : ℕ := c.frontLink.targetBlockNum

def latestQcClaim : QcClaim :=
  ⟨c.backLink.targetBlockNum, c.backLink.isLinkStrong⟩

def getBlockReference (blockNum : ℕ) : Option BlockRef :=
  c.refs[wrapSub (2 ^ 32) blockNum c.lastFinalBlockNum]?

def lastFinalBlockTimestamp : Option BlockTimestamp :=
  if c.isGenesisCore then some c.genesisTimestamp
  else (c.getBlockReference c.lastFinalBlockNum).map BlockRef.timestamp

def latestQcBlockTimestamp : Option BlockTimestamp :=
  if c.isGenesisCore then some c.genesisTimestamp
  else (c.getBlockReference c.backLink.targetBlockNum).map BlockRef.timestamp

/-- `extends` of the source: is `id` an ancestor at or above the last final block? -/
def extendsBlock (id : BlockId) : Option Bool :=
  if c.lastFinalBlockNum ≤ numFromId id ∧ numFromId id < c.currentBlockNum then
    (c.getBlockReference (numFromId id)).map fun ref => decide (ref.blockId = id)
  else some false

def isGenesisBlockNum (candidateBlockNum : ℕ) : Bool :=
  decide (c.frontLink.sourceBlockNum = c.frontLink.targetBlockNum) &&
    decide (c.frontLink.sourceBlockNum = candidateBlockNum)

def getQcLinkFrom (blockNum : ℕ) : Option QcLink :=
  c.links[wrapSub (2 ^ 32) blockNum c.frontLink.sourceBlockNum]?

/-- The new last final block number and the new first source number. A weak claim
changes neither; a strong one takes the two ends of the claimed block's link. -/
def getNewBlockNumbers (claim : QcClaim) : Option (ℕ × ℕ) :=
  if claim.isStrongQc then
    (c.getQcLinkFrom claim.blockNum).map fun link => (link.targetBlockNum, link.sourceBlockNum)
  else some (c.lastFinalBlockNum, c.frontLink.sourceBlockNum)

def nextMetadata (claim : QcClaim) : Option CoreMetadata :=
  (c.getNewBlockNumbers claim).map fun p => ⟨p.1, claim.blockNum⟩

/-- The vector made of everything from iterator offset `k` on. -/
def fromOffset {α : Type*} (l : List α) (k : ℕ) : Option (List α) :=
  if k ≤ l.length then some (l.drop k) else none

def next (currentBlock : BlockRef) (claim : QcClaim) : Option FinalityCore := do
  let (newLastFinal, newFrontSource) ← c.getNewBlockNumbers claim
  let links ← fromOffset c.links (wrapSub (2 ^ 32) newFrontSource c.frontLink.sourceBlockNum)
  let refs ← fromOffset c.refs (wrapSub (2 ^ 32) newLastFinal c.lastFinalBlockNum)
  return ⟨links ++ [⟨u32 (c.currentBlockNum + 1), claim.blockNum, claim.isStrongQc⟩],
    refs ++ [currentBlock], .zero⟩

end FinalityCore
end FlonCore
