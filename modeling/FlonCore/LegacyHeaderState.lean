import FlonCore.HeaderTransition
import FlonCore.Library.Assoc
import Mathlib.Data.List.Sort

/-!
# Header states before Savanna

Before Savanna a block becomes irreversible in two rounds of confirmations. Each
block confirms a number of blocks below it; a block that more than two thirds of
the producers confirmed is proposed as irreversible, and the irreversible block
is the one that more than two thirds of the producers have seen proposed. A new
schedule of producers waits until the block that carries it is irreversible.
-/

namespace FlonCore
open Library
variable {β : Type}

structure ScheduleInfo where
  scheduleLibNum : ℕ
  schedule : ProducerAuthoritySchedule
deriving DecidableEq, Repr

structure BlockHeaderStateLegacyCommon where
  (blockNum dposProposedIrreversibleBlocknum dposIrreversibleBlocknum : ℕ)
  activeSchedule : ProducerAuthoritySchedule
  (producerToLastProduced producerToLastImpliedIrb : List (AccountName × ℕ))
  /-- The confirmations each block still needs, newest block last. -/
  confirmCount : List UInt8
deriving DecidableEq, Repr

structure PendingBlockHeaderStateLegacy extends BlockHeaderStateLegacyCommon where
  prevActivatedProtocolFeatures : Finset Digest
  prevPendingSchedule : ScheduleInfo
  wasPendingPromoted : Bool
  previous : BlockId
  producer : AccountName
  timestamp : BlockTimestamp
  activeScheduleVersion : UInt32
  confirmed : UInt16
deriving DecidableEq

structure BlockHeaderStateLegacy (β : Type) extends BlockHeaderStateLegacyCommon where
  blockId : BlockId
  header : BlockHeader β
  pendingSchedule : ScheduleInfo
  activatedProtocolFeatures : Finset Digest
  headerExts : HeaderExtensionMultimap
deriving DecidableEq

/-- The header environment and the digest of the feature that moves producer schedules
into a header extension. -/
structure LegacyEnv (β : Type) extends HeaderEnv β where
  wtmsigBlockSignatures : Option Digest

def maximumTrackedDposConfirmations : ℕ := 1024

def growConfirmCount (confirmCount : List UInt8) (requiredConfs : UInt8) : List UInt8 :=
  if confirmCount.length < maximumTrackedDposConfirmations then confirmCount ++ [requiredConfs]
  else confirmCount.drop 1 ++ [requiredConfs]

/-- The loop over the counts, newest first. A count that reaches zero ends it: that count
and the older ones are dropped, and its distance from the newest one is returned. -/
def confirmBlocks : ℕ → List UInt8 → List UInt8 × Option ℕ
  | 0, counts => (counts, none)
  | _, [] => ([], none)
  | blocksToConfirm + 1, count :: older =>
    if count - 1 = 0 then ([], some 0)
    else
      let (rest, distance) := confirmBlocks blocksToConfirm older
      ((count - 1) :: rest, distance.map (· + 1))

/-- Entries of a new schedule: the producer of the block has its own value, the others keep
the one they have. -/
def carryOver (existing : List (AccountName × ℕ)) (producers : List ProducerAuthority)
    (producer : AccountName) (own fresh : ℕ) : List (AccountName × ℕ) :=
  producers.foldl (fun m pro => assign m pro.producerName
    (if pro.producerName = producer then own
      else (find existing pro.producerName).getD fresh)) []

namespace BlockHeaderStateLegacy
variable (s : BlockHeaderStateLegacy β)

def calcDposLastIrreversible (producerOfNextBlock : AccountName) : ℕ :=
  let blocknums := s.producerToLastImpliedIrb.map fun i =>
    if i.1 = producerOfNextBlock then s.dposProposedIrreversibleBlocknum else i.2
  if blocknums = [] then 0
  else (blocknums.insertionSort (· ≤ ·)).getD ((blocknums.length - 1) / 3) 0

def nextTimestamp (time : BlockTimestamp) : Except Failure BlockTimestamp :=
  if time ≠ .zero then do
    eosAssert (s.header.timestamp < time) .blockValidateException "next block must be in the future"
    return time
  else return ⟨s.header.timestamp.slot + 1⟩

def checkDoubleConfirm (producer : AccountName) (numPrevBlocksToConfirm : UInt16) :
    Except Failure Unit :=
  match find s.producerToLastProduced producer with
  | none => .ok ()
  | some lastProduced =>
    eosAssert (lastProduced <
        wrapSub (2 ^ 32) (u32 (s.blockNum + 1)) numPrevBlocksToConfirm.toNat)
      .producerDoubleConfirm "producer ${prod} double-confirming known range"

/-- What the confirmations of a block leave: the counts, and the block proposed as
irreversible. -/
def confirm (numPrevBlocksToConfirm : UInt16) : List UInt8 × ℕ :=
  let requiredConfs := UInt8.ofNat (s.activeSchedule.producers.length * 2 / 3 + 1)
  let (counts, distance) := confirmBlocks (numPrevBlocksToConfirm.toNat + 1)
    (growConfirmCount s.confirmCount requiredConfs).reverse
  (counts.reverse, match distance with
    | none => s.dposProposedIrreversibleBlocknum
    | some d => wrapSub (2 ^ 32) (u32 (s.blockNum + 1)) d)

def promotes (irreversible : ℕ) : Bool :=
  !s.pendingSchedule.schedule.producers.isEmpty &&
    decide (s.pendingSchedule.scheduleLibNum ≤ irreversible)

/-- The part of the state that `next` computes from the producer of the block. -/
def nextCommon (producer : AccountName) (numPrevBlocksToConfirm : UInt16) :
    BlockHeaderStateLegacyCommon :=
  let blockNum := u32 (s.blockNum + 1)
  let (confirmCount, proposed) := s.confirm numPrevBlocksToConfirm
  let irreversible := s.calcDposLastIrreversible producer
  if s.promotes irreversible then
    { blockNum := blockNum
      dposProposedIrreversibleBlocknum := proposed
      dposIrreversibleBlocknum := irreversible
      activeSchedule := s.pendingSchedule.schedule
      producerToLastProduced := assign
        (carryOver s.producerToLastProduced s.pendingSchedule.schedule.producers producer blockNum
          irreversible) producer blockNum
      producerToLastImpliedIrb := carryOver s.producerToLastImpliedIrb
        s.pendingSchedule.schedule.producers producer s.dposProposedIrreversibleBlocknum
        irreversible
      confirmCount := confirmCount }
  else
    { blockNum := blockNum
      dposProposedIrreversibleBlocknum := proposed
      dposIrreversibleBlocknum := irreversible
      activeSchedule := s.activeSchedule
      producerToLastProduced := assign s.producerToLastProduced producer blockNum
      producerToLastImpliedIrb := assign s.producerToLastImpliedIrb producer
        s.dposProposedIrreversibleBlocknum
      confirmCount := confirmCount }

def next (time : BlockTimestamp) (numPrevBlocksToConfirm : UInt16) :
    Outcome Failure PendingBlockHeaderStateLegacy := do
  let time ← .ofExcept (s.nextTimestamp time)
  let proauth ← .ofOption (getScheduledProducer s.activeSchedule.producers time)
  .ofExcept (s.checkDoubleConfirm proauth.producerName numPrevBlocksToConfirm)
  let common := s.nextCommon proauth.producerName numPrevBlocksToConfirm
  return {
      toBlockHeaderStateLegacyCommon := common
      prevActivatedProtocolFeatures := s.activatedProtocolFeatures
      prevPendingSchedule := s.pendingSchedule
      wasPendingPromoted := s.promotes common.dposIrreversibleBlocknum
      previous := s.blockId
      producer := proauth.producerName
      timestamp := time
      activeScheduleVersion := s.activeSchedule.version
      confirmed := numPrevBlocksToConfirm }

end BlockHeaderStateLegacy

def LegacyProducerSchedule.toProducerAuthoritySchedule (schedule : LegacyProducerSchedule) :
    ProducerAuthoritySchedule :=
  ⟨schedule.version, schedule.producers.map fun p => ⟨p.1, ⟨1, [⟨p.2, 1⟩]⟩⟩⟩

def BlockHeaderExtension.producerSchedule? :
    BlockHeaderExtension → Option ProducerAuthoritySchedule
  | .producerScheduleChange schedule => some schedule
  | _ => none

def HeaderExtensionMultimap.producerSchedule (exts : HeaderExtensionMultimap) :
    Option ProducerAuthoritySchedule :=
  exts.findSome? fun e => e.2.producerSchedule?

namespace PendingBlockHeaderStateLegacy
variable (env : LegacyEnv β) (p : PendingBlockHeaderStateLegacy)

def wtmsigEnabled : Bool :=
  match env.wtmsigBlockSignatures with
  | none => false
  | some digest => decide (digest ∈ p.prevActivatedProtocolFeatures)

def checkNewSchedule (version : UInt32) : Except Failure Unit := do
  eosAssert (!p.wasPendingPromoted) .producerScheduleException
    ("cannot set pending producer schedule in the same block in which pending was promoted to " ++
      "active")
  eosAssert (version = p.activeSchedule.version + 1) .producerScheduleException
    "wrong producer schedule version specified"
  eosAssert p.prevPendingSchedule.schedule.producers.isEmpty .producerScheduleException
    "cannot set new pending producers until last pending is confirmed"

def newProducers (h : BlockHeader β) : Except Failure (Option ProducerAuthoritySchedule) :=
  match h.newProducers with
  | none => .ok none
  | some schedule => do
    eosAssert (!p.wtmsigEnabled env) .producerScheduleException
      ("Block header contains legacy producer schedule outdated by activation of WTMsig Block " ++
        "Signatures")
    p.checkNewSchedule schedule.version
    return some schedule.toProducerAuthoritySchedule

def scheduleChange (exts : HeaderExtensionMultimap)
    (fromHeader : Option ProducerAuthoritySchedule) :
    Except Failure (Option ProducerAuthoritySchedule) :=
  match exts.producerSchedule with
  | none => .ok fromHeader
  | some schedule => do
    eosAssert (p.wtmsigEnabled env) .producerScheduleException
      ("Block header producer_schedule_change_extension before activation of WTMsig Block " ++
        "Signatures")
    p.checkNewSchedule schedule.version
    return some schedule

def activateFeatures (validator : Validator) (exts : HeaderExtensionMultimap) :
    Except Failure (Finset Digest) :=
  match exts.protocolFeatures with
  | none => .ok p.prevActivatedProtocolFeatures
  | some newFeatures => do
    validator p.timestamp p.prevActivatedProtocolFeatures newFeatures
    let features := p.prevActivatedProtocolFeatures ∪ newFeatures.toFinset
    eosAssert (features.card = p.prevActivatedProtocolFeatures.card + newFeatures.length)
      .invalidBlockHeaderExtension "duplication of protocol feature digests"
    return features

def nextPendingSchedule (change : Option ProducerAuthoritySchedule) : ScheduleInfo :=
  match change with
  | some schedule => ⟨p.blockNum, schedule⟩
  | none =>
    if p.wasPendingPromoted then
      ⟨p.prevPendingSchedule.scheduleLibNum, ⟨p.prevPendingSchedule.schedule.version, []⟩⟩
    else p.prevPendingSchedule

def finishNext (h : BlockHeader β) (validator : Validator) :
    Except Failure (BlockHeaderStateLegacy β) := do
  eosAssert (h.timestamp = p.timestamp) .blockValidateException "timestamp mismatch"
  eosAssert (h.previous = p.previous) .unlinkableBlockException "previous mismatch ${p} != ${id}"
  eosAssert (h.confirmed = p.confirmed) .blockValidateException "confirmed mismatch"
  eosAssert (h.producer = p.producer) .wrongProducer "wrong producer specified"
  eosAssert (h.scheduleVersion = p.activeScheduleVersion) .producerScheduleException
    "schedule_version in signed block is corrupted"
  let exts ← validateAndExtractHeaderExtensions env.codec h
  let fromHeader ← p.newProducers env h
  let change ← p.scheduleChange env exts fromHeader
  let features ← p.activateFeatures validator exts
  return {
      toBlockHeaderStateLegacyCommon := p.toBlockHeaderStateLegacyCommon
      blockId := h.calculateId env.toHeaderEnv
      header := h
      pendingSchedule := p.nextPendingSchedule change
      activatedProtocolFeatures := features
      headerExts := exts }

end PendingBlockHeaderStateLegacy

namespace BlockHeaderStateLegacy
variable (env : LegacyEnv β) (s : BlockHeaderStateLegacy β)

def nextOfHeader (h : BlockHeader β) (validator : Validator) :
    Outcome Failure (BlockHeaderStateLegacy β) := do
  let pending ← s.next h.timestamp h.confirmed
  .ofExcept (pending.finishNext env h validator)

def savannaGenesisBlockNum : Option ℕ := s.headerExts.finality.map fun fExt => fExt.qcClaim.blockNum

def irreversibleBlocknum : ℕ :=
  match s.savannaGenesisBlockNum with
  | some genesisBlockNum => min genesisBlockNum s.dposIrreversibleBlocknum
  | none => s.dposIrreversibleBlocknum

end BlockHeaderStateLegacy

end FlonCore
