import FlonCore.HeaderChain
import FlonCore.LegacyHeaderState
import Mathlib.Data.List.Chain

/-!
# Chains of legacy header states

A block before Savanna is produced in two calls: `next` with its time and the number
of blocks it confirms, and `finishNext` with its header. A chain is a list of states
each produced on the one before it. What a step takes over from the parent is said
once here, apart for the steps that promote the pending schedule.
-/

namespace FlonCore
open Library
open Outcome PendingBlockHeaderStateLegacy
variable {β : Type} (env : LegacyEnv β)

def initializeBlockchainState (systemAccountName : AccountName)
    (initialKey : String) (initialTimestamp : BlockTimestamp) (chainId : Digest) :
    BlockHeaderStateLegacy β :=
  let initialSchedule : ProducerAuthoritySchedule :=
    ⟨0, [⟨systemAccountName, ⟨1, [⟨initialKey, 1⟩]⟩⟩]⟩
  let header : BlockHeader β := ⟨initialTimestamp, 0, 1, 0, 0, chainId, 0, none, []⟩
  { blockNum := header.blockNum
    dposProposedIrreversibleBlocknum := 0
    dposIrreversibleBlocknum := 0
    activeSchedule := initialSchedule
    producerToLastProduced := []
    producerToLastImpliedIrb := []
    confirmCount := []
    blockId := header.calculateId env.toHeaderEnv
    header := header
    pendingSchedule := ⟨0, initialSchedule⟩
    activatedProtocolFeatures := ∅
    headerExts := [] }

def IsLegacyGenesis (s : BlockHeaderStateLegacy β) : Prop :=
  ∃ systemAccountName initialKey initialTimestamp chainId,
    s = initializeBlockchainState env systemAccountName initialKey initialTimestamp chainId

namespace BlockHeaderStateLegacy

/-- One block on another, with any time, any number of blocks to confirm and any header. -/
def Produces (s s' : BlockHeaderStateLegacy β) : Prop :=
  ∃ time numPrevBlocksToConfirm pending h validator,
    s.next time numPrevBlocksToConfirm = .returns pending ∧
      finishNext env pending h validator = .ok s'

theorem produces_of_nextOfHeader {env : LegacyEnv β} {s s' : BlockHeaderStateLegacy β}
    {h : BlockHeader β} {validator : Validator}
    (hnext : s.nextOfHeader env h validator = .returns s') : s.Produces env s' := by
  obtain ⟨pending, hpending, hfinish⟩ := bind_eq_returns.mp hnext
  exact ⟨_, _, pending, h, validator, hpending, ofExcept_eq_returns.mp hfinish⟩

variable (s s' : BlockHeaderStateLegacy β)

structure Keeps : Prop where
  activeSchedule : s'.activeSchedule = s.activeSchedule
  lastProduced : s'.producerToLastProduced =
    assign s.producerToLastProduced s'.header.producer s'.blockNum
  lastImpliedIrb : s'.producerToLastImpliedIrb =
    assign s.producerToLastImpliedIrb s'.header.producer s.dposProposedIrreversibleBlocknum
  pendingSchedule : s'.pendingSchedule = s.pendingSchedule ∨
    s'.pendingSchedule.scheduleLibNum = s'.blockNum

structure Switches : Prop where
  activeSchedule : s'.activeSchedule = s.pendingSchedule.schedule
  lastProduced : s'.producerToLastProduced = assign
    (carryOver s.producerToLastProduced s.pendingSchedule.schedule.producers s'.header.producer
      s'.blockNum s'.dposIrreversibleBlocknum) s'.header.producer s'.blockNum
  lastImpliedIrb : s'.producerToLastImpliedIrb =
    carryOver s.producerToLastImpliedIrb s.pendingSchedule.schedule.producers s'.header.producer
      s.dposProposedIrreversibleBlocknum s'.dposIrreversibleBlocknum
  pendingSchedule : s'.pendingSchedule.schedule.producers = []

structure Follows : Prop where
  scheduled : s'.header.producer ∈ s.activeSchedule.producers.map ProducerAuthority.producerName
  unconfirmed : s.checkDoubleConfirm s'.header.producer s'.header.confirmed = .ok ()
  blockNum : s'.blockNum = u32 (s.blockNum + 1)
  confirm : s.confirm s'.header.confirmed = (s'.confirmCount, s'.dposProposedIrreversibleBlocknum)
  irreversible : s'.dposIrreversibleBlocknum = s.calcDposLastIrreversible s'.header.producer
  keeps : s.promotes s'.dposIrreversibleBlocknum = false → s.Keeps s'
  switches : s.promotes s'.dposIrreversibleBlocknum = true → s.Switches s'

end BlockHeaderStateLegacy

variable {env : LegacyEnv β} {s s' : BlockHeaderStateLegacy β}

theorem BlockHeaderStateLegacy.next_eq_returns {time : BlockTimestamp} {num : UInt16}
    {pending : PendingBlockHeaderStateLegacy} (h : s.next time num = .returns pending) :
    pending.producer ∈ s.activeSchedule.producers.map ProducerAuthority.producerName ∧
      s.checkDoubleConfirm pending.producer num = .ok () ∧
      pending.toBlockHeaderStateLegacyCommon = s.nextCommon pending.producer num ∧
      pending.prevPendingSchedule = s.pendingSchedule ∧
      pending.wasPendingPromoted = s.promotes pending.dposIrreversibleBlocknum ∧
      pending.confirmed = num := by
  obtain ⟨when, -, h⟩ := bind_eq_returns.mp h
  obtain ⟨proauth, hproauth, h⟩ := bind_eq_returns.mp h
  obtain ⟨_, hcheck, h⟩ := bind_eq_returns.mp h
  cases h
  refine ⟨List.mem_map_of_mem ?_, ofExcept_eq_returns.mp hcheck, rfl, rfl, rfl, rfl⟩
  have hget := ofOption_eq_returns.mp hproauth
  rw [getScheduledProducer] at hget
  split_ifs at hget
  exact List.mem_of_getElem? hget

theorem PendingBlockHeaderStateLegacy.finishNext_eq_ok {p : PendingBlockHeaderStateLegacy}
    {h : BlockHeader β} {validator : Validator} (hfinish : p.finishNext env h validator = .ok s') :
    s'.toBlockHeaderStateLegacyCommon = p.toBlockHeaderStateLegacyCommon ∧
      s'.header.producer = p.producer ∧ s'.header.confirmed = p.confirmed ∧
      ∃ change, s'.pendingSchedule = p.nextPendingSchedule change ∧
        (change.isSome → p.wasPendingPromoted = false) := by
  simp only [finishNext, bind_eq_ok, eosAssert_eq_ok, decide_eq_true_eq] at hfinish
  obtain ⟨-, -, -, -, -, hconfirmed, -, hproducer, -, -, exts, -, fromHeader, hheader, change,
    hchange, _, -, hs'⟩ := hfinish
  cases hs'
  refine ⟨rfl, hproducer, hconfirmed, change, rfl, fun hsome => ?_⟩
  have hcheck : ∀ version, p.checkNewSchedule version = .ok () →
      p.wasPendingPromoted = false := by
    intro version hok
    simp only [checkNewSchedule, bind_eq_ok, eosAssert_eq_ok] at hok
    obtain ⟨-, hnot, -⟩ := hok
    simpa using hnot
  -- the change is the one of the extension, or else the one of the header field
  rw [scheduleChange] at hchange
  cases hext : exts.producerSchedule with
  | some schedule =>
    simp only [hext, bind_eq_ok, eosAssert_eq_ok] at hchange
    obtain ⟨_, -, _, hok, -⟩ := hchange
    exact hcheck _ hok
  | none =>
    simp only [hext, Except.ok.injEq] at hchange
    subst hchange
    rw [newProducers] at hheader
    cases hnew : h.newProducers with
    | none =>
      simp only [hnew, Except.ok.injEq] at hheader
      rw [← hheader] at hsome
      cases hsome
    | some schedule =>
      simp only [hnew, bind_eq_ok, eosAssert_eq_ok] at hheader
      obtain ⟨_, -, _, hok, -⟩ := hheader
      exact hcheck _ hok

namespace BlockHeaderStateLegacy

section NextCommon
variable (s) (producer : AccountName) (num : UInt16)

theorem nextCommon_blockNum : (s.nextCommon producer num).blockNum = u32 (s.blockNum + 1) := by
  rw [nextCommon]
  dsimp only
  split <;> rfl

theorem nextCommon_confirm : s.confirm num = ((s.nextCommon producer num).confirmCount,
    (s.nextCommon producer num).dposProposedIrreversibleBlocknum) := by
  rw [nextCommon]
  dsimp only
  split <;> rfl

theorem nextCommon_irreversible : (s.nextCommon producer num).dposIrreversibleBlocknum =
    s.calcDposLastIrreversible producer := by
  rw [nextCommon]
  dsimp only
  split <;> rfl

end NextCommon

theorem Produces.follows (h : s.Produces env s') : s.Follows s' := by
  obtain ⟨time, num, pending, header, validator, hnext, hfinish⟩ := h
  obtain ⟨hproducer, hcheck, hcommon, hprev, hpromoted, hnum⟩ := next_eq_returns hnext
  obtain ⟨hsame, hp, hconfirmed, change, hchange, hnot⟩ :=
    finishNext_eq_ok hfinish
  rw [hnum] at hconfirmed
  rw [← hp] at hproducer hcheck hcommon
  rw [← hconfirmed] at hcheck hcommon
  rw [← hsame] at hcommon hpromoted
  have hnumber := nextCommon_blockNum s s'.header.producer s'.header.confirmed
  have hconfirm := nextCommon_confirm s s'.header.producer s'.header.confirmed
  have hirr := nextCommon_irreversible s s'.header.producer s'.header.confirmed
  rw [← hcommon] at hnumber hconfirm hirr
  rw [nextCommon, ← hnumber, ← hirr, hconfirm] at hcommon
  dsimp only at hcommon
  refine ⟨hproducer, hcheck, hnumber, hconfirm, hirr, fun hkeep => ?_, fun hswitch => ?_⟩
  · rw [if_neg (by simp [hkeep])] at hcommon
    have hpending : s'.pendingSchedule = s.pendingSchedule ∨
        s'.pendingSchedule.scheduleLibNum = s'.blockNum := by
      rw [hchange]
      cases change with
      | none =>
        left
        simp [nextPendingSchedule, hpromoted, hkeep, hprev]
      | some schedule =>
        right
        simp [nextPendingSchedule, hsame]
    exact ⟨congrArg (·.activeSchedule) hcommon, congrArg (·.producerToLastProduced) hcommon,
      congrArg (·.producerToLastImpliedIrb) hcommon, hpending⟩
  · rw [if_pos hswitch] at hcommon
    have hpending : s'.pendingSchedule.schedule.producers = [] := by
      rw [hswitch] at hpromoted
      have hnone : change = none := by
        cases change with
        | none => rfl
        | some schedule => simp [hpromoted] at hnot
      simp [hchange, hnone, nextPendingSchedule, hpromoted]
    exact ⟨congrArg (·.activeSchedule) hcommon, congrArg (·.producerToLastProduced) hcommon,
      congrArg (·.producerToLastImpliedIrb) hcommon, hpending⟩

theorem Follows.blockNum_succ (h : s.Follows s') (hnum : s.blockNum + 1 < 2 ^ 32) :
    s'.blockNum = s.blockNum + 1 := by
  rw [h.blockNum, u32_of_lt hnum]

end BlockHeaderStateLegacy

theorem find_carryOver (existing : List (AccountName × ℕ)) (producers : List ProducerAuthority)
    (producer : AccountName) (own fresh : ℕ) (p : AccountName) :
    find (carryOver existing producers producer own fresh) p =
      if p ∈ producers.map ProducerAuthority.producerName then
        some (if p = producer then own else (find existing p).getD fresh)
      else none := by
  let value (k : AccountName) := if k = producer then own else (find existing k).getD fresh
  exact find_foldl_assign_of_key (f := value) producers [] p

structure LegacyPlan where
  slot : UInt32
  producer : AccountName
  confirmed : UInt16
  scheduleVersion : UInt32
  newProducers : Option LegacyProducerSchedule

def LegacyPlan.header (plan : LegacyPlan) (previous : BlockId) : BlockHeader BlockHeaderExtension :=
  ⟨⟨plan.slot⟩, plan.producer, plan.confirmed, previous, 0, 0, plan.scheduleVersion,
    plan.newProducers, []⟩

def legacyZeroHashEnv : LegacyEnv BlockHeaderExtension := ⟨zeroHashEnv, none⟩

def legacyChain (s : BlockHeaderStateLegacy BlockHeaderExtension) : List LegacyPlan →
    Outcome Failure (List (BlockHeaderStateLegacy BlockHeaderExtension))
  | [] => .returns [s]
  | plan :: rest => do
    let s' ← s.nextOfHeader legacyZeroHashEnv (plan.header s.blockId) fun _ _ _ => .ok ()
    let chain ← legacyChain s' rest
    return s :: chain

/-- Four producers replace the system account, and are replaced by the one of them that
produced nothing and a new one. The last block is the first of the new producer. -/
def rotationPlan : List LegacyPlan :=
  [⟨2, 9, 0, 0, none⟩, ⟨3, 9, 0, 0, some ⟨1, [(1, ""), (2, ""), (3, ""), (4, "")]⟩⟩,
    ⟨4, 9, 0, 0, none⟩, ⟨12, 2, 0, 1, some ⟨2, [(1, ""), (5, "")]⟩⟩, ⟨24, 3, 1, 1, none⟩,
    ⟨36, 4, 2, 1, none⟩, ⟨60, 2, 2, 1, none⟩, ⟨72, 3, 2, 1, none⟩, ⟨84, 4, 2, 1, none⟩,
    ⟨85, 5, 0, 2, none⟩]

def rotationGenesis : BlockHeaderStateLegacy BlockHeaderExtension :=
  initializeBlockchainState legacyZeroHashEnv 9 "" ⟨1⟩ 0

def rotationBlocks : List (BlockHeaderStateLegacy BlockHeaderExtension) :=
  (legacyChain rotationGenesis rotationPlan).getD []

theorem legacyChain_isChain {s : BlockHeaderStateLegacy BlockHeaderExtension}
    {plans : List LegacyPlan} {blocks : List (BlockHeaderStateLegacy BlockHeaderExtension)}
    (h : legacyChain s plans = .returns blocks) :
    ∃ rest, blocks = s :: rest ∧
      blocks.IsChain (BlockHeaderStateLegacy.Produces legacyZeroHashEnv) := by
  induction plans generalizing s blocks with
  | nil =>
    cases h
    exact ⟨[], rfl, .singleton s⟩
  | cons plan plans ih =>
    obtain ⟨s', hs', h⟩ := bind_eq_returns.mp h
    obtain ⟨chain, hchain, h⟩ := bind_eq_returns.mp h
    cases h
    obtain ⟨rest, rfl, hrest⟩ := ih hchain
    exact ⟨_, rfl, hrest.cons_cons (BlockHeaderStateLegacy.produces_of_nextOfHeader hs')⟩

theorem legacyChain_getD_isChain (s : BlockHeaderStateLegacy BlockHeaderExtension)
    (plans : List LegacyPlan) (h : (legacyChain s plans).isReturns = true) :
    ∃ rest, (legacyChain s plans).getD [] = s :: rest ∧
      (s :: rest).IsChain (BlockHeaderStateLegacy.Produces legacyZeroHashEnv) := by
  obtain ⟨blocks, hblocks⟩ := isReturns_iff.mp h
  obtain ⟨rest, rfl, hchain⟩ := legacyChain_isChain hblocks
  exact ⟨rest, by rw [hblocks]; rfl, hchain⟩

end FlonCore
