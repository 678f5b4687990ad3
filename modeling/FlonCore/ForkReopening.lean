import FlonCore.LegacyChain
import FlonCore.PolicyLifecycle
import FlonCore.SavannaForks

/-!
# Which fork databases can be opened again

Before Savanna the best branch is ordered by the irreversible block number. That
number is a rank among the producers of the active schedule, so it may drop when
a new schedule replaces the producers whose entries were the highest ones. A block
below such a drop is written before its parent, and the file cannot be read back.
-/

namespace FlonCore
open Library ForkDatabase List
variable {β : Type}

instance : ForkBlock (BlockHeaderStateLegacy β) where
  id s := s.blockId
  previous s := s.header.previous
  blockNum s := s.blockNum
  bestBranchKey s := toLex (s.irreversibleBlocknum, toLex (s.blockNum, s.blockId.toNat))
  bestBranchKey_id a b h := by
    simpa [BitVec.toNat_inj] using congrArg (fun k => (ofLex (ofLex k).2).2) h
  strongClaim _ := none
  latestQcClaimId _ := none

/-- Legacy blocks built from a genesis state by `next`. -/
inductive LegacyBlock (env : LegacyEnv β) : BlockHeaderStateLegacy β → Prop
  | genesis (systemAccountName : AccountName) (initialKey : String)
      (initialTimestamp : BlockTimestamp) (chainId : Digest) : LegacyBlock env
        (initializeBlockchainState env systemAccountName initialKey initialTimestamp chainId)
  | next {s s' : BlockHeaderStateLegacy β} {h : BlockHeader β} {validator : Validator} :
      LegacyBlock env s → s.nextOfHeader env h validator = .returns s' → LegacyBlock env s'

/-- A set of legacy blocks whose ids tell them apart, none its own ancestor, and each built
on the block it names as its parent if that is in the set. -/
structure LegacyForest (env : LegacyEnv β) (level : BlockHeaderStateLegacy β → ℕ)
    (U : Set (BlockHeaderStateLegacy β)) : Prop where
  block : ∀ s ∈ U, LegacyBlock env s
  lineage : Lineage level U
  child : ∀ s ∈ U, ∀ s' ∈ U, s'.header.previous = s.blockId →
    ∃ h validator, s.nextOfHeader env h validator = .returns s'

variable {env : LegacyEnv β} {level : BlockHeaderStateLegacy β → ℕ}
  {U : Set (BlockHeaderStateLegacy β)} {s s' : BlockHeaderStateLegacy β}
  {db : ForkDatabase (BlockHeaderStateLegacy β)}

theorem LegacyBlock.blockNum_lt (h : LegacyBlock env s) : s.blockNum < 2 ^ 32 := by
  cases h with
  | genesis => exact BlockHeader.blockNum_lt _
  | next _ hnext =>
    rw [(BlockHeaderStateLegacy.produces_of_nextOfHeader hnext).follows.blockNum]
    exact Nat.mod_lt _ (Nat.two_pow_pos 32)

/-- A parent sorts below its child unless the irreversible number drops, or stays while the
block number wraps. -/
theorem LegacyForest.bestBranchKey_lt_iff (hU : LegacyForest env level U) (hs : s ∈ U)
    (hs' : s' ∈ U) (hprev : s'.header.previous = s.blockId) :
    ForkBlock.bestBranchKey s < ForkBlock.bestBranchKey s' ↔
      s.irreversibleBlocknum ≤ s'.irreversibleBlocknum ∧
        (s.irreversibleBlocknum = s'.irreversibleBlocknum → s'.blockNum ≠ 0) := by
  obtain ⟨h, validator, hnext⟩ := hU.child s hs s' hs' hprev
  have hnum := (BlockHeaderStateLegacy.produces_of_nextOfHeader hnext).follows.blockNum
  have hlt := (hU.block s hs).blockNum_lt
  -- the numbers differ, so the ids do not decide
  have hne : s'.blockNum = s.blockNum + 1 ∨ s'.blockNum = 0 ∧ 0 < s.blockNum := by
    rcases Nat.lt_or_ge (s.blockNum + 1) (2 ^ 32) with hsmall | hbig
    · exact .inl (by rw [hnum, u32_of_lt hsmall])
    · rw [show s.blockNum + 1 = 2 ^ 32 by omega] at hnum
      exact .inr ⟨hnum, by omega⟩
  change toLex (_, toLex (_, _)) < toLex (_, toLex (_, _)) ↔ _
  simp only [Prod.Lex.toLex_lt_toLex]
  omega

theorem noted_of_legacy (db : ForkDatabase (BlockHeaderStateLegacy β)) : db.Noted :=
  fun _ _ _ _ hclaim => nomatch hclaim

theorem LegacyForest.reopens_iff (hU : LegacyForest env level U) (hdb : Reached U db)
    {r : BlockHeaderStateLegacy β} (hr : db.root = some r) :
    db.Reopens ↔ ∀ b ∈ db.index, ∀ p ∈ db.index, p.blockId = b.header.previous →
      p.irreversibleBlocknum ≤ b.irreversibleBlocknum ∧
        (p.irreversibleBlocknum = b.irreversibleBlocknum → b.blockNum ≠ 0) := by
  have htree := hdb.tree hU.lineage
  rw [htree.reopens_iff hU.lineage hr (noted_of_legacy db)]
  refine forall₂_congr fun b hb => forall₂_congr fun p hp => imp_congr_right fun hkey => ?_
  exact hU.bestBranchKey_lt_iff (htree.index_mem p hp) (htree.index_mem b hb) hkey.symm

/-- Closing and opening, for the two kinds of block states. -/
theorem forkDatabase_reopens {env : HeaderEnv β} {legacyEnv : LegacyEnv β}
    {level : BlockHeaderStateLegacy β → ℕ} {U : Set (BlockHeaderState β)}
    {V : Set (BlockHeaderStateLegacy β)} (hU : SavannaForest env (Extends env) U)
    (hV : LegacyForest legacyEnv level V) :
    (∀ db r, Reached U db → db.root = some r →
      (db.Reopens ↔ db.ParentsBelow) ∧ (SavannaForest env (ExtendsLater env) U → db.Reopens)) ∧
    ∀ db r, Reached V db → db.root = some r →
      (db.Reopens ↔ ∀ b ∈ db.index, ∀ p ∈ db.index, p.blockId = b.header.previous →
        p.irreversibleBlocknum ≤ b.irreversibleBlocknum ∧
          (p.irreversibleBlocknum = b.irreversibleBlocknum → b.blockNum ≠ 0)) :=
  ⟨fun _ _ hdb hr => ⟨hU.reopens_iff hdb hr, fun hlater => hlater.reopens hdb hr⟩,
    fun _ _ hdb hr => hV.reopens_iff hdb hr⟩

/-- The first `n` blocks of the chain, with the fifth as root. -/
def rotationForks (n : ℕ) : ForkDatabase (BlockHeaderStateLegacy BlockHeaderExtension) :=
  ⟨rotationBlocks[4]?, 0, (rotationBlocks.take n).drop 5⟩

theorem rotationBlocks_built : ∀ s' ∈ rotationBlocks, s' = rotationGenesis ∨
    ∃ s ∈ rotationBlocks, s.blockNum < s'.blockNum ∧
      s.nextOfHeader legacyZeroHashEnv s'.header (fun _ _ _ => .ok ()) = .returns s' := by
  decide +kernel

theorem rotationBlocks_legacyBlock (n : ℕ) : ∀ s ∈ rotationBlocks, s.blockNum < n →
    LegacyBlock legacyZeroHashEnv s := by
  induction n with
  | zero => exact fun s _ hlt => absurd hlt (Nat.not_lt_zero _)
  | succ n ih =>
    intro s' hs' hlt
    rcases rotationBlocks_built s' hs' with rfl | ⟨s, hs, hnum, hnext⟩
    · exact .genesis 9 "" ⟨1⟩ 0
    · exact .next (ih s hs (by omega)) hnext

theorem rotationBlocks_forest : LegacyForest legacyZeroHashEnv
    (fun s => s.blockNum) {s | s ∈ rotationBlocks} := by
  refine ⟨fun s hs => rotationBlocks_legacyBlock _ s hs (Nat.lt_succ_self _), ⟨?_, ?_⟩, ?_⟩
  · change ∀ a ∈ rotationBlocks, ∀ b ∈ rotationBlocks, a.blockId = b.blockId → a = b
    decide +kernel
  · change ∀ b ∈ rotationBlocks, ∀ p ∈ rotationBlocks, b.header.previous = p.blockId →
      p.blockNum < b.blockNum
    decide +kernel
  · have hchild : ∀ s ∈ rotationBlocks, ∀ s' ∈ rotationBlocks, s'.header.previous = s.blockId →
        s.nextOfHeader legacyZeroHashEnv s'.header (fun _ _ _ => .ok ()) = .returns s' := by
      decide +kernel
    exact fun s hs s' hs' hprev => ⟨_, _, hchild s hs s' hs' hprev⟩

def rotationCalls (n : ℕ) : List (ForkCall (BlockHeaderStateLegacy BlockHeaderExtension)) :=
  .resetRoot rotationGenesis :: ((rotationBlocks.take n).drop 1).map (.add · false) ++
    [.advanceRoot (fun _ => true) (stampId 0 5)]

theorem rotationForks_reached {n : ℕ}
    (hrun : (rotationCalls n).foldlM call empty = .returns (rotationForks n)) :
    Reached {s | s ∈ rotationBlocks} (rotationForks n) := by
  refine Reached.empty.run _ (fun c hc => ?_) hrun
  simp only [rotationCalls, cons_append, mem_cons, mem_append, mem_map, not_mem_nil, or_false] at hc
  rcases hc with rfl | ⟨b, hb, rfl⟩ | rfl
  · change rotationGenesis ∈ rotationBlocks
    decide +kernel
  · exact mem_of_mem_take (mem_of_mem_drop hb)
  · trivial

def savannaPair : List (BlockHeaderState BlockHeaderExtension) :=
  [plainGenesis 1, plainNext (plainGenesis 1) 1 none]

theorem savannaPair_forest :
    SavannaForest zeroHashEnv (ExtendsLater zeroHashEnv) {S | S ∈ savannaPair} := by
  have hstep : ExtendsLater zeroHashEnv (plainGenesis 1) (plainNext (plainGenesis 1) 1 none) :=
    ⟨(plainNext_extends (plainGenesis 1) 1 none (by decide +kernel) (by decide +kernel)
      (by decide +kernel) nofun).1, by decide +kernel⟩
  have hgenesis : SavannaBlock zeroHashEnv (ExtendsLater zeroHashEnv) (plainGenesis 1) :=
    .genesis (plainGenesis_isSavannaGenesis Nat.one_pos (by decide))
  refine ⟨?_, ?_, ?_⟩
  · change ∀ S ∈ savannaPair, _
    rw [savannaPair, forall_mem_cons, forall_mem_singleton]
    exact ⟨hgenesis, hgenesis.next hstep⟩
  · change ∀ S ∈ savannaPair, ∀ S' ∈ savannaPair, S.blockId = S'.blockId → S = S'
    decide +kernel
  · have hpair : ∀ S ∈ savannaPair, ∀ S' ∈ savannaPair, S'.header.previous = S.blockId →
        S = plainGenesis 1 ∧ S' = plainNext (plainGenesis 1) 1 none := by decide +kernel
    intro S hS S' hS' hprev
    obtain ⟨rfl, rfl⟩ := hpair S hS S' hS' hprev
    exact hstep

def savannaForks : ForkDatabase (BlockHeaderState BlockHeaderExtension) :=
  ⟨some (plainGenesis 1), 0, [plainNext (plainGenesis 1) 1 none]⟩

theorem savannaForks_reached : Reached {S | S ∈ savannaPair} savannaForks := by
  refine Reached.empty.run [.resetRoot (plainGenesis 1),
    .add (plainNext (plainGenesis 1) 1 none) false] ?_ (by decide +kernel)
  simp [ForkCall.Uses, savannaPair]

theorem forkDatabase_reopens_before_drop : savannaForks.Reopens ∧ (rotationForks 10).Reopens := by
  obtain ⟨hsavanna, hlegacy⟩ :=
    forkDatabase_reopens savannaPair_forest.of_later rotationBlocks_forest
  refine ⟨(hsavanna savannaForks _ savannaForks_reached rfl).2 savannaPair_forest, ?_⟩
  obtain ⟨r, hr⟩ : ∃ r, (rotationForks 10).root = some r :=
    Option.isSome_iff_exists.mp (by decide +kernel)
  exact (hlegacy _ r (rotationForks_reached (by decide +kernel)) hr).mpr (by decide +kernel)

/-- The last block has a lower irreversible number than its parent, is read before it and is
found unlinkable. -/
theorem rotationForks_not_reopened :
    LegacyForest legacyZeroHashEnv (fun s => s.blockNum) {s | s ∈ rotationBlocks} ∧
      Reached {s | s ∈ rotationBlocks} (rotationForks 11) ∧
      ∃ file closed db, (rotationForks 11).closeImpl = some (file, closed) ∧
        empty.openImpl file (fun _ _ => true) = .throws (⟨.unlinkableBlockException,
          "forkdb unlinkable block ${id} previous ${p}"⟩, db) := by
  refine ⟨rotationBlocks_forest, rotationForks_reached (by decide +kernel),
    ⟨0, rotationBlocks.getD 4 rotationGenesis, (rotationForks 11).byBestBranch.reverse⟩,
    { rotationForks 11 with index := [] }, rotationForks 6, ?_, ?_⟩
  · decide +kernel
  · decide +kernel

end FlonCore
