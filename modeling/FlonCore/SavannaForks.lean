import FlonCore.ForkPersistence
import FlonCore.HeaderChain

/-!
# The fork database of Savanna blocks

Under Savanna the best branch is ordered by the time of the latest QC, then by
the time of the block. Where each block is later than its parent, neither goes
back along a chain: the references a core keeps are ordered in time, and a claim
never moves to an older reference. So a parent sorts below its children, and the
fork database can be read back.
-/

namespace FlonCore
open Library FinalityCore ForkDatabase List
variable {β : Type}

namespace BlockHeaderState

def latestQcSlot (s : BlockHeaderState β) : ℕ :=
  (s.core.latestQcBlockTimestamp.map fun t => t.slot.toNat).getD 0

/-- `extract_qc_claim`, if the claim is strong. -/
def strongClaim (s : BlockHeaderState β) : Option ℕ :=
  s.headerExts.finality.bind fun fExt =>
    if fExt.qcClaim.isStrongQc then some fExt.qcClaim.blockNum else none

end BlockHeaderState

instance : ForkBlock (BlockHeaderState β) where
  id s := s.blockId
  previous s := s.header.previous
  blockNum s := s.blockNum
  bestBranchKey s := toLex (s.latestQcSlot, toLex (s.timestamp.slot.toNat, s.blockId.toNat))
  bestBranchKey_id a b h := by
    simpa [BitVec.toNat_inj] using congrArg (fun k => (ofLex (ofLex k).2).2) h
  strongClaim s := s.strongClaim
  latestQcClaimId s := (s.core.getBlockReference s.core.latestQcClaim.blockNum).map BlockRef.blockId

/-- A block that is also later than its parent, which `next` asserts but does not check. -/
def ExtendsLater (env : HeaderEnv β) (S S' : BlockHeaderState β) : Prop :=
  Extends env S S' ∧ S.timestamp < S'.timestamp

inductive SavannaBlock (env : HeaderEnv β)
    (Step : BlockHeaderState β → BlockHeaderState β → Prop) : BlockHeaderState β → Prop
  | genesis {G : BlockHeaderState β} : IsSavannaGenesis env G → SavannaBlock env Step G
  | next {S S' : BlockHeaderState β} :
      SavannaBlock env Step S → Step S S' → SavannaBlock env Step S'

structure Timed (S : BlockHeaderState β) : Prop where
  sorted : S.core.refs.Pairwise fun a b => a.timestamp ≤ b.timestamp
  le_block : ∀ ref ∈ S.core.refs, ref.timestamp ≤ S.timestamp
  genesis : S.core.refs = [] → S.core.genesisTimestamp = S.timestamp

variable {env : HeaderEnv β} {S S' : BlockHeaderState β}

theorem makeBlockRef_timestamp {ref : BlockRef} (h : S.makeBlockRef env = some ref) :
    ref.timestamp = S.timestamp := by
  obtain ⟨digest, -, rfl⟩ := Option.map_eq_some_iff.mp h
  rfl

theorem SavannaBlock.mono {Step Step' : BlockHeaderState β → BlockHeaderState β → Prop}
    (hstep : ∀ S S', Step S S' → Step' S S') (h : SavannaBlock env Step S) :
    SavannaBlock env Step' S := by
  induction h with
  | genesis hG => exact .genesis hG
  | next _ hnext ih => exact .next ih (hstep _ _ hnext)

theorem SavannaBlock.linked (h : SavannaBlock env (Extends env) S) :
    (∃ chain, Linked env chain S) ∨ Wrapped S := by
  induction h with
  | genesis hG => exact .inl ⟨_, hG.linked⟩
  | next _ hext ih =>
    rcases ih with ⟨chain, hlinked⟩ | hwrapped
    · exact (hlinked.next hext).imp_left fun h => ⟨_, h⟩
    · exact (hwrapped.not_extends hext).elim

theorem Timed.next {chain : List (BlockHeaderState β)} (hlinked : Linked env chain S)
    (h : Timed S) (hstep : ExtendsLater env S S') : Timed S' := by
  obtain ⟨hext, htime⟩ := hstep
  obtain ⟨fExt, ref, l, hcore⟩ := hlinked.core_next hext
  have hrefs : S'.core.refs = S.core.refs.drop (l.targetBlockNum - S.core.lastFinalBlockNum) ++
      [ref] := by rw [hcore.core_eq]; rfl
  have hrefTime := makeBlockRef_timestamp hcore.ref_eq
  refine ⟨?_, fun r hr => ?_, fun hnil => ?_⟩
  · rw [hrefs]
    refine pairwise_append_one (h.sorted.sublist (drop_sublist _ _)) fun r hr => ?_
    rw [hrefTime]
    exact h.le_block r (mem_of_mem_drop hr)
  · rw [hrefs] at hr
    rcases mem_append.mp hr with hr | hr
    · exact (h.le_block r (mem_of_mem_drop hr)).trans htime.le
    · rw [mem_singleton.mp hr, hrefTime]
      exact htime.le
  · simp [hrefs] at hnil

theorem SavannaBlock.timed (h : SavannaBlock env (ExtendsLater env) S) : Timed S := by
  induction h with
  | genesis hG =>
    obtain ⟨bsp, fExt, policy, -, -, -, hheader, -, hcore, -⟩ := hG.created
    refine ⟨?_, ?_, fun _ => ?_⟩
    · rw [hcore]
      exact List.Pairwise.nil
    · rw [hcore]
      exact nofun
    · rw [hcore, BlockHeaderState.timestamp, hheader]
      rfl
  | next hS hstep ih =>
    rcases (hS.mono fun _ _ h => h.1).linked with ⟨chain, hlinked⟩ | hwrapped
    · exact ih.next hlinked hstep
    · exact (hwrapped.not_extends hstep.1).elim

variable {chain : List (BlockHeaderState β)}

theorem Linked.latestQc_genesis (hlinked : Linked env chain S)
    (h : Timed S) (hnil : S.core.refs = []) :
    S.core.latestQcClaim.blockNum = S.blockNum ∧
      S.core.latestQcBlockTimestamp = some S.timestamp := by
  have hlen := hlinked.shape.refs_length
  have hge := hlinked.shape.final_le_claim
  have hle := hlinked.shape.claim_le_height
  rw [hnil, length_nil] at hlen
  refine ⟨by omega, ?_⟩
  rw [latestQcBlockTimestamp, if_pos (by simp [isGenesisCore, hnil]), h.genesis hnil]

theorem Linked.latestQc_reference (hlinked : Linked env chain S) (hrefs : S.core.refs ≠ []) :
    ∃ r, S.core.getBlockReference S.core.latestQcClaim.blockNum = some r ∧
      S.core.latestQcBlockTimestamp = some r.timestamp := by
  have hlt := hlinked.claim_lt.resolve_left hrefs
  obtain ⟨r, hr, -⟩ := hlinked.shape.getBlockReference hlinked.shape.final_le_claim hlt
  refine ⟨r, hr, ?_⟩
  rw [latestQcBlockTimestamp, if_neg (by simp [isGenesisCore, hrefs])]
  exact congrArg (Option.map BlockRef.timestamp) hr

theorem Timed.reference_le {height m n : ℕ} {a b : BlockRef} (h : Timed S)
    (hshape : CoreShape height S.core) (hf : S.core.lastFinalBlockNum ≤ m) (hmn : m ≤ n)
    (hn : n < height) (ha : S.core.getBlockReference m = some a)
    (hb : S.core.getBlockReference n = some b) : a.timestamp ≤ b.timestamp := by
  have hh := hshape.height_le
  rw [getBlockReference, wrapSub_of_le (by omega) (by omega)] at ha hb
  rcases Nat.lt_or_eq_of_le hmn with hlt | rfl
  · exact pairwise_getElem? h.sorted (by omega) ha hb
  · rw [ha] at hb
    cases hb
    exact le_rfl

theorem Timed.latestQc_next (hlinked : Linked env chain S)
    (h : Timed S) (hext : Extends env S S') :
    ∃ t t', S.core.latestQcBlockTimestamp = some t ∧ S'.core.latestQcBlockTimestamp = some t' ∧
      t ≤ t' := by
  obtain ⟨fExt, ref, l, hstep⟩ := hlinked.core_next hext
  have href := hstep.ref_eq
  have hl := hstep.link
  have hcore := hstep.core_eq
  have hlatest := hstep.claim_eq
  have hge := hstep.claim_mono
  have hle := hstep.claim_le
  have hfc := hstep.final_le_claim
  have hlt : S.blockNum < 2 ^ 32 := S.header.blockNum_lt
  have hrefs' : S'.core.isGenesisCore = false := by simp [isGenesisCore, hcore, advance]
  rw [hstep.final_eq, hlatest] at hfc
  have htime' : S'.core.latestQcBlockTimestamp =
      (S'.core.getBlockReference fExt.qcClaim.blockNum).map BlockRef.timestamp := by
    rw [← hlatest, latestQcBlockTimestamp, hrefs']
    rfl
  rcases Nat.lt_or_eq_of_le hle with hbelow | hself
  · -- an ancestor of the parent is claimed, so the parent is not a genesis block
    have hrefs : S.core.refs ≠ [] := fun hnil => by
      have := (hlinked.latestQc_genesis h hnil).1
      omega
    obtain ⟨r, hr, ht⟩ := hlinked.latestQc_reference hrefs
    have hfl := hlinked.shape.final_le_claim
    obtain ⟨r', hr', -⟩ := hlinked.shape.getBlockReference (by omega) hbelow
    refine ⟨r.timestamp, r'.timestamp, ht, ?_, h.reference_le hlinked.shape hfl hge hbelow hr hr'⟩
    rw [htime', hcore, advance_getBlockReference_of_lt hlinked.shape hl hfc hbelow, hr']
    rfl
  · have ht' : S'.core.latestQcBlockTimestamp = some S.timestamp := by
      rw [htime', hself, hcore, advance_getBlockReference_self hlinked.shape hl (by omega) hlt,
        Option.map_some, makeBlockRef_timestamp href]
    by_cases hnil : S.core.refs = []
    · exact ⟨_, _, (hlinked.latestQc_genesis h hnil).2, ht', le_rfl⟩
    · obtain ⟨r, hr, ht⟩ := hlinked.latestQc_reference hnil
      exact ⟨_, _, ht, ht', h.le_block r (mem_of_getElem? hr)⟩

/-- A set of Savanna blocks whose ids tell them apart, each built on the block it names as
its parent if that is in the set. -/
structure SavannaForest (env : HeaderEnv β)
    (Step : BlockHeaderState β → BlockHeaderState β → Prop) (U : Set (BlockHeaderState β)) :
    Prop where
  block : ∀ S ∈ U, SavannaBlock env Step S
  id_inj : ∀ S ∈ U, ∀ S' ∈ U, S.blockId = S'.blockId → S = S'
  child : ∀ S ∈ U, ∀ S' ∈ U, S'.header.previous = S.blockId → Step S S'

namespace SavannaForest
variable {U : Set (BlockHeaderState β)}

theorem of_later (hU : SavannaForest env (ExtendsLater env) U) :
    SavannaForest env (Extends env) U :=
  ⟨fun S hS => (hU.block S hS).mono fun _ _ h => h.1, hU.id_inj,
    fun S hS S' hS' hprev => (hU.child S hS S' hS' hprev).1⟩

def height (S : BlockHeaderState β) : ℕ := if S.blockNum = 0 then 2 ^ 32 else S.blockNum

theorem linked (hU : SavannaForest env (Extends env) U) (hS : S ∈ U) (hS' : S' ∈ U)
    (hprev : S'.header.previous = S.blockId) : ∃ chain, Linked env chain S :=
  (hU.block S hS).linked.resolve_right fun hwrapped =>
    hwrapped.not_extends (hU.child S hS S' hS' hprev)

theorem lineage (hU : SavannaForest env (Extends env) U) : Lineage height U := by
  refine ⟨hU.id_inj, fun S' hS' S hS hprev => ?_⟩
  obtain ⟨chain, hlinked⟩ := hU.linked hS hS' hprev
  have hpos := hlinked.num_pos
  have hlt : S.blockNum < 2 ^ 32 := S.header.blockNum_lt
  have hsucc := hlinked.blockNum_succ (hU.child S hS S' hS' hprev)
  unfold height
  split_ifs <;> omega

theorem numbered (hU : SavannaForest env (Extends env) U) (hnum : ∀ S ∈ U, S.blockNum ≠ 0) :
    NumberedIds U := by
  refine ⟨fun S hS => ?_, fun S hS => ?_⟩
  · rcases (hU.block S hS).linked with ⟨chain, hlinked⟩ | hwrapped
    · exact hlinked.id_num
    · exact absurd hwrapped.num_eq (hnum S hS)
  · have hne := hnum S hS
    have hlt := numFromId_lt S.header.previous
    change u32 (numFromId S.header.previous + 1) ≠ 0 at hne
    change u32 (numFromId S.header.previous + 1) = numFromId S.header.previous + 1
    unfold u32 at hne ⊢
    omega

theorem counts : Counts height U := by
  intro S _
  refine ⟨?_, fun hpos => if_neg (Nat.pos_iff_ne_zero.mp hpos)⟩
  change S.blockNum ≤ height S
  unfold height
  split_ifs <;> omega

theorem bestBranchKey_lt (hU : SavannaForest env (ExtendsLater env) U) (hS : S ∈ U)
    (hS' : S' ∈ U) (hprev : S'.header.previous = S.blockId) :
    ForkBlock.bestBranchKey S < ForkBlock.bestBranchKey S' := by
  obtain ⟨chain, hlinked⟩ := hU.of_later.linked hS hS' hprev
  obtain ⟨hext, htime⟩ := hU.child S hS S' hS' hprev
  obtain ⟨t, t', ht, ht', hle⟩ := (hU.block S hS).timed.latestQc_next hlinked hext
  have hslot : S.latestQcSlot ≤ S'.latestQcSlot := by
    rw [BlockHeaderState.latestQcSlot, BlockHeaderState.latestQcSlot, ht, ht']
    exact hle
  rcases hslot.lt_or_eq with hlt | heq
  · exact Prod.Lex.toLex_lt_toLex.mpr (.inl hlt)
  · exact Prod.Lex.toLex_lt_toLex.mpr (.inr ⟨heq, Prod.Lex.toLex_lt_toLex.mpr (.inl htime)⟩)

theorem reopens_iff (hU : SavannaForest env (Extends env) U)
    {db : ForkDatabase (BlockHeaderState β)} (hdb : Reached U db) {r : BlockHeaderState β}
    (hr : db.root = some r) : db.Reopens ↔ db.ParentsBelow :=
  (hdb.tree hU.lineage).reopens_iff hU.lineage hr (hdb.noted hU.lineage counts)

theorem reopens (hU : SavannaForest env (ExtendsLater env) U)
    {db : ForkDatabase (BlockHeaderState β)} (hdb : Reached U db) {r : BlockHeaderState β}
    (hr : db.root = some r) : db.Reopens := by
  have htree := hdb.tree hU.of_later.lineage
  refine (hU.of_later.reopens_iff hdb hr).mpr fun b hb p hp hkey => ?_
  exact hU.bestBranchKey_lt (htree.index_mem p hp) (htree.index_mem b hb) hkey.symm

end SavannaForest
end FlonCore
