import FlonCore.Safety

/-!
# The votes of one finalizer

One finalizer is shown the blocks of a tree in any order, switching between forks
as it likes. The time of another branch is forgotten with every strong vote; what
a strong vote says about the votes before it holds through the QC times, which do
not decrease along a branch.
-/

namespace FlonCore
open Library TwoChain List

/-- The blocks above a common block, each with the blocks in between, told apart by their
ids. -/
structure TreeAbove (anchor : ProperBlock) (blocks : Set ProperBlock) : Prop where
  anchor_mem : anchor ∈ blocks
  above : ∀ b ∈ blocks, anchor ≤ b
  closed : ∀ b ∈ blocks, ∀ a, anchor ≤ a → a ≤ b → a ∈ blocks
  ids : Set.InjOn (fun b : ProperBlock => b.1.ref.blockId) blocks

structure Cast where
  block : ProperBlock
  decision : VoteDecision
  fsi : FinalizerSafetyInformation

namespace Cast

def qcTime (e : Cast) : Option BlockTimestamp :=
  e.block.1.core.bind FinalityCore.latestQcBlockTimestamp

def ballot (e : Cast) : Option (Ballot ProperBlock) :=
  match e.decision with
  | .noVote => none
  | .strongVote => some ⟨e.block, true⟩
  | .weakVote => some ⟨e.block, false⟩

end Cast

structure VoterState where
  log : List Cast
  fsi : FinalizerSafetyInformation

namespace VoterState

def start (anchor : ProperBlock) : VoterState := ⟨[], anchor.1.ref, anchor.1.ref, .zero⟩

def present (s : VoterState) (b : ProperBlock) : Option VoterState := do
  let core ← b.1.core
  let (res, fsi) ← decideVote s.fsi ⟨b.1.ref, core⟩
  return ⟨⟨b, res.decision, fsi⟩ :: s.log, fsi⟩

end VoterState

namespace TreeAbove
variable {anchor b x : ProperBlock} {blocks : Set ProperBlock} (h : TreeAbove anchor blocks)
  (hb : b ∈ blocks)
include h hb

theorem root_le (hx : x ∈ blocks) : b.1.root ≤ x.1 := by
  rw [← Block.root_eq_of_le (h.above b hb), Block.root_eq_of_le (h.above x hx)]
  exact Block.root_le x.1

theorem eq_of_id (hx : x ∈ blocks) : ∀ a ≤ b, a.1.ref.blockId = x.1.ref.blockId → a = x := by
  intro a ha hid
  rcases Block.branch ha (h.above b hb) with hle | hge
  · exact Subtype.ext (x.2.eq_of_num (hle.trans (h.above x hx)) le_rfl (congrArg numFromId hid))
  · exact h.ids (h.closed b hb a hge ha) hx hid

theorem just_mem (hlater : savannaTree.time anchor < savannaTree.time (savannaTree.just b)) :
    savannaTree.just b ∈ blocks :=
  h.closed b hb _ (savannaTree.le_of_time_le (h.above b hb) (savannaTree.just_le b) hlater.le)
    (savannaTree.just_le b)

end TreeAbove

open Cast

open VoterState

namespace VoterState
variable {anchor : ProperBlock} {blocks : Set ProperBlock} {s : VoterState}

def states (anchor : ProperBlock) (s : VoterState) : List FinalizerSafetyInformation :=
  s.log.map Cast.fsi ++ [(start anchor).fsi]

def voteStates (anchor : ProperBlock) (s : VoterState) : List FinalizerSafetyInformation :=
  (s.log.filter fun e => e.decision != .noVote).map Cast.fsi ++ [(start anchor).fsi]

structure Inv (anchor : ProperBlock) (blocks : Set ProperBlock) (s : VoterState) : Prop where
  remembers : ∃ m, Represents s.fsi m ∧ m.lastVote ∈ blocks ∧ m.lock ∈ blocks ∧
    Remembers savannaTree anchor (fun _ => True) m (s.log.filterMap ballot)
  locks_le : ∀ f ∈ states anchor s, f.lock.timestamp ≤ s.fsi.lock.timestamp
  locks : (states anchor s).Pairwise fun later earlier =>
    earlier.lock.timestamp ≤ later.lock.timestamp
  votes_le : ∀ f ∈ voteStates anchor s, f.lastVote.timestamp ≤ s.fsi.lastVote.timestamp
  votes : (voteStates anchor s).Pairwise fun later earlier =>
    earlier.lastVote.timestamp < later.lastVote.timestamp

theorem inv_start (hanchor : anchor ∈ blocks) : Inv anchor blocks (start anchor) where
  remembers := ⟨⟨anchor, anchor, .zero⟩, rfl, hanchor, hanchor, .start _⟩
  locks_le := by simp [states, start]
  locks := by simp [states, start]
  votes_le := by simp [voteStates, start]
  votes := by simp [voteStates, start]

section
variable (h : Inv anchor blocks s)
include h

theorem Inv.idle (b : ProperBlock) : Inv anchor blocks ⟨⟨b, .noVote, s.fsi⟩ :: s.log, s.fsi⟩ where
  remembers := h.remembers
  locks_le := forall_mem_cons.mpr ⟨le_rfl, h.locks_le⟩
  locks := pairwise_cons.mpr ⟨h.locks_le, h.locks⟩
  votes_le := h.votes_le
  votes := h.votes

variable (htree : TreeAbove anchor blocks)
include htree

theorem Inv.vote {m m' : Memory ProperBlock BlockTimestamp}
    (hrep : Represents s.fsi m) (hlock : m.lock ∈ blocks)
    (hremembers : Remembers savannaTree anchor (fun _ => True) m (s.log.filterMap Cast.ballot))
    {b : ProperBlock} (hb : b ∈ blocks) {strong : Bool} {fsi : FinalizerSafetyInformation}
    (hrep' : Represents fsi m') (hvotes : Votes savannaTree m b strong m') :
    Inv anchor blocks ⟨⟨b, .ofStrong strong, fsi⟩ :: s.log, fsi⟩ := by
  obtain ⟨hle, -, hnew⟩ := Remembers.lock_le hvotes
  have hlock_le : s.fsi.lock.timestamp ≤ fsi.lock.timestamp := by
    rw [hrep, hrep']
    exact hle
  have hlater : s.fsi.lastVote.timestamp < fsi.lastVote.timestamp := by
    rw [hrep, hrep', hvotes.lastVote_eq]
    exact hvotes.later
  have hlock' : m'.lock ∈ blocks := by
    rcases hnew with heq | ⟨heq, hlt⟩
    · rwa [heq]
    · rw [heq]
      exact htree.just_mem hb (hremembers.anchor_le.trans_lt hlt)
  have hballot : (Cast.mk b (.ofStrong strong) fsi).ballot = some ⟨b, strong⟩ := by
    cases strong <;> rfl
  have hvoteStates : voteStates anchor ⟨⟨b, .ofStrong strong, fsi⟩ :: s.log, fsi⟩ =
      fsi :: voteStates anchor s := by
    cases strong <;> rfl
  refine ⟨⟨m', hrep', hvotes.lastVote_eq ▸ hb, hlock', ?_⟩, ?_, ?_, ?_, ?_⟩
  · rw [filterMap_cons, hballot]
    exact hremembers.vote hvotes (.inr trivial)
  · exact forall_mem_cons.mpr ⟨le_rfl, fun f hf => (h.locks_le f hf).trans hlock_le⟩
  · exact pairwise_cons.mpr ⟨fun f hf => (h.locks_le f hf).trans hlock_le, h.locks⟩
  · rw [hvoteStates]
    exact forall_mem_cons.mpr ⟨le_rfl, fun f hf => (h.votes_le f hf).trans hlater.le⟩
  · rw [hvoteStates]
    exact pairwise_cons.mpr ⟨fun f hf => (h.votes_le f hf).trans_lt hlater, h.votes⟩

theorem Inv.present {b : ProperBlock} (hb : b ∈ blocks) :
    ∃ s', s.present b = some s' ∧ Inv anchor blocks s' := by
  obtain ⟨m, hrep, hlast, hlock, hremembers⟩ := h.remembers
  obtain ⟨c, hcore, -⟩ := b.2.tracks
  have hroot := htree.root_le hb hlast
  obtain ⟨⟨res, fsi⟩, hdecide⟩ :=
    Option.isSome_iff_exists.mp (decideVote_isSome hrep hcore hroot)
  have hpresent : s.present b = some ⟨⟨b, res.decision, fsi⟩ :: s.log, fsi⟩ := by
    simp [VoterState.present, hcore, hdecide]
  refine ⟨_, hpresent, ?_⟩
  rcases decideVote_refines hrep hcore hroot (htree.eq_of_id hb hlast) (htree.eq_of_id hb hlock)
    hdecide with ⟨hno, rfl⟩ | ⟨strong, m', hdecision, hrep', hvotes, -⟩
  · rw [hno]
    exact h.idle b
  · rw [hdecision]
    exact h.vote htree hrep hlock hremembers hb hrep' hvotes

theorem Inv.presentAll {presented : List ProperBlock}
    (hpresented : ∀ b ∈ presented, b ∈ blocks) :
    ∃ s', presented.foldlM VoterState.present s = some s' ∧ Inv anchor blocks s' := by
  induction presented generalizing s with
  | nil => exact ⟨s, rfl, h⟩
  | cons b presented ih =>
    rw [forall_mem_cons] at hpresented
    obtain ⟨s', hstep, hinv⟩ := h.present htree hpresented.1
    obtain ⟨s'', hrest, hinv'⟩ := ih hinv hpresented.2
    refine ⟨s'', ?_, hinv'⟩
    rw [foldlM_cons, hstep]
    exact hrest

end

/-- Whatever blocks of a tree a finalizer is shown in whatever order: when it votes strong,
its earlier votes that are later than the QC of the block are on the block's branch. The
times of its votes increase, and the time of its lock does not decrease. -/
theorem strong_votes_clear (htree : TreeAbove anchor blocks)
    {presented : List ProperBlock} (hpresented : ∀ b ∈ presented, b ∈ blocks) :
    ∃ s, presented.foldlM VoterState.present (start anchor) = some s ∧
      (s.log.Pairwise fun later earlier => later.decision = .strongVote →
        earlier.decision ≠ .noVote → ∃ qcTime, later.qcTime = some qcTime ∧
          (qcTime < earlier.block.1.ref.timestamp → earlier.block < later.block)) ∧
      ((voteStates anchor s).Pairwise fun later earlier =>
        earlier.lastVote.timestamp < later.lastVote.timestamp) ∧
      (states anchor s).Pairwise fun later earlier =>
        earlier.lock.timestamp ≤ later.lock.timestamp := by
  obtain ⟨s, hs, hinv⟩ := (inv_start htree.anchor_mem).presentAll htree hpresented
  refine ⟨s, hs, ?_, hinv.votes, hinv.locks⟩
  obtain ⟨m, -, -, -, hremembers⟩ := hinv.remembers
  refine (pairwise_filterMap.mp hremembers.honest.follows).imp ?_
  intro later earlier hfollows hstrong hvoted
  obtain ⟨c, hcore, ht⟩ := later.block.2.tracks
  have hqc : later.qcTime = some later.block.1.just.ref.timestamp := by
    rw [Cast.qcTime, hcore]
    exact ht.latestQcBlockTimestamp later.block.2
  refine ⟨_, hqc, fun hlt => ?_⟩
  have hlater : later.ballot = some ⟨later.block, true⟩ := by rw [Cast.ballot, hstrong]
  obtain ⟨strong, hearlier⟩ : ∃ strong, earlier.ballot = some ⟨earlier.block, strong⟩ := by
    unfold Cast.ballot
    cases hd : earlier.decision with
    | noVote => exact absurd hd hvoted
    | strongVote => exact ⟨true, rfl⟩
    | weakVote => exact ⟨false, rfl⟩
  have hrel := hfollows _ hlater _ hearlier
  have hle := (hrel.clear rfl).resolve_right (not_le.mpr hlt)
  refine lt_of_le_of_ne hle fun heq => ?_
  exact absurd hrel.time_lt (by rw [heq]; exact lt_irrefl _)

end VoterState

section Forks
open Network

def rightGrandchild : ProperBlock :=
  ⟨.child rightChild.1 ⟨stampId 11 3, ⟨5⟩, 0, 1, 0⟩ ⟨2, false⟩, by decide +kernel⟩

def forkBlocks : List ProperBlock := [forkRoot, leftChild, rightChild, rightGrandchild]

theorem forkBlocks_tree : TreeAbove forkRoot {b | b ∈ forkBlocks} where
  anchor_mem := by simp [forkBlocks]
  above b hb := by
    simp only [forkBlocks, Set.mem_ofPred_eq, mem_cons, not_mem_nil, or_false] at hb
    rcases hb with rfl | rfl | rfl | rfl
    · exact le_rfl
    · exact .inr rfl
    · exact .inr rfl
    · exact .inr (.inr rfl)
  closed b hb a _ hab := by
    simp only [forkBlocks, Set.mem_ofPred_eq, mem_cons, not_mem_nil, or_false] at hb ⊢
    simp only [Subtype.ext_iff]
    rcases hb with rfl | rfl | rfl | rfl
    · exact .inl hab
    · rcases hab with hab | hab
      · exact .inr (.inl hab)
      · exact .inl hab
    · rcases hab with hab | hab
      · exact .inr (.inr (.inl hab))
      · exact .inl hab
    · rcases hab with hab | hab | hab
      · exact .inr (.inr (.inr hab))
      · exact .inr (.inr (.inl hab))
      · exact .inl hab
  ids a ha b hb := by
    have hall : ∀ a ∈ forkBlocks, ∀ b ∈ forkBlocks,
        a.1.ref.blockId = b.1.ref.blockId → a = b := by decide +kernel
    exact hall a ha b hb

theorem strong_votes_clear_forks : ∃ s,
    [leftChild, rightChild, rightGrandchild].foldlM present (.start forkRoot) =
      some s ∧ s.log.map decision = [.strongVote, .weakVote, .strongVote] ∧
    (s.log.Pairwise fun later earlier => later.decision = .strongVote →
      earlier.decision ≠ .noVote → ∃ qcTime, later.qcTime = some qcTime ∧
        (qcTime < earlier.block.1.ref.timestamp → earlier.block < later.block)) ∧
    ((voteStates forkRoot s).Pairwise fun later earlier =>
      earlier.lastVote.timestamp < later.lastVote.timestamp) ∧
    (states forkRoot s).Pairwise fun later earlier =>
      earlier.lock.timestamp ≤ later.lock.timestamp := by
  have hpresented : ∀ b ∈ [leftChild, rightChild, rightGrandchild], b ∈ forkBlocks := by
    decide +kernel
  have hdecisions : ([leftChild, rightChild, rightGrandchild].foldlM present
      (.start forkRoot)).map (fun s => s.log.map decision) =
        some [.strongVote, .weakVote, .strongVote] := by
    decide +kernel
  obtain ⟨s, hs, hlaw⟩ := strong_votes_clear forkBlocks_tree hpresented
  rw [hs, Option.map_some, Option.some.injEq] at hdecisions
  exact ⟨s, hs, hdecisions, hlaw⟩

end Forks
end FlonCore
