import FlonCore.HeaderChain

/-!
# The activation of proposer policies

A round is twelve slots. A proposed proposer policy moves to the pending slot at
the first block of a later round and becomes active at the first block of a
round after that, once its proposal is final; a proposal two rounds old may
become active directly. The start of the following round is computed in 32 bits,
so the rule fails in the last round of the slot range, which has four slots.
-/

namespace FlonCore
open Library FinalityCore BlockHeaderState List Option UInt32
open ProposerSlots
variable {β : Type}

def BlockTimestamp.round (t : BlockTimestamp) : ℕ := t.slot.toNat / 12

def completeRoundsEnd : ℕ := 2 ^ 32 - 4

theorem getCurrentRoundStartSlot_toNat (t : BlockTimestamp) :
    (getCurrentRoundStartSlot t).toNat = 12 * t.round := by
  have hmod : (t.slot % producerRepetitions).toNat = t.slot.toNat % 12 := UInt32.toNat_mod _ _
  have hle : t.slot % producerRepetitions ≤ t.slot := by
    exact Nat.mod_le _ _
  rw [getCurrentRoundStartSlot, UInt32.toNat_sub_of_le _ _ hle, hmod, BlockTimestamp.round]
  omega

theorem round_lt_of_not_inSameRound {next curr : BlockTimestamp}
    (hcurr : curr.slot.toNat < completeRoundsEnd) (h : inSameRound next curr = false) :
    curr.round < next.round := by
  have hstart := getCurrentRoundStartSlot_toNat curr
  have hsum : (getCurrentRoundStartSlot curr + producerRepetitions).toNat =
      12 * curr.round + 12 := by
    rw [UInt32.toNat_add, hstart, show producerRepetitions.toNat = 12 from rfl,
      Nat.mod_eq_of_lt (by unfold completeRoundsEnd at hcurr; unfold BlockTimestamp.round; omega)]
  rw [inSameRound, decide_eq_false_iff_not, lt_iff_toNat_lt, hsum] at h
  unfold BlockTimestamp.round at h ⊢
  omega

theorem firstBlockOfRound_iff {curr parent : BlockTimestamp} :
    firstBlockOfRound curr parent = true ↔ parent.round < curr.round := by
  rw [firstBlockOfRound, decide_eq_true_eq, lt_iff_toNat_lt, getCurrentRoundStartSlot_toNat]
  unfold BlockTimestamp.round
  omega

theorem round_lt_of_prior {t p : BlockTimestamp} {start : UInt32}
    (h : getPriorRoundStartSlot t = some start) (hp : p.slot < start) : p.round + 1 < t.round := by
  unfold getPriorRoundStartSlot at h
  split_ifs at h with hsmall
  cases h
  have hle : producerRepetitions ≤ getCurrentRoundStartSlot t := by
    rw [lt_iff_toNat_lt, show producerRepetitions.toNat = 12 from rfl] at hsmall
    rw [le_iff_toNat_le, getCurrentRoundStartSlot_toNat,
      show producerRepetitions.toNat = 12 from rfl]
    unfold BlockTimestamp.round
    omega
  rw [lt_iff_toNat_lt, UInt32.toNat_sub_of_le _ _ hle, getCurrentRoundStartSlot_toNat,
    show producerRepetitions.toNat = 12 from rfl] at hp
  unfold BlockTimestamp.round at hp ⊢
  omega

theorem round_le_of_lt {a b : BlockTimestamp} (h : a < b) : a.round ≤ b.round :=
  Nat.div_le_div_right (BlockTimestamp.lt_iff.mp h).le

def ProposerPolicyPtr.version (p : ProposerPolicyPtr) : UInt32 := p.policy.proposerSchedule.version

def ProposerPolicyPtr.proposedIn (p : ProposerPolicyPtr) : ℕ := p.policy.proposalTime.round

namespace BlockHeaderState

def proposerSlots (s : BlockHeaderState β) : ProposerSlots :=
  ⟨s.activeProposerPolicy, s.latestProposedProposerPolicy, s.latestPendingProposerPolicy⟩

structure Older (p q : ProposerPolicyPtr) : Prop where
  version_lt : p.version < q.version
  address_ne : p.address ≠ q.address

/-- The order of the three slots, and the rounds their policies were proposed in, seen from
a block of round `now`. -/
structure ProposerSlots.Ordered (slots : ProposerSlots) (now : ℕ) : Prop where
  active_pending : ∀ p, slots.latestPending = some p → Older slots.active p
  active_proposed : ∀ q, slots.latestProposed = some q → Older slots.active q
  pending_proposed : ∀ p q, slots.latestPending = some p → slots.latestProposed = some q →
    Older p q
  pending_round : ∀ p, slots.latestPending = some p → p.proposedIn < now
  proposed_round : ∀ q, slots.latestProposed = some q → q.proposedIn ≤ now

variable {s : BlockHeaderState β} {t : BlockTimestamp} {p : ProposerPolicyPtr}

theorem proposalIsFinal_eq_true (h : s.proposalIsFinal p = some true) :
    ∃ final, s.core.lastFinalBlockTimestamp = some final ∧ p.policy.proposalTime ≤ final := by
  obtain ⟨final, hfinal, he⟩ := map_eq_some_iff.mp h
  exact ⟨final, hfinal, of_decide_eq_true he⟩

theorem proposedTakesEffect_eq_true (h : s.proposedTakesEffect = some true) :
    ∃ p start, s.latestProposedProposerPolicy = some p ∧
      getPriorRoundStartSlot s.timestamp = some start ∧ p.policy.proposalTime.slot < start ∧
      s.proposalIsFinal p = some true := by
  unfold proposedTakesEffect at h
  split at h
  · next p start hp hstart =>
    split_ifs at h with hlt
    · exact ⟨p, start, hp, hstart, hlt, h⟩
    · cases h
  · cases h

theorem pendingTakesEffect_eq_true (h : s.pendingTakesEffect = some true) :
    ∃ p, s.latestPendingProposerPolicy = some p ∧ s.proposalIsFinal p = some true := by
  unfold pendingTakesEffect at h
  split at h
  · next p hp => exact ⟨p, hp, h⟩
  · cases h

/-- The policy chosen for a block is the active one, or one of the two others: then the block
is outside the round of its parent and the proposal is final. -/
theorem getActiveProposerPolicy_cases (h : s.getActiveProposerPolicyForBlockAt t = some p) :
    p = s.activeProposerPolicy ∨
    (inSameRound t s.timestamp = false ∧
      (∃ final, s.core.lastFinalBlockTimestamp = some final ∧ p.policy.proposalTime ≤ final) ∧
      ((s.latestProposedProposerPolicy = some p ∧ ∃ start,
          getPriorRoundStartSlot s.timestamp = some start ∧ p.policy.proposalTime.slot < start) ∨
        s.latestPendingProposerPolicy = some p)) := by
  unfold getActiveProposerPolicyForBlockAt at h
  split_ifs at h with hround hnone
  · cases h
    exact .inl rfl
  · cases h
    exact .inl rfl
  · obtain ⟨effect, heffect, h⟩ := bind_eq_some_iff.mp h
    rw [Bool.not_eq_true] at hround
    cases effect with
    | true =>
      obtain ⟨q, start, hq, hstart, hlt, hfinal⟩ := proposedTakesEffect_eq_true heffect
      have he : s.latestProposedProposerPolicy = some p := h
      cases hq.symm.trans he
      exact .inr ⟨hround, proposalIsFinal_eq_true hfinal, .inl ⟨hq, start, hstart, hlt⟩⟩
    | false =>
      obtain ⟨effect, heffect, h⟩ := bind_eq_some_iff.mp h
      cases effect with
      | true =>
        obtain ⟨q, hq, hfinal⟩ := pendingTakesEffect_eq_true heffect
        have he : s.latestPendingProposerPolicy = some p := h
        cases hq.symm.trans he
        exact .inr ⟨hround, proposalIsFinal_eq_true hfinal, .inr hq⟩
      | false =>
        cases h
        exact .inl rfl

variable {slots : ProposerSlots} {now later : ℕ}

theorem ProposerSlots.Ordered.mono (h : slots.Ordered now) (hle : now ≤ later) :
    slots.Ordered later :=
  ⟨h.active_pending, h.active_proposed, h.pending_proposed,
    fun p hp => (h.pending_round p hp).trans_le hle,
    fun q hq => (h.proposed_round q hq).trans hle⟩

theorem ProposerSlots.activate_active (slots : ProposerSlots) :
    slots.activate slots.active = slots := if_pos rfl

theorem ProposerSlots.Ordered.activate_proposed (h : slots.Ordered now)
    (hp : slots.latestProposed = some p) : slots.activate p = ⟨p, none, none⟩ := by
  have hne := (h.active_proposed p hp).address_ne
  unfold activate
  rw [if_neg hne.symm, if_pos (by simp [pointsTo, hp])]

theorem ProposerSlots.Ordered.activate_pending (h : slots.Ordered now)
    (hp : slots.latestPending = some p) : slots.activate p = ⟨p, slots.latestProposed, none⟩ := by
  have hne := (h.active_pending p hp).address_ne
  have hproposed : pointsTo slots.latestProposed p = false := by
    cases hq : slots.latestProposed with
    | none => rfl
    | some q => simpa [pointsTo] using (h.pending_proposed p q hp hq).address_ne.symm
  unfold activate
  rw [if_neg hne.symm, if_neg (by simp [hproposed]), if_pos (by simp [pointsTo, hp])]

def ProposerSlots.enterRound (slots : ProposerSlots) (first : Bool) : ProposerSlots :=
  if first && slots.latestProposed.isSome && slots.latestPending.isNone then
    ⟨slots.active, none, slots.latestProposed⟩
  else slots

theorem ProposerSlots.enterRound_active (slots : ProposerSlots) (first : Bool) :
    (slots.enterRound first).active = slots.active := by
  unfold enterRound
  split_ifs <;> rfl

theorem ProposerSlots.Ordered.enterRound (h : slots.Ordered now) {first : Bool}
    (hfirst : first = true → now < later) (hle : now ≤ later) :
    (slots.enterRound first).Ordered later := by
  unfold ProposerSlots.enterRound
  split_ifs with hmove
  · simp only [Bool.and_eq_true] at hmove
    have hlt := hfirst hmove.1.1
    refine ⟨h.active_proposed, nofun, nofun, ?_, nofun⟩
    intro q hq
    exact (h.proposed_round q hq).trans_lt hlt
  · exact h.mono hle

theorem ProposerSlots.Ordered.activate (h : slots.Ordered now)
    (hp : p = slots.active ∨ slots.latestProposed = some p ∨ slots.latestPending = some p) :
    (slots.activate p).Ordered now ∧ (slots.activate p).active = p ∧
      slots.active.version ≤ p.version := by
  rcases hp with rfl | hp | hp
  · rw [slots.activate_active]
    exact ⟨h, rfl, UInt32.le_refl _⟩
  · rw [h.activate_proposed hp]
    exact ⟨⟨nofun, nofun, nofun, nofun, nofun⟩, rfl,
      UInt32.le_of_lt (h.active_proposed p hp).version_lt⟩
  · rw [h.activate_pending hp]
    refine ⟨⟨nofun, ?_, nofun, nofun, h.proposed_round⟩, rfl,
      UInt32.le_of_lt (h.active_pending p hp).version_lt⟩
    intro q hq
    exact h.pending_proposed p q hp hq

structure ProposerSlots.Below (slots : ProposerSlots) (q : ProposerPolicyPtr) : Prop where
  active : Older slots.active q
  pending : ∀ p, slots.latestPending = some p → Older p q
  proposed : ∀ p, slots.latestProposed = some p → Older p q

variable {q : ProposerPolicyPtr}

theorem ProposerSlots.Below.activate (h : slots.Below q)
    (hp : p = slots.active ∨ slots.latestProposed = some p ∨ slots.latestPending = some p) :
    (slots.activate p).Below q := by
  have hpq : Older p q := by
    rcases hp with rfl | hp | hp
    · exact h.active
    · exact h.proposed p hp
    · exact h.pending p hp
  unfold ProposerSlots.activate
  split_ifs
  · exact h
  · exact ⟨hpq, nofun, nofun⟩
  · exact ⟨hpq, nofun, h.proposed⟩
  · exact ⟨hpq, h.pending, h.proposed⟩

theorem ProposerSlots.Below.enterRound (h : slots.Below q)
    (first : Bool) : (slots.enterRound first).Below q := by
  unfold ProposerSlots.enterRound
  split_ifs
  · exact ⟨h.active, h.proposed, nofun⟩
  · exact h

theorem ProposerSlots.Ordered.propose {q : ProposerPolicyPtr} (h : slots.Ordered now)
    (hbelow : slots.Below q) (hround : q.proposedIn ≤ now) :
    ProposerSlots.Ordered ⟨slots.active, some q, slots.latestPending⟩ now := by
  refine ⟨h.active_pending, ?_, ?_, h.pending_round, ?_⟩
  · rintro _ ⟨⟩
    exact hbelow.active
  · rintro p _ hp ⟨⟩
    exact hbelow.pending p hp
  · rintro _ ⟨⟩
    exact hround

theorem evaluateProposerPolicies_eq
    (h : s.evaluateProposerPoliciesForPromotion t = some slots) :
    ∃ p, s.getActiveProposerPolicyForBlockAt t = some p ∧
      slots = (s.proposerSlots.activate p).enterRound (firstBlockOfRound t s.timestamp) := by
  obtain ⟨p, hp, rfl⟩ := map_eq_some_iff.mp h
  exact ⟨p, hp, rfl⟩

theorem chosen_mem (h : s.getActiveProposerPolicyForBlockAt t = some p) :
    p = s.proposerSlots.active ∨ s.proposerSlots.latestProposed = some p ∨
      s.proposerSlots.latestPending = some p := by
  rcases getActiveProposerPolicy_cases h with he | ⟨-, -, ⟨he, -⟩ | he⟩
  · exact .inl he
  · exact .inr (.inl he)
  · exact .inr (.inr he)

theorem evaluateProposerPolicies_spec
    {slots : ProposerSlots} (h : s.proposerSlots.Ordered s.timestamp.round)
    (hlt : s.timestamp < t) (heval : s.evaluateProposerPoliciesForPromotion t = some slots) :
    s.getActiveProposerPolicyForBlockAt t = some slots.active ∧ slots.Ordered t.round ∧
      s.activeProposerPolicy.version ≤ slots.active.version := by
  obtain ⟨p, hp, rfl⟩ := evaluateProposerPolicies_eq heval
  obtain ⟨hord, hactive, hversion⟩ := h.activate (chosen_mem hp)
  rw [enterRound_active, hactive]
  exact ⟨hp, hord.enterRound (fun hfirst => firstBlockOfRound_iff.mp hfirst) (round_le_of_lt hlt),
    hversion⟩

theorem freshAddress_ne (s : BlockHeaderState β) :
    s.activeProposerPolicy.address ≠ s.freshAddress ∧
    (∀ p, s.latestProposedProposerPolicy = some p → p.address ≠ s.freshAddress) ∧
    ∀ p, s.latestPendingProposerPolicy = some p → p.address ≠ s.freshAddress := by
  unfold freshAddress
  refine ⟨by omega, ?_, ?_⟩
  · intro p hp
    rw [hp, map_some, getD_some]
    omega
  · intro p hp
    rw [hp, map_some, getD_some]
    omega

theorem applyDiff_proposer {p q : ProposerPolicy} {d : ProposerPolicyDiff}
    (h : p.applyDiff d = .ok q) :
    q.proposalTime = d.proposalTime ∧ q.proposerSchedule.version = d.version := by
  rw [ProposerPolicy.applyDiff, bind_eq_ok] at h
  obtain ⟨_, -, h⟩ := h
  cases h
  exact ⟨rfl, rfl⟩

theorem below_of_lastProposed (h : s.proposerSlots.Ordered now)
    (haddress : q.address = s.freshAddress)
    (hversion : s.getLastProposedProposerPolicy.proposerSchedule.version < q.version) :
    s.proposerSlots.Below q := by
  obtain ⟨hactive, hproposed, hpending⟩ := freshAddress_ne s
  rw [← haddress] at hactive hproposed hpending
  unfold getLastProposedProposerPolicy at hversion
  cases hq : s.latestProposedProposerPolicy with
  | some r =>
    rw [hq] at hversion
    have hr : Older r q := ⟨hversion, hproposed r hq⟩
    refine ⟨⟨UInt32.lt_trans (h.active_proposed r hq).version_lt hversion, hactive⟩, ?_, ?_⟩
    · intro p hp
      exact ⟨UInt32.lt_trans (h.pending_proposed p r hp hq).version_lt hversion, hpending p hp⟩
    · intro p hp
      cases hq.symm.trans hp
      exact hr
  | none =>
    rw [hq] at hversion
    cases hp : s.latestPendingProposerPolicy with
    | some r =>
      rw [hp] at hversion
      refine ⟨⟨UInt32.lt_trans (h.active_pending r hp).version_lt hversion, hactive⟩, ?_, ?_⟩
      · intro p hp'
        cases hp.symm.trans hp'
        exact ⟨hversion, hpending r hp⟩
      · intro p hp'
        cases hq.symm.trans hp'
    | none =>
      rw [hp] at hversion
      refine ⟨⟨hversion, hactive⟩, ?_, ?_⟩
      · intro p hp'
        cases hp.symm.trans hp'
      · intro p hp'
        cases hq.symm.trans hp'

end BlockHeaderState

/-- A block later than its parent; a proposer policy it proposes carries its timestamp and a
version above that of the policy proposed last. -/
structure ProposerNext (env : HeaderEnv β) (S S' : BlockHeaderState β) : Prop where
  built : BuiltOn env S S'
  later : S.timestamp < S'.timestamp
  proposal : ∀ fExt d, S'.headerExts.finality = some fExt → fExt.newProposerPolicyDiff = some d →
    d.proposalTime = S'.timestamp ∧
      S.getLastProposedProposerPolicy.proposerSchedule.version < d.version

/-- The blocks from the genesis state `G` up to `S`, oldest first. -/
inductive ProposerChain (env : HeaderEnv β) (G : BlockHeaderState β) :
    List (BlockHeaderState β) → BlockHeaderState β → Prop
  | genesis : IsSavannaGenesis env G → ProposerChain env G [G] G
  | next {chain : List (BlockHeaderState β)} {S S' : BlockHeaderState β} :
      ProposerChain env G chain S → ProposerNext env S S' → ProposerChain env G (chain ++ [S']) S'

structure ProposerStep (S S' : BlockHeaderState β) : Prop where
  first_of_round : S'.activeProposerPolicy ≠ S.activeProposerPolicy →
    firstBlockOfRound S'.timestamp S.timestamp = true
  two_rounds : S'.activeProposerPolicy ≠ S.activeProposerPolicy →
    S'.activeProposerPolicy.proposedIn + 2 ≤ S'.timestamp.round
  proposal_final : S'.activeProposerPolicy ≠ S.activeProposerPolicy →
    ∃ final, S.core.lastFinalBlockTimestamp = some final ∧
      S'.activeProposerPolicy.policy.proposalTime ≤ final
  version_le : S.activeProposerPolicy.version ≤ S'.activeProposerPolicy.version
  producer_policy : S.getActiveProposerPolicyForBlockAt S'.timestamp = some S'.activeProposerPolicy

variable {env : HeaderEnv β} {S S' G : BlockHeaderState β} {chain : List (BlockHeaderState β)}

section
variable (h : ProposerNext env S S') (hord : S.proposerSlots.Ordered S.timestamp.round)
include h hord

theorem ProposerNext.ordered :
    S'.proposerSlots.Ordered S'.timestamp.round ∧
      S.getActiveProposerPolicyForBlockAt S'.timestamp = some S'.activeProposerPolicy ∧
      S.activeProposerPolicy.version ≤ S'.activeProposerPolicy.version := by
  obtain ⟨fExt, hfin, -, hf⟩ := h.built.finished
  obtain ⟨slots, heval, hpropose, hactive, hpending⟩ := hfin.proposers
  obtain ⟨hchosen, hslots, hversion⟩ := evaluateProposerPolicies_spec hord h.later heval
  rw [hactive]
  refine ⟨?_, hchosen, hversion⟩
  unfold proposerSlots
  rw [hactive, hpending]
  cases hd : fExt.newProposerPolicyDiff with
  | none =>
    rw [hd] at hpropose
    rw [← Except.ok.inj hpropose]
    exact hslots
  | some d =>
    rw [hd] at hpropose
    obtain ⟨q, hq, he⟩ := map_eq_ok.mp hpropose
    obtain ⟨htime, hver⟩ := applyDiff_proposer hq
    obtain ⟨hdtime, hdver⟩ := h.proposal fExt d hf hd
    obtain ⟨p, hp, rfl⟩ := evaluateProposerPolicies_eq heval
    have hbelow : S.proposerSlots.Below ⟨S.freshAddress, q⟩ :=
      below_of_lastProposed hord rfl (by rw [ProposerPolicyPtr.version, hver]; exact hdver)
    rw [← he]
    refine hslots.propose ((hbelow.activate (chosen_mem hp)).enterRound _) ?_
    rw [ProposerPolicyPtr.proposedIn, htime, hdtime]

theorem ProposerNext.step (hslot : S.timestamp.slot.toNat < completeRoundsEnd) :
    ProposerStep S S' := by
  obtain ⟨-, hchosen, hversion⟩ := h.ordered hord
  have hcases := getActiveProposerPolicy_cases hchosen
  refine ⟨?_, ?_, ?_, hversion, hchosen⟩
  · intro hne
    obtain ⟨hround, -, -⟩ := hcases.resolve_left hne
    exact firstBlockOfRound_iff.mpr (round_lt_of_not_inSameRound hslot hround)
  · intro hne
    obtain ⟨hround, -, hfrom⟩ := hcases.resolve_left hne
    have hlt := round_lt_of_not_inSameRound hslot hround
    rcases hfrom with ⟨-, start, hstart, hp⟩ | hp
    · have hprior := round_lt_of_prior hstart hp
      unfold ProposerPolicyPtr.proposedIn
      omega
    · have hpending := hord.pending_round _ hp
      omega
  · intro hne
    exact (hcases.resolve_left hne).2.1

end

theorem IsSavannaGenesis.proposers (h : IsSavannaGenesis env G) :
    G.proposerSlots.Ordered G.timestamp.round := by
  obtain ⟨bsp, fExt, -, hG⟩ := h
  obtain ⟨policy, -, hG⟩ := Outcome.bind_eq_returns.mp hG
  cases hG
  exact ⟨nofun, nofun, nofun, nofun, nofun⟩

section
variable (h : ProposerChain env G chain S)
include h

theorem ProposerChain.mem : S ∈ chain := by
  cases h with
  | genesis => exact mem_singleton_self _
  | next => simp

theorem ProposerChain.ordered : S.proposerSlots.Ordered S.timestamp.round := by
  induction h with
  | genesis hG => exact hG.proposers
  | next hchain hnext ih => exact (hnext.ordered ih).1

theorem ProposerChain.versions :
    (∀ A ∈ chain, A.activeProposerPolicy.version ≤ S.activeProposerPolicy.version) ∧
      chain.Pairwise fun A B =>
        A.activeProposerPolicy.version ≤ B.activeProposerPolicy.version := by
  induction h with
  | genesis hG =>
    refine ⟨?_, pairwise_singleton _ _⟩
    intro A hA
    rw [mem_singleton.mp hA]
    exact UInt32.le_refl _
  | next hchain hnext ih =>
    have hstep := (hnext.ordered hchain.ordered).2.2
    have hle := fun A hA => UInt32.le_trans (ih.1 A hA) hstep
    exact ⟨forall_mem_append.mpr ⟨hle, forall_mem_singleton.mpr (UInt32.le_refl _)⟩,
      pairwise_append_one ih.2 hle⟩

theorem ProposerChain.active_round
    (hslots : ∀ A ∈ chain, A.timestamp.slot.toNat < completeRoundsEnd) :
    S.activeProposerPolicy = G.activeProposerPolicy ∨
      S.activeProposerPolicy.proposedIn + 2 ≤ S.timestamp.round := by
  induction h with
  | genesis => exact .inl rfl
  | @next chain S S' hchain hnext ih =>
    have hbelow : ∀ A ∈ chain, A.timestamp.slot.toNat < completeRoundsEnd := fun A hA =>
      hslots A (mem_append_left _ hA)
    have hstep := hnext.step hchain.ordered (hbelow S hchain.mem)
    by_cases hsame : S'.activeProposerPolicy = S.activeProposerPolicy
    · rw [hsame]
      have hle := round_le_of_lt hnext.later
      exact (ih hbelow).imp_right fun hround => by omega
    · exact .inr (hstep.two_rounds hsame)

end

/-- The rule of activation along a chain whose blocks stay out of the last, incomplete round
of the slot range. -/
theorem proposerChain_rules (h : ProposerChain env G chain S)
    (hslots : ∀ A ∈ chain, A.timestamp.slot.toNat < completeRoundsEnd) :
    (∀ p, S.latestPendingProposerPolicy = some p → S.activeProposerPolicy.version < p.version) ∧
    (∀ q, S.latestProposedProposerPolicy = some q → S.activeProposerPolicy.version < q.version) ∧
    (∀ p q, S.latestPendingProposerPolicy = some p → S.latestProposedProposerPolicy = some q →
      p.version < q.version) ∧
    (chain.Pairwise fun A B =>
      A.activeProposerPolicy.version ≤ B.activeProposerPolicy.version) ∧
    (S.activeProposerPolicy = G.activeProposerPolicy ∨
      S.activeProposerPolicy.proposedIn + 2 ≤ S.timestamp.round) ∧
    ∀ S', ProposerNext env S S' → ProposerStep S S' := by
  have hord := h.ordered
  refine ⟨?_, ?_, ?_, h.versions.2, h.active_round hslots, ?_⟩
  · intro p hp
    exact (hord.active_pending p hp).version_lt
  · intro q hq
    exact (hord.active_proposed q hq).version_lt
  · intro p q hp hq
    exact (hord.pending_proposed p q hp hq).version_lt
  · intro S' hnext
    exact hnext.step hord (hslots S h.mem)

variable (s : BlockHeaderState BlockHeaderExtension)

def slotInput (slot : UInt32) (policy : Option ProposerPolicy) : BlockHeaderStateInput where
  parentId := s.blockId
  timestamp := ⟨slot⟩
  producer := 1
  newProtocolFeatureActivations := []
  transactionMroot := 0
  newProposerPolicy := policy
  newFinalizerPolicy := none
  mostRecentAncestorWithQc := ⟨u32 s.blockNum, true⟩
  finalityMrootClaim := 0
  claim_lt := Nat.mod_lt _ (Nat.two_pow_pos 32)

def slotNext (slot : UInt32)
    (policy : Option ProposerPolicy) : BlockHeaderState BlockHeaderExtension :=
  (s.next zeroHashEnv (slotInput s slot policy)).getD s

theorem slotNext_proposerNext (slot : UInt32) (policy : Option ProposerPolicy)
    (hnext : s.next zeroHashEnv (slotInput s slot policy) = .returns (slotNext s slot policy))
    (hlt : s.timestamp < ⟨slot⟩)
    (hpolicy : ∀ p, policy = some p → p.proposalTime = ⟨slot⟩ ∧
      s.getLastProposedProposerPolicy.proposerSchedule.version < p.proposerSchedule.version) :
    ProposerNext zeroHashEnv s (slotNext s slot policy) := by
  obtain ⟨fExt, hasm, hfinish⟩ := next_eq_returns hnext
  have hfin := finishNext_finished hfinish
  have htime : (slotNext s slot policy).timestamp = ⟨slot⟩ := by
    rw [timestamp, hfin.header_eq]
    rfl
  refine ⟨.inl ⟨_, rfl, hnext⟩, htime ▸ hlt, ?_⟩
  intro fExt' d hf hd
  rw [hfin.exts_eq, inputExtensions_finality] at hf
  cases hf
  obtain ⟨p, hp, hdtime, hdversion⟩ := createProposerDiff_fields hasm.proposer_diff d hd
  rw [hdtime, hdversion, htime]
  exact hpolicy p hp

def proposing : BlockHeaderState BlockHeaderExtension :=
  slotNext (plainGenesis 1) 4294967276 (some ⟨⟨4294967276⟩, ⟨2, [⟨2, ⟨1, []⟩⟩]⟩⟩)

theorem proposing_chain :
    ProposerChain zeroHashEnv (plainGenesis 1) [plainGenesis 1, proposing] proposing := by
  refine (ProposerChain.genesis (plainGenesis_isSavannaGenesis (by decide) (by decide))).next
    (slotNext_proposerNext _ _ _ (by decide +kernel) (by decide +kernel) ?_)
  rintro p ⟨⟩
  exact ⟨rfl, by decide +kernel⟩

theorem proposerChain_rules_proposing :
    ProposerChain zeroHashEnv (plainGenesis 1) [plainGenesis 1, proposing] proposing ∧
    ∀ q, proposing.latestProposedProposerPolicy = some q →
      proposing.activeProposerPolicy.version < q.version :=
  ⟨proposing_chain, (proposerChain_rules proposing_chain (by decide +kernel)).2.1⟩

def lastRound : BlockHeaderState BlockHeaderExtension :=
  slotNext (slotNext proposing 4294967286 none) 4294967292 none

theorem lastRound_activates :
    ∃ chain, ProposerChain zeroHashEnv (plainGenesis 1) chain lastRound ∧
      ProposerNext zeroHashEnv lastRound (slotNext lastRound 4294967293 none) ∧
      ¬ ProposerStep lastRound (slotNext lastRound 4294967293 none) := by
  have hpending := slotNext_proposerNext proposing 4294967286 none (by decide +kernel)
    (by decide +kernel) nofun
  have hlast := slotNext_proposerNext (slotNext proposing 4294967286 none) 4294967292 none
    (by decide +kernel) (by decide +kernel) nofun
  refine ⟨_, (proposing_chain.next hpending).next hlast, slotNext_proposerNext lastRound 4294967293
    none (by decide +kernel) (by decide +kernel) nofun, fun hstep => ?_⟩
  have hfirst := hstep.first_of_round (by decide +kernel)
  exact absurd hfirst (by decide +kernel)

end FlonCore
