import FlonCore.HeaderChain

/-!
# The life cycle of finalizer policies

A finalizer policy is proposed in a block, becomes pending once that block is
final and active once the block it became pending in is final. The policies of
a state, active, pending and proposed, are ordered by generation; promotion only
drops policies from the front of that order and a proposal only adds one at its
end.
-/

namespace FlonCore
open Library FinalityCore List
variable {β : Type}

namespace BlockHeaderState

def inFlight (s : BlockHeaderState β) : List FinalizerPolicy :=
  s.activeFinalizerPolicy ::
    (s.pendingFinalizerPolicy.toList ++ s.proposedFinalizerPolicies).map Prod.snd

def FinalizerSlots.inFlight (slots : FinalizerSlots) : List FinalizerPolicy :=
  slots.active :: (slots.pending.toList ++ slots.proposed).map Prod.snd

variable {s : BlockHeaderState β} {lib : ℕ} {header : BlockHeader β}

variable (s)

theorem promotePending_cases (lib : ℕ) :
    (s.pendingFinalizerPolicy = none ∧ s.promotePending lib = (s.activeFinalizerPolicy, none)) ∨
    (∃ n p, s.pendingFinalizerPolicy = some (n, p) ∧ n ≤ lib ∧
      s.promotePending lib = (p, none)) ∨
    ∃ n p, s.pendingFinalizerPolicy = some (n, p) ∧ lib < n ∧
      s.promotePending lib = (s.activeFinalizerPolicy, some (n, p)) := by
  unfold promotePending
  cases hp : s.pendingFinalizerPolicy with
  | none => exact .inl ⟨rfl, rfl⟩
  | some entry =>
    obtain ⟨n, p⟩ := entry
    rcases Nat.lt_or_ge lib n with hlt | hge
    · exact .inr (.inr ⟨n, p, rfl, hlt, if_neg (by simpa using hlt)⟩)
    · exact .inr (.inl ⟨n, p, rfl, hge, if_pos hge⟩)

/-- The queue splits into the policies proposed in final blocks and the rest. What happens
to it depends on the last of the former and on whether the pending slot is open. -/
theorem evaluate_cases (lib : ℕ) (header : BlockHeader β) :
    let r := s.evaluateFinalizerPoliciesForPromotion lib header
    ∃ final reversible, s.proposedFinalizerPolicies = final ++ reversible ∧
      (∀ e ∈ final, e.1 ≤ lib) ∧
      r.active = (s.promotePending lib).1 ∧
      ((final = [] ∧
          r.pending = (s.promotePending lib).2 ∧ r.proposed = s.proposedFinalizerPolicies) ∨
        (∃ older target, final = older ++ [target] ∧ (s.promotePending lib).2 = none ∧
          r.pending = some (header.blockNum, target.2) ∧ r.proposed = reversible) ∨
        ∃ older target, final = older ++ [target] ∧
          r.pending = (s.promotePending lib).2 ∧ r.proposed = target :: reversible) := by
  dsimp only
  refine ⟨s.proposedFinalizerPolicies.takeWhile fun p => !decide (lib < p.1),
    s.proposedFinalizerPolicies.dropWhile fun p => !decide (lib < p.1),
    takeWhile_append_dropWhile.symm, ?_, ?_, ?_⟩
  · intro e he
    simpa using mem_takeWhile_imp he
  · unfold evaluateFinalizerPoliciesForPromotion
    dsimp only
    split <;> rfl
  · unfold evaluateFinalizerPoliciesForPromotion
    dsimp only
    generalize s.proposedFinalizerPolicies.takeWhile (fun p => !decide (lib < p.1)) = final
    rcases eq_nil_or_concat final with rfl | ⟨older, target, rfl⟩
    · exact .inl ⟨rfl, rfl, rfl⟩
    · rw [concat_eq_append, getLast?_concat]
      cases hp : (s.promotePending lib).2 with
      | none => exact .inr (.inl ⟨older, target, rfl, rfl, rfl, rfl⟩)
      | some entry => exact .inr (.inr ⟨older, target, rfl, rfl, rfl⟩)

theorem evaluate_proposed_sublist (lib : ℕ) (header : BlockHeader β) :
    (s.evaluateFinalizerPoliciesForPromotion lib header).proposed.Sublist
      s.proposedFinalizerPolicies := by
  obtain ⟨final, reversible, hsplit, -, -, h | h | h⟩ := evaluate_cases s lib header
  · rw [h.2.2]
  · obtain ⟨older, target, rfl, -, -, hproposed⟩ := h
    rw [hproposed, hsplit]
    exact sublist_append_right _ _
  · obtain ⟨older, target, rfl, -, hproposed⟩ := h
    rw [hproposed, hsplit, append_assoc]
    exact sublist_append_right _ _

theorem evaluate_inFlight_sublist (lib : ℕ) (header : BlockHeader β) :
    (s.evaluateFinalizerPoliciesForPromotion lib header).inFlight.Sublist s.inFlight := by
  have hproposed := evaluate_proposed_sublist s lib header
  obtain ⟨final, reversible, hsplit, -, hactive, h⟩ := evaluate_cases s lib header
  -- the promoted policy of a block that takes the pending slot stands before `reversible`
  have hslot : ((s.evaluateFinalizerPoliciesForPromotion lib header).pending.toList ++
      (s.evaluateFinalizerPoliciesForPromotion lib header).proposed).map Prod.snd |>.Sublist
      (((s.promotePending lib).2.toList ++ s.proposedFinalizerPolicies).map Prod.snd) := by
    rcases h with ⟨-, hpending, -⟩ | ⟨older, target, rfl, hopen, hpending, hprop⟩ |
      ⟨older, target, -, hpending, -⟩
    · rw [hpending]
      exact (hproposed.append_left _).map _
    · rw [hopen, hpending, hprop, hsplit]
      simp
    · rw [hpending]
      exact (hproposed.append_left _).map _
  unfold FinalizerSlots.inFlight inFlight
  rw [hactive]
  rcases promotePending_cases s lib with ⟨hp, he⟩ | ⟨n, p, hp, -, he⟩ | ⟨n, p, hp, -, he⟩
  · rw [he] at hslot ⊢
    rw [hp]
    exact hslot.cons_cons _
  · rw [he] at hslot ⊢
    rw [hp]
    exact (hslot.cons_cons p).cons _
  · rw [he] at hslot ⊢
    rw [hp]
    exact hslot.cons_cons _

theorem evaluate_pending (lib : ℕ) (header : BlockHeader β) :
    (s.evaluateFinalizerPoliciesForPromotion lib header).pending = (s.promotePending lib).2 ∨
    ∃ e ∈ s.proposedFinalizerPolicies, e.1 ≤ lib ∧ (s.promotePending lib).2 = none ∧
      (s.evaluateFinalizerPoliciesForPromotion lib header).pending =
        some (header.blockNum, e.2) := by
  obtain ⟨final, reversible, hsplit, hfinal, -, h | h | h⟩ := evaluate_cases s lib header
  · exact .inl h.2.1
  · obtain ⟨older, target, rfl, hopen, hpending, -⟩ := h
    exact .inr ⟨target, by simp [hsplit], hfinal target (by simp), hopen, hpending⟩
  · obtain ⟨older, target, -, hpending, -⟩ := h
    exact .inl hpending

variable {s}

theorem evaluate_dropped (header : BlockHeader β) {e : ℕ × FinalizerPolicy}
    (he : e ∈ s.proposedFinalizerPolicies)
    (hdrop : e ∉ (s.evaluateFinalizerPoliciesForPromotion lib header).proposed) :
    (s.evaluateFinalizerPoliciesForPromotion lib header).pending =
        some (header.blockNum, e.2) ∨
      ∃ e', [e, e'].Sublist s.proposedFinalizerPolicies ∧ e'.1 ≤ lib := by
  obtain ⟨final, reversible, hsplit, hfinal, -, h⟩ := evaluate_cases s lib header
  have hsuperseded : ∀ older target, final = older ++ [target] → e ∈ older →
      ∃ e', [e, e'].Sublist s.proposedFinalizerPolicies ∧ e'.1 ≤ lib := by
    rintro older target rfl hmem
    refine ⟨target, ?_, hfinal target (by simp)⟩
    rw [hsplit]
    refine .trans ?_ (sublist_append_left _ _)
    exact (singleton_sublist.mpr hmem).append (.refl [target])
  rw [hsplit, mem_append] at he
  rcases h with ⟨-, -, hproposed⟩ | ⟨older, target, rfl, -, hpending, hproposed⟩ |
    ⟨older, target, rfl, -, hproposed⟩
  · rw [hproposed, hsplit, mem_append] at hdrop
    exact absurd he hdrop
  · rw [hproposed] at hdrop
    rcases mem_append.mp (he.resolve_right hdrop) with hmem | hmem
    · exact .inr (hsuperseded older target rfl hmem)
    · rw [mem_singleton.mp hmem]
      exact .inl hpending
  · rw [hproposed, mem_cons, not_or] at hdrop
    rcases mem_append.mp (he.resolve_right hdrop.2) with hmem | hmem
    · exact .inr (hsuperseded older target rfl hmem)
    · exact absurd (mem_singleton.mp hmem) hdrop.1

theorem proposeFinalizerPolicy_cases {slots : FinalizerSlots}
    {blockNum : ℕ} {diff : Option FinalizerPolicyDiff} {generation : ℕ}
    {proposed : List (ℕ × FinalizerPolicy)}
    (h : s.proposeFinalizerPolicy slots blockNum diff = .ok (generation, proposed)) :
    (diff = none ∧ generation = s.finalizerPolicyGeneration ∧ proposed = slots.proposed) ∨
    ∃ d p, diff = some d ∧ p.generation = d.generation ∧ generation = p.generation ∧
      proposed = slots.proposed ++ [(blockNum, p)] := by
  cases diff with
  | none =>
    cases h
    exact .inl ⟨rfl, rfl, rfl⟩
  | some d =>
    obtain ⟨p, hp, he⟩ := map_eq_ok.mp h
    cases he
    exact .inr ⟨d, p, rfl, FinalizerPolicy.applyDiff_generation hp, rfl, rfl⟩

/-- The header of the block carries a diff, and the policy it stands for is the newest of
the queue. -/
structure Proposes (A : BlockHeaderState β) (p : FinalizerPolicy) : Prop where
  carried : ∃ fExt d, A.headerExts.finality = some fExt ∧
    fExt.newFinalizerPolicyDiff = some d ∧ d.generation = p.generation
  queued : A.proposedFinalizerPolicies.getLast? = some (A.blockNum, p)

def MakesPending (A : BlockHeaderState β) (p : FinalizerPolicy) : Prop :=
  A.pendingFinalizerPolicy = some (A.blockNum, p)

end BlockHeaderState
open BlockHeaderState

structure Lifecycle (chain : List (BlockHeaderState β)) (S : BlockHeaderState β) : Prop where
  ordered : S.inFlight.Pairwise fun p q => p.generation < q.generation
  bounds : ∀ p ∈ S.inFlight, 0 < p.generation ∧ p.generation ≤ S.finalizerPolicyGeneration
  generation_le : S.finalizerPolicyGeneration ≤ S.blockNum
  queue_sorted : S.proposedFinalizerPolicies.Pairwise fun a b => a.1 < b.1
  proposers : ∀ e ∈ S.proposedFinalizerPolicies, ∃ A ∈ chain, A.blockNum = e.1 ∧ A.Proposes e.2
  pending_since : ∀ e, S.pendingFinalizerPolicy = some e →
    ∃ A ∈ chain, A.blockNum = e.1 ∧ A.MakesPending e.2
  active_mono : ∀ A ∈ chain, ∀ B ∈ chain, A.blockNum ≤ B.blockNum →
    A.activeFinalizerPolicy.generation ≤ B.activeFinalizerPolicy.generation

variable {env : HeaderEnv β} {chain : List (BlockHeaderState β)} {S S' : BlockHeaderState β}

theorem IsSavannaGenesis.policy (h : IsSavannaGenesis env S) :
    S.activeFinalizerPolicy.generation = 1 := by
  obtain ⟨bsp, fExt, policy, hbsp, hpolicy, -, -, -, -, hactive, -⟩ := h.created
  simp only [BlockStateLegacy.genesisPolicy, hbsp.extension, Outcome.bind_eq_returns,
    Outcome.ofOption_eq_returns, Outcome.ofExcept_eq_returns] at hpolicy
  obtain ⟨extension, hextension, fExt', hfExt', d, hd, happly⟩ := hpolicy
  cases hextension
  cases hfExt'
  rw [hactive, FinalizerPolicy.applyDiff_generation happly, hbsp.generation_eq d hd]

theorem IsSavannaGenesis.lifecycle (h : IsSavannaGenesis env S) : Lifecycle [S] S := by
  have hgen := h.policy
  have hpos := h.linked.num_pos
  obtain ⟨bsp, fExt, policy, hbsp, -, -, -, -, -, -, hpending, hproposed, hgeneration⟩ := h.created
  have hflight : S.inFlight = [S.activeFinalizerPolicy] := by
    simp [inFlight, hpending, hproposed]
  refine ⟨by rw [hflight]; exact pairwise_singleton _ _, ?_, by omega, ?_, ?_, ?_, ?_⟩
  · intro p hp
    rw [hflight, mem_singleton] at hp
    rw [hp]
    omega
  · rw [hproposed]
    exact .nil
  · rw [hproposed]
    exact nofun
  · rw [hpending]
    exact nofun
  · intro A hA B hB _
    rw [mem_singleton.mp hA, mem_singleton.mp hB]

structure PolicyStep (chain : List (BlockHeaderState β)) (S S' : BlockHeaderState β) : Prop where
  becomes_pending : ∀ p, S'.pendingFinalizerPolicy.map Prod.snd = some p →
    S.pendingFinalizerPolicy.map Prod.snd ≠ some p →
    S'.MakesPending p ∧
      ∃ A ∈ chain, A.Proposes p ∧ A.blockNum ≤ S'.core.lastFinalBlockNum
  becomes_active : S'.activeFinalizerPolicy ≠ S.activeFinalizerPolicy →
    ∃ A ∈ chain, A.MakesPending S'.activeFinalizerPolicy ∧
      A.blockNum ≤ S'.core.lastFinalBlockNum
  dropped : ∀ e ∈ S.proposedFinalizerPolicies, e ∉ S'.proposedFinalizerPolicies →
    S'.pendingFinalizerPolicy.map Prod.snd ≠ some e.2 →
    ∃ e' ∈ S.proposedFinalizerPolicies, e.1 < e'.1 ∧ e'.1 ≤ S'.core.lastFinalBlockNum

/-- The two slots after a block: a pending policy that is not final yet holds both, and
otherwise the slot is open for a policy whose proposal is final. -/
theorem Extends.slots_cases (hext : Extends env S S') :
    (∃ e, S.pendingFinalizerPolicy = some e ∧ S'.pendingFinalizerPolicy = some e ∧
      S'.activeFinalizerPolicy = S.activeFinalizerPolicy) ∨
    ((S.pendingFinalizerPolicy = none ∧ S'.activeFinalizerPolicy = S.activeFinalizerPolicy ∨
        ∃ n, S.pendingFinalizerPolicy = some (n, S'.activeFinalizerPolicy) ∧
          n ≤ S'.core.lastFinalBlockNum) ∧
      (S'.pendingFinalizerPolicy = none ∨
        ∃ e ∈ S.proposedFinalizerPolicies, e.1 ≤ S'.core.lastFinalBlockNum ∧
          S'.MakesPending e.2)) := by
  obtain ⟨fExt, hfin, -, -⟩ := hext.built.finished
  obtain ⟨-, -, -, -, hslot, -⟩ := evaluate_cases S S'.core.lastFinalBlockNum S'.header
  have hactive := hfin.active_eq.trans hslot
  have hpending := hfin.pending_eq
  have hopen : (S.promotePending S'.core.lastFinalBlockNum).2 = none →
      S'.pendingFinalizerPolicy = none ∨
        ∃ e ∈ S.proposedFinalizerPolicies, e.1 ≤ S'.core.lastFinalBlockNum ∧
          S'.MakesPending e.2 := by
    intro hnone
    rcases evaluate_pending S S'.core.lastFinalBlockNum S'.header with he | ⟨e, hmem, hle, -, he⟩
    · exact .inl (hpending.trans (he.trans hnone))
    · exact .inr ⟨e, hmem, hle, hpending.trans he⟩
  rcases promotePending_cases S S'.core.lastFinalBlockNum with ⟨hp, hpp⟩ | ⟨n, q, hq, hle, hpp⟩ |
    ⟨n, q, hq, -, hpp⟩
  · rw [hpp] at hactive hopen
    exact .inr ⟨.inl ⟨hp, hactive⟩, hopen rfl⟩
  · rw [hpp] at hactive hopen
    exact .inr ⟨.inr ⟨n, hactive ▸ hq, hle⟩, hopen rfl⟩
  · refine .inl ⟨(n, q), hq, ?_, by rw [hactive, hpp]⟩
    rcases evaluate_pending S S'.core.lastFinalBlockNum S'.header with he | ⟨e, -, -, hnone, -⟩
    · rw [hpending, he, hpp]
    · rw [hpp] at hnone
      cases hnone

theorem Lifecycle.policyStep (h : Lifecycle chain S) (hext : Extends env S S') :
    PolicyStep chain S S' := by
  have hslots := hext.slots_cases
  refine ⟨?_, ?_, ?_⟩
  · intro p hp hnew
    rcases hslots with ⟨e, hS, hS', -⟩ | ⟨-, hnone | ⟨e, hmem, hle, hmakes⟩⟩
    · rw [hS] at hnew
      rw [hS'] at hp
      exact absurd hp hnew
    · rw [hnone] at hp
      cases hp
    · rw [MakesPending] at hmakes
      rw [hmakes] at hp
      cases hp
      obtain ⟨A, hA, hAn, hprop⟩ := h.proposers e hmem
      exact ⟨hmakes, A, hA, hprop, by omega⟩
  · intro hne
    rcases hslots with ⟨-, -, -, he⟩ | ⟨⟨-, he⟩ | ⟨n, hp, hle⟩, -⟩
    · exact absurd he hne
    · exact absurd he hne
    · obtain ⟨A, hA, hAn, hmakes⟩ := h.pending_since _ hp
      exact ⟨A, hA, hmakes, hAn ▸ hle⟩
  · intro e he hdrop hnot
    obtain ⟨fExt, hfin, -, -⟩ := hext.built.finished
    have hdrop' : e ∉ (S.evaluateFinalizerPoliciesForPromotion S'.core.lastFinalBlockNum
        S'.header).proposed := by
      rcases proposeFinalizerPolicy_cases hfin.proposed with ⟨-, -, hq⟩ | ⟨d, p, -, -, -, hq⟩
      · rwa [hq] at hdrop
      · rw [hq, mem_append, not_or] at hdrop
        exact hdrop.1
    rcases evaluate_dropped S'.header he hdrop' with hbecame | ⟨e', hsub, hle⟩
    · rw [hfin.pending_eq, hbecame] at hnot
      exact absurd rfl hnot
    · have hlt := h.queue_sorted.sublist hsub
      rw [pairwise_pair] at hlt
      exact ⟨e', hsub.subset (by simp), hlt, hle⟩

theorem inFlight_pending {e : ℕ × FinalizerPolicy} (h : S.pendingFinalizerPolicy = some e) :
    S.inFlight = S.activeFinalizerPolicy :: e.2 :: S.proposedFinalizerPolicies.map Prod.snd := by
  simp [inFlight, h]

theorem Lifecycle.active_le (h : Lifecycle chain S) (hext : Extends env S S') :
    S.activeFinalizerPolicy.generation ≤ S'.activeFinalizerPolicy.generation := by
  rcases hext.slots_cases with ⟨-, -, -, he⟩ | ⟨⟨-, he⟩ | ⟨n, hp, -⟩, -⟩
  · rw [he]
  · rw [he]
  · have hlt := h.ordered
    rw [inFlight_pending hp, pairwise_cons] at hlt
    exact (hlt.1 _ (by simp)).le

theorem inFlight_next (hext : Extends env S S') (hpol : NumbersPolicies S S') :
    ∃ kept, kept.Sublist S.inFlight ∧
      ((S'.inFlight = kept ∧ S'.finalizerPolicyGeneration = S.finalizerPolicyGeneration) ∨
        ∃ p, S'.inFlight = kept ++ [p] ∧ S'.Proposes p ∧
          p.generation = u32 (S.finalizerPolicyGeneration + 1) ∧
          S'.finalizerPolicyGeneration = p.generation) := by
  obtain ⟨fExt, hfin, -, hf⟩ := hext.built.finished
  refine ⟨_, evaluate_inFlight_sublist S S'.core.lastFinalBlockNum S'.header, ?_⟩
  unfold FinalizerSlots.inFlight
  rw [← hfin.active_eq, ← hfin.pending_eq]
  rcases proposeFinalizerPolicy_cases hfin.proposed with ⟨-, hgen, hq⟩ | ⟨d, p, hd, hpd, hgen, hq⟩
  · rw [← hq]
    exact .inl ⟨rfl, hgen⟩
  · refine .inr ⟨p, ?_, ⟨⟨fExt, d, hf, hd, hpd.symm⟩, ?_⟩, ?_, hgen⟩
    · simp [inFlight, hq]
    · rw [hq, getLast?_concat]
      rfl
    · rw [hpd]
      exact hpol fExt d hf hd

theorem queue_next (hext : Extends env S S') :
    ∃ kept, kept.Sublist S.proposedFinalizerPolicies ∧
      (S'.proposedFinalizerPolicies = kept ∨
        ∃ p, S'.proposedFinalizerPolicies = kept ++ [(S'.blockNum, p)] ∧ S'.Proposes p) := by
  obtain ⟨fExt, hfin, -, hf⟩ := hext.built.finished
  refine ⟨_, evaluate_proposed_sublist S S'.core.lastFinalBlockNum S'.header, ?_⟩
  rcases proposeFinalizerPolicy_cases hfin.proposed with ⟨-, -, hq⟩ | ⟨d, p, hd, hpd, -, hq⟩
  · exact .inl hq
  · refine .inr ⟨p, hq, ⟨fExt, d, hf, hd, hpd.symm⟩, ?_⟩
    rw [hq, getLast?_concat]
    rfl

theorem Lifecycle.next (h : Lifecycle chain S) (hlinked : Linked env chain S)
    (hext : Extends env S S') (hpol : NumbersPolicies S S')
    (hnum : S'.blockNum = S.blockNum + 1) : Lifecycle (chain ++ [S']) S' := by
  have hle := h.generation_le
  have hlt : S'.blockNum < 2 ^ 32 := S'.header.blockNum_lt
  obtain ⟨kept, hsub, hflight⟩ := inFlight_next hext hpol
  obtain ⟨queue, hqsub, hqueue⟩ := queue_next hext
  have hkept := h.ordered.sublist hsub
  rw [u32_of_lt (by omega)] at hflight
  have hmember : ∀ e ∈ S.proposedFinalizerPolicies,
      ∃ A ∈ chain ++ [S'], A.blockNum = e.1 ∧ A.Proposes e.2 := by
    intro e he
    obtain ⟨A, hA, hAe⟩ := h.proposers e he
    exact ⟨A, mem_append_left _ hA, hAe⟩
  refine ⟨?_, ?_, ?_, ?_, ?_, ?_, ?_⟩
  · rcases hflight with ⟨hS', -⟩ | ⟨p, hS', -, hp, -⟩
    · rwa [hS']
    · rw [hS']
      refine pairwise_append_one hkept fun q hq => ?_
      have hb := h.bounds q (hsub.subset hq)
      omega
  · rcases hflight with ⟨hS', hgen⟩ | ⟨p, hS', -, hp, hgen⟩
    · intro q hq
      rw [hgen]
      exact h.bounds q (hsub.subset (hS' ▸ hq))
    · intro q hq
      rw [hS', mem_append, mem_singleton] at hq
      rcases hq with hq | rfl
      · have hb := h.bounds q (hsub.subset hq)
        omega
      · omega
  · rcases hflight with ⟨-, hgen⟩ | ⟨p, -, -, hp, hgen⟩
    · omega
    · omega
  · rcases hqueue with hS' | ⟨p, hS', -⟩
    · rw [hS']
      exact h.queue_sorted.sublist hqsub
    · rw [hS']
      refine pairwise_append_one (h.queue_sorted.sublist hqsub) fun e he => ?_
      obtain ⟨A, hA, hAe, -⟩ := h.proposers e (hqsub.subset he)
      have hA' := hlinked.le_tip A hA
      omega
  · rcases hqueue with hS' | ⟨p, hS', hprop⟩
    · intro e he
      exact hmember e (hqsub.subset (hS' ▸ he))
    · intro e he
      rw [hS', mem_append, mem_singleton] at he
      rcases he with he | rfl
      · exact hmember e (hqsub.subset he)
      · exact ⟨S', by simp, rfl, hprop⟩
  · intro e he
    rcases hext.slots_cases with ⟨e', hS, hS', -⟩ | ⟨-, hnone | ⟨e', -, -, hmakes⟩⟩
    · obtain ⟨A, hA, hAe⟩ := h.pending_since e (by rw [hS, ← hS', he])
      exact ⟨A, mem_append_left _ hA, hAe⟩
    · rw [hnone] at he
      cases he
    · cases hmakes.symm.trans he
      exact ⟨S', by simp, rfl, hmakes⟩
  · intro A hA B hB hAB
    rw [mem_append, mem_singleton] at hA hB
    rcases hA with hA | rfl <;> rcases hB with hB | rfl
    · exact h.active_mono A hA B hB hAB
    · exact (h.active_mono A hA S hlinked.mem (hlinked.le_tip A hA)).trans (h.active_le hext)
    · have hB' := hlinked.le_tip B hB
      omega
    · exact le_rfl

theorem HeaderChain.lifecycle (h : HeaderChain env chain S) (hnum : S.blockNum ≠ 0) :
    Linked env chain S ∧ Lifecycle chain S := by
  induction h with
  | genesis hG => exact ⟨hG.linked, hG.lifecycle⟩
  | @next chain S S' hchain hext hpol ih =>
    rcases hchain.linked with hlinked | hwrapped
    · obtain ⟨-, hlife⟩ := ih hlinked.num_pos.ne'
      rcases hlinked.next hext with hlinked' | hwrapped'
      · exact ⟨hlinked', hlife.next hlinked hext hpol (hlinked.blockNum_succ hext hnum)⟩
      · exact absurd hwrapped'.num_eq hnum
    · exact (hwrapped.not_extends hext).elim

/-- The life cycle of finalizer policies along a chain: the order of their generations and
of the blocks that proposed them, and the rules of every block that follows. -/
theorem headerChain_policies (h : HeaderChain env chain S) (hnum : S.blockNum ≠ 0) :
    (S.inFlight.Pairwise fun p q => p.generation < q.generation) ∧
    (∀ p ∈ S.inFlight, p.generation ≤ S.finalizerPolicyGeneration) ∧
    (S.proposedFinalizerPolicies.Pairwise fun a b => a.1 < b.1) ∧
    (chain.Pairwise fun A B =>
      A.activeFinalizerPolicy.generation ≤ B.activeFinalizerPolicy.generation) ∧
    ∀ S', Extends env S S' → NumbersPolicies S S' → PolicyStep chain S S' := by
  obtain ⟨hlinked, hlife⟩ := h.lifecycle hnum
  refine ⟨hlife.ordered, fun p hp => (hlife.bounds p hp).2, hlife.queue_sorted, ?_, ?_⟩
  · exact hlinked.sorted.imp_of_mem fun hA hB hlt => hlife.active_mono _ hA _ hB hlt.le
  · intro S' hext _
    exact hlife.policyStep hext

/-- The second block proposes a policy, which is pending from the fourth and active from the
sixth block on; the fifth proposes the next one, pending in the seventh. -/
theorem headerChain_policies_handover :
    HeaderChain zeroHashEnv ((range 7).map handover) (handover 6) ∧
    ((range 7).map fun k => ((handover k).activeFinalizerPolicy.generation,
        (handover k).pendingFinalizerPolicy.map fun p => p.2.generation)) =
      [(1, none), (1, none), (1, none), (1, some 2), (1, some 2), (2, none), (2, some 3)] ∧
    ((handover 6).inFlight.Pairwise fun p q => p.generation < q.generation) ∧
    (∀ p ∈ (handover 6).inFlight, p.generation ≤ (handover 6).finalizerPolicyGeneration) ∧
    ((handover 6).proposedFinalizerPolicies.Pairwise fun a b => a.1 < b.1) ∧
    (((range 7).map handover).Pairwise fun A B =>
      A.activeFinalizerPolicy.generation ≤ B.activeFinalizerPolicy.generation) ∧
    ∀ S', Extends zeroHashEnv (handover 6) S' → NumbersPolicies (handover 6) S' →
      PolicyStep ((range 7).map handover) (handover 6) S' := by
  have hchain := handover_chain 6 le_rfl
  exact ⟨hchain, by decide +kernel, headerChain_policies hchain (by decide +kernel)⟩

/-- The last block number before the wrap and the wrapped one both propose a policy: the
queue of the wrapped block is not in the order of the block numbers. -/
theorem headerChain_queue_wraps :
    ∃ chain S, HeaderChain zeroHashEnv chain S ∧
      ¬ S.proposedFinalizerPolicies.Pairwise fun a b => a.1 < b.1 := by
  have hgenesis := HeaderChain.genesis
    (plainGenesis_isSavannaGenesis (show 0 < 2 ^ 32 - 2 by decide) (by decide))
  obtain ⟨hext, hpol⟩ := plainNext_extends (plainGenesis (2 ^ 32 - 2)) (2 ^ 32 - 2)
    (some ⟨2, 0, []⟩) (by decide +kernel) (by decide +kernel) (by decide +kernel)
    (by decide +kernel)
  obtain ⟨hext', hpol'⟩ := plainNext_extends
    (plainNext (plainGenesis (2 ^ 32 - 2)) (2 ^ 32 - 2) (some ⟨2, 0, []⟩)) (2 ^ 32 - 2)
    (some ⟨3, 0, []⟩) (by decide +kernel) (by decide +kernel) (by decide +kernel)
    (by decide +kernel)
  exact ⟨_, _, (hgenesis.next hext hpol).next hext' hpol', by decide +kernel⟩

end FlonCore
