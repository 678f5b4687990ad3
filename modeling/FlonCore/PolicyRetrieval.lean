import FlonCore.PolicyLifecycle

/-!
# Retrieval of the finalizer policies of an ancestor

A state keeps three policies: the active one, the pending one and, when it is no
longer active, the one that was active at the block claimed last. These are
enough for every ancestor from the claimed block on. While a policy is pending
neither slot changes, so a policy that becomes active was pending at every block
since the one it became pending in, and that block is final, hence not above
the claimed one.
-/

namespace FlonCore
open Library FinalityCore BlockHeaderState List Option
open Outcome
variable {β : Type}

structure Kept (S A : BlockHeaderState β) : Prop where
  active : A.activeFinalizerPolicy = S.activeFinalizerPolicy ∨
    (S.latestQcClaimBlockActiveFinalizerPolicy = some A.activeFinalizerPolicy ∧
      A.activeFinalizerPolicy.generation < S.activeFinalizerPolicy.generation)
  pending : ∀ p, A.pendingFinalizerPolicy.map Prod.snd = some p →
    p = S.activeFinalizerPolicy ∨ S.pendingFinalizerPolicy.map Prod.snd = some p

/-- While a policy is pending, both slots are what they were in the block it became pending
in. -/
def PendingSince (chain : List (BlockHeaderState β)) (S : BlockHeaderState β) : Prop :=
  ∀ e, S.pendingFinalizerPolicy = some e → ∀ A ∈ chain, e.1 ≤ A.blockNum →
    A.activeFinalizerPolicy = S.activeFinalizerPolicy ∧
      A.pendingFinalizerPolicy = S.pendingFinalizerPolicy

def Retrievable (chain : List (BlockHeaderState β)) (S : BlockHeaderState β) : Prop :=
  ∀ A ∈ chain, S.core.latestQcClaim.blockNum ≤ A.blockNum → Kept S A

section Retrieve
variable {S A : BlockHeaderState β} {env : HeaderEnv β} {chain : List (BlockHeaderState β)}

theorem retrieve_self (p : FinalizerPolicy) : retrieve (some p) p.generation = .ok p :=
  if_pos rfl

theorem Kept.retrieveActive (h : Kept S A) :
    S.retrieveActive A.activeFinalizerPolicy.generation = .ok A.activeFinalizerPolicy := by
  unfold BlockHeaderState.retrieveActive
  rcases h.active with he | ⟨hkept, hlt⟩
  · rw [he, if_pos rfl]
  · rw [if_neg (by omega), hkept, retrieve_self]

theorem Kept.retrievePending (h : Kept S A) (hlife : Lifecycle chain S) :
    S.retrievePending ((A.pendingFinalizerPolicy.map fun e => e.2.generation).getD 0) =
      .ok (A.pendingFinalizerPolicy.map Prod.snd) := by
  unfold BlockHeaderState.retrievePending
  cases hA : A.pendingFinalizerPolicy with
  | none => rfl
  | some e =>
    rw [map_some, getD_some, map_some]
    have hactive := (hlife.bounds S.activeFinalizerPolicy (by simp [inFlight])).1
    rcases h.pending e.2 (by rw [hA]; rfl) with he | hp
    · rw [if_neg (by rw [he]; omega), if_pos (by rw [he]), he]
    · obtain ⟨e', hS, he'⟩ := map_eq_some_iff.mp hp
      have hord := hlife.ordered
      rw [inFlight_pending hS, pairwise_cons] at hord
      have hlt := hord.1 e.2 (by simp [he'])
      rw [if_neg (by omega), if_neg (by omega), hp, retrieve_self]
      rfl

theorem Kept.getFinalizerPolicies (h : Kept S A) (hlife : Lifecycle chain S) {ref : BlockRef}
    (href : A.makeBlockRef env = some ref) :
    A.computeFinalityDigest env = some ref.finalityDigest ∧
      S.getFinalizerPolicies ref = .ok ⟨ref.finalityDigest, A.activeFinalizerPolicy,
        A.pendingFinalizerPolicy.map Prod.snd⟩ := by
  obtain ⟨digest, hdigest, rfl⟩ := map_eq_some_iff.mp href
  refine ⟨hdigest, ?_⟩
  rw [BlockHeaderState.getFinalizerPolicies, h.retrieveActive, h.retrievePending hlife]
  rfl

end Retrieve

section Step
variable {env : HeaderEnv β} {chain : List (BlockHeaderState β)} {S S' : BlockHeaderState β}

theorem Kept.self (S : BlockHeaderState β) : Kept S S := ⟨.inl rfl, fun _ hp => .inr hp⟩

theorem PendingSince.next (h : PendingSince chain S) (hlinked : Linked env chain S)
    (hext : Extends env S S') (hnum : S'.blockNum = S.blockNum + 1) :
    PendingSince (chain ++ [S']) S' := by
  intro e he A hA hle
  rw [mem_append, mem_singleton] at hA
  rcases hA with hA | rfl
  · rcases hext.slots_cases with ⟨e', hS, hS', hactive⟩ | ⟨-, hnone | ⟨e', -, -, hmakes⟩⟩
    · cases he.symm.trans hS'
      rw [hactive, hS', ← hS]
      exact h e hS A hA hle
    · rw [hnone] at he
      cases he
    · -- the policy became pending in the new block, above every block of the chain
      cases hmakes.symm.trans he
      have hA' := hlinked.le_tip A hA
      omega
  · exact ⟨rfl, rfl⟩

theorem Linked.claimed (h : Linked env chain S) (hext : Extends env S S') :
    ∃ Q ∈ chain, Q.blockNum = S'.core.latestQcClaim.blockNum ∧
      S.getActiveFinalizerPolicyGeneration S'.core.latestQcClaim.blockNum =
        some Q.activeFinalizerPolicy.generation ∧
      ∃ ref, Q.makeBlockRef env = some ref ∧
        S'.core.getBlockReference S'.core.latestQcClaim.blockNum = some ref := by
  obtain ⟨fExt, ref, l, hstep⟩ := h.core_next hext
  have hge := hstep.claim_mono
  have hle := hstep.claim_le
  have hmono := hstep.final_mono
  have hfc := hstep.final_le_claim
  rw [← hstep.claim_eq] at hge hle
  rw [hstep.final_eq] at hmono hfc
  rcases Nat.lt_or_ge S'.core.latestQcClaim.blockNum S.blockNum with hlt | hge'
  · obtain ⟨Q, hQ, hQn, r, hr, hget⟩ :=
      h.reference _ (h.shape.final_le_claim.trans hge) hlt
    refine ⟨Q, hQ, hQn, ?_, r, hr, ?_⟩
    · obtain ⟨digest, -, rfl⟩ := map_eq_some_iff.mp hr
      rw [getActiveFinalizerPolicyGeneration, if_neg (by omega), hget]
      rfl
    · rw [← hget, ← advance_getBlockReference_of_lt h.shape hstep.link hfc hlt, ← hstep.core_eq]
  · have heq : S'.core.latestQcClaim.blockNum = S.blockNum := by omega
    rw [heq]
    refine ⟨S, h.mem, rfl, if_pos rfl, ref, hstep.ref_eq, ?_⟩
    rw [hstep.core_eq]
    exact advance_getBlockReference_self h.shape hstep.link (by omega) S.header.blockNum_lt

theorem Linked.claimed_policy (h : Linked env chain S) (hlife : Lifecycle chain S)
    (hret : Retrievable chain S) (hext : Extends env S S') :
    ∃ Q ∈ chain, Q.blockNum = S'.core.latestQcClaim.blockNum ∧ Kept S Q ∧
      ((Q.activeFinalizerPolicy.generation = S'.activeFinalizerPolicy.generation ∧
          S'.latestQcClaimBlockActiveFinalizerPolicy = none) ∨
        (Q.activeFinalizerPolicy.generation ≠ S'.activeFinalizerPolicy.generation ∧
          S'.latestQcClaimBlockActiveFinalizerPolicy = some Q.activeFinalizerPolicy)) := by
  obtain ⟨fExt, _, _, hstep⟩ := h.core_next hext
  obtain ⟨Q, hQ, hQn, hgen, ref, href, hget⟩ := h.claimed hext
  have hkept := hret Q hQ (by rw [hQn, hstep.claim_eq]; exact hstep.claim_mono)
  refine ⟨Q, hQ, hQn, hkept, ?_⟩
  have hclaimed := hstep.finished.claimed
  unfold keepClaimedPolicy at hclaimed
  simp only [hgen, bind_eq_returns, ofOption_eq_returns] at hclaimed
  obtain ⟨generation, hgeneration, hclaimed⟩ := hclaimed
  cases hgeneration
  split_ifs at hclaimed with heq
  · exact .inl ⟨heq, (pure_eq_returns.mp hclaimed).symm⟩
  · refine .inr ⟨heq, ?_⟩
    simp only [hget, bind_eq_returns, ofOption_eq_returns, ofExcept_eq_returns] at hclaimed
    obtain ⟨_, ⟨⟩, policies, hpolicies, hkeep⟩ := hclaimed
    rw [(hkept.getFinalizerPolicies hlife href).2] at hpolicies
    cases hpolicies
    exact (pure_eq_returns.mp hkeep).symm

/-- A block that promotes nothing keeps what its parent kept. The policy active at the
claimed block `Q` is the one the parent had kept, unless it is active again. -/
theorem Kept.next {A Q : BlockHeaderState β} (hA : Kept S A) (hQ : Kept S Q)
    (hmono : Q.activeFinalizerPolicy.generation ≤ A.activeFinalizerPolicy.generation)
    (hactive : S'.activeFinalizerPolicy = S.activeFinalizerPolicy)
    (hpending : ∀ p, S.pendingFinalizerPolicy.map Prod.snd = some p →
      S'.pendingFinalizerPolicy.map Prod.snd = some p)
    (hclaimed : (Q.activeFinalizerPolicy.generation = S'.activeFinalizerPolicy.generation ∧
        S'.latestQcClaimBlockActiveFinalizerPolicy = none) ∨
      (Q.activeFinalizerPolicy.generation ≠ S'.activeFinalizerPolicy.generation ∧
        S'.latestQcClaimBlockActiveFinalizerPolicy = some Q.activeFinalizerPolicy)) :
    Kept S' A := by
  rw [hactive] at hclaimed
  refine ⟨?_, ?_⟩
  · rw [hactive]
    rcases hA.active with he | ⟨hkept, hlt⟩
    · exact .inl he
    · rcases hclaimed with ⟨heq, -⟩ | ⟨hne, hkeep⟩
      · omega
      · rcases hQ.active with he | ⟨hkept', -⟩
        · rw [he] at hne
          exact absurd rfl hne
        · rw [hkept', Option.some.injEq] at hkept
          exact .inr ⟨by rw [hkeep, hkept], hlt⟩
  · intro p hp
    rw [hactive]
    rcases hA.pending p hp with he | hS
    · exact .inl he
    · exact .inr (hpending p hS)

theorem Retrievable.next (h : Retrievable chain S) (hlinked : Linked env chain S)
    (hlife : Lifecycle chain S) (hsince : PendingSince chain S) (hext : Extends env S S') :
    Retrievable (chain ++ [S']) S' := by
  intro A hA hle
  rw [mem_append, mem_singleton] at hA
  rcases hA with hA | rfl
  swap
  · exact Kept.self _
  obtain ⟨Q, hQ, hQn, hQkept, hclaimed⟩ := hlinked.claimed_policy hlife h hext
  obtain ⟨fExt, _, _, hstep⟩ := hlinked.core_next hext
  have hfc := hstep.final_le_claim
  have hge := hstep.claim_mono
  rw [← hstep.claim_eq] at hge
  have hAkept := h A hA (hge.trans hle)
  have hmono := hlife.active_mono Q hQ A hA (by omega)
  rcases hext.slots_cases with ⟨e, hS, hS', hactive⟩ | ⟨⟨hnone, hactive⟩ | ⟨n, hp, hn⟩, -⟩
  · exact hAkept.next hQkept hmono hactive (fun p hp => by rw [hS', ← hS, hp]) hclaimed
  · exact hAkept.next hQkept hmono hactive (fun p hp => by simp [hnone] at hp) hclaimed
  · -- the promoted policy was pending from a final block on, so at `A` and at `Q`
    obtain ⟨hAa, hAp⟩ := hsince _ hp A hA (by dsimp only; omega)
    obtain ⟨hQa, hQp⟩ := hsince _ hp Q hQ (by dsimp only; omega)
    have hord := hlife.ordered
    rw [inFlight_pending hp, pairwise_cons] at hord
    have hlt := hord.1 S'.activeFinalizerPolicy (by simp)
    refine ⟨.inr ⟨?_, by rw [hAa]; exact hlt⟩, ?_⟩
    · rcases hclaimed with ⟨heq, -⟩ | ⟨-, hkeep⟩
      · rw [hQa] at heq
        omega
      · rw [hkeep, hQa, hAa]
    · intro p hAp'
      rw [hAp, hp] at hAp'
      cases hAp'
      exact .inl rfl

theorem HeaderChain.retrievable (h : HeaderChain env chain S) (hnum : S.blockNum ≠ 0) :
    PendingSince chain S ∧ Retrievable chain S := by
  induction h with
  | genesis hG =>
    obtain ⟨-, -, -, -, -, -, -, -, -, -, hpending, -⟩ := hG.created
    refine ⟨?_, ?_⟩
    · intro e he
      rw [hpending] at he
      cases he
    · intro A hA _
      rw [mem_singleton.mp hA]
      exact Kept.self _
  | @next chain S S' hchain hext hpol ih =>
    rcases hchain.linked with hlinked | hwrapped
    · obtain ⟨-, hlife⟩ := hchain.lifecycle hlinked.num_pos.ne'
      obtain ⟨hsince, hret⟩ := ih hlinked.num_pos.ne'
      exact ⟨hsince.next hlinked hext (hlinked.blockNum_succ hext hnum),
        hret.next hlinked hlife hsince hext⟩
    · exact (hwrapped.not_extends hext).elim

/-- Every state of a chain finds, through the reference of an ancestor from the claimed
block on, the policies that ancestor had. -/
theorem getFinalizerPolicies_of_ancestor (h : HeaderChain env chain S)
    {A : BlockHeaderState β} (hA : A ∈ chain)
    (hclaim : S.core.latestQcClaim.blockNum ≤ A.blockNum) (hle : A.blockNum ≤ S.blockNum) :
    ∃ ref digest, A.makeBlockRef env = some ref ∧ A.computeFinalityDigest env = some digest ∧
      S.getFinalizerPolicies ref = .ok ⟨digest, A.activeFinalizerPolicy,
        A.pendingFinalizerPolicy.map Prod.snd⟩ := by
  have hnum : S.blockNum ≠ 0 := by
    rcases h.linked with hlinked | hwrapped
    · exact hlinked.num_pos.ne'
    · -- a wrapped number is below every claim
      have hpos := hwrapped.claim_pos
      omega
  obtain ⟨hlinked, hlife⟩ := h.lifecycle hnum
  obtain ⟨-, hret⟩ := h.retrievable hnum
  obtain ⟨ref, href⟩ := hlinked.refs_defined A hA
  obtain ⟨hdigest, hget⟩ := (hret A hA hclaim).getFinalizerPolicies hlife href
  exact ⟨ref, ref.finalityDigest, href, hdigest, hget⟩

end Step

/-- The block in which the second policy becomes active still finds that its parent had the
first one active and the second pending. -/
theorem getFinalizerPolicies_of_handover :
    (handover 5).activeFinalizerPolicy = unitPolicy 2 2 [0, 1] ∧
    ∃ ref digest, (handover 4).makeBlockRef zeroHashEnv = some ref ∧
      (handover 4).computeFinalityDigest zeroHashEnv = some digest ∧
      (handover 5).getFinalizerPolicies ref =
        .ok ⟨digest, ⟨1, 0, []⟩, some (unitPolicy 2 2 [0, 1])⟩ := by
  refine ⟨by decide +kernel, ?_⟩
  have hactive : (handover 4).activeFinalizerPolicy = ⟨1, 0, []⟩ := by decide +kernel
  have hpending : (handover 4).pendingFinalizerPolicy.map Prod.snd =
      some (unitPolicy 2 2 [0, 1]) := by decide +kernel
  have hget := getFinalizerPolicies_of_ancestor (handover_chain 5 (by decide))
    (mem_map_of_mem (show 4 ∈ range 6 by decide)) (by decide +kernel) (by decide +kernel)
  rwa [hactive, hpending] at hget

end FlonCore
