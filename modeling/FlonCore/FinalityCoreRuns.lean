import FlonCore.FinalityCoreInvariant

/-!
# Branches of finality cores

A branch starts at a genesis core and grows by calls of `next` that meet its
documented preconditions. Block numbers are compared and incremented as the
32-bit words they are, so the last number of a branch may be the wrapped one.
-/

namespace FlonCore
open Library List
namespace FinalityCore

/-- The documented preconditions of `next`. -/
@[mk_iff]
structure NextPre (c : FinalityCore) (currentBlock : BlockRef) (claim : QcClaim) : Prop where
  current_num : currentBlock.blockNum = c.currentBlockNum
  parent : ∀ r, c.refs.getLast? = some r →
    u32 (r.blockNum + 1) = currentBlock.blockNum ∧ r.timestamp < currentBlock.timestamp
  claim_ge : c.latestQcClaim.le claim
  claim_le : claim.blockNum ≤ c.currentBlockNum

instance (c : FinalityCore) (currentBlock : BlockRef) (claim : QcClaim) :
    Decidable (NextPre c currentBlock claim) :=
  have : Decidable (∀ r, c.refs.getLast? = some r → u32 (r.blockNum + 1) = currentBlock.blockNum ∧
      r.timestamp < currentBlock.timestamp) :=
    inferInstanceAs (Decidable (∀ r ∈ c.refs.getLast?, _))
  decidable_of_iff' _ (nextPre_iff c currentBlock claim)

structure Invariants (c : FinalityCore) : Prop where
  links_nonempty : c.links ≠ []
  front_between : c.lastFinalBlockNum ≤ c.frontLink.sourceBlockNum ∧
    c.frontLink.sourceBlockNum ≤ c.latestQcClaim.blockNum
  genesis_links : c.refs = [] → c.links.length = 1 ∧
    c.backLink.targetBlockNum = c.backLink.sourceBlockNum ∧
    c.backLink.sourceBlockNum = c.lastFinalBlockNum
  refs_front : ∀ r, c.refs.head? = some r →
    r.blockNum = c.frontLink.targetBlockNum ∧ c.frontLink.targetBlockNum = c.lastFinalBlockNum
  refs_back : ∀ r, c.refs.getLast? = some r →
    u32 (r.blockNum + 1) = c.backLink.sourceBlockNum ∧
    c.backLink.sourceBlockNum = c.currentBlockNum
  refs_adjacent : ∀ i a b, c.refs[i]? = some a → c.refs[i + 1]? = some b →
    u32 (a.blockNum + 1) = b.blockNum ∧ a.timestamp < b.timestamp
  links_adjacent : ∀ i a b, c.links[i]? = some a → c.links[i + 1]? = some b →
    u32 (a.sourceBlockNum + 1) = b.sourceBlockNum ∧ a.targetBlockNum ≤ b.targetBlockNum
  refs_size : wrapSub (2 ^ 32) c.currentBlockNum c.lastFinalBlockNum = c.refs.length
  links_size : wrapSub (2 ^ 32) c.currentBlockNum c.frontLink.sourceBlockNum = c.links.length - 1

/-- The cores reached from a genesis core by `n` calls meeting the preconditions. -/
inductive CoreRun (genesisId : BlockId) (timestamp : BlockTimestamp) : ℕ → FinalityCore → Prop
  | genesis : CoreRun genesisId timestamp 0 (createCoreForGenesisBlock genesisId timestamp)
  | next {n : ℕ} {c c' : FinalityCore} {currentBlock : BlockRef} {claim : QcClaim} :
      CoreRun genesisId timestamp n c → NextPre c currentBlock claim →
      c.next currentBlock claim = some c' → CoreRun genesisId timestamp (n + 1) c'

def TimesSorted (c : FinalityCore) : Prop := c.refs.Pairwise fun a b => a.timestamp < b.timestamp

variable {c : FinalityCore}

theorem timesSorted_lt {currentBlock : BlockRef} (h : c.TimesSorted)
    (hlast : ∀ r, c.refs.getLast? = some r → r.timestamp < currentBlock.timestamp) :
    ∀ a ∈ c.refs, a.timestamp < currentBlock.timestamp := by
  intro a ha
  obtain ⟨i, hi⟩ := getElem?_of_mem ha
  obtain ⟨hlt, -⟩ := List.getElem?_eq_some_iff.mp hi
  have hb : c.refs.getLast? = some c.refs[c.refs.length - 1] := by
    rw [getLast?_eq_getElem?]
    exact getElem?_eq_getElem (by omega)
  rcases Nat.lt_or_ge i (c.refs.length - 1) with hi' | hi'
  · refine lt_trans (pairwise_getElem? h hi' hi ?_) (hlast _ hb)
    exact getElem?_eq_getElem (by omega)
  · have he : i = c.refs.length - 1 := by omega
    subst he
    rw [← getLast?_eq_getElem?] at hi
    exact hlast a hi

theorem TimesSorted.advance {l : QcLink} {currentBlock : BlockRef}
    {claim : QcClaim} (h : c.TimesSorted)
    (hlast : ∀ r, c.refs.getLast? = some r → r.timestamp < currentBlock.timestamp) :
    (c.advance l currentBlock claim).TimesSorted := by
  refine pairwise_append_one (h.sublist (drop_sublist _ _)) ?_
  intro a ha
  exact timesSorted_lt h hlast a (mem_of_mem_drop ha)

namespace CoreShape
variable {height : ℕ} {c : FinalityCore}

section
variable (h : CoreShape height c)
include h

theorem current_sub {n : ℕ} (hn : n ≤ height) (hpos : 0 < n ∨ height < 2 ^ 32) :
    wrapSub (2 ^ 32) c.currentBlockNum n = height - n := by
  rw [h.current_eq]
  rcases Nat.lt_or_ge height (2 ^ 32) with hlt | hge
  · rw [Nat.mod_eq_of_lt hlt, wrapSub_of_le hn hlt]
  · have hh := h.height_le
    have he : height = 2 ^ 32 := by omega
    rw [he, Nat.mod_self, wrapSub_zero_left (by omega) (by omega)]

theorem refs_last {r : BlockRef} (hr : c.refs.getLast? = some r) :
    u32 (r.blockNum + 1) = c.currentBlockNum := by
  have hrlen := h.refs_length
  rw [getLast?_eq_getElem?] at hr
  obtain ⟨hlt, -⟩ := List.getElem?_eq_some_iff.mp hr
  rw [h.current_eq, h.refs_num _ r hr, u32, Nat.mod_add_mod]
  congr 1
  omega

theorem invariants (ht : c.TimesSorted) (hpos : 0 < c.lastFinalBlockNum ∨ height < 2 ^ 32) :
    c.Invariants := by
  have hlen := h.links_length
  have hrlen := h.refs_length
  have hff := h.final_le_front
  have hfc := h.front_le_claim
  have hch := h.claim_le_height
  refine ⟨h.links_ne, ⟨hff, hfc⟩, ?_, ?_, ?_, ?_, ?_, ?_, ?_⟩
  · intro hr
    have hfl := h.front_lt
    have hcur : c.backLink.sourceBlockNum = height % 2 ^ 32 := h.current_eq
    have hct : c.latestQcClaim.blockNum = c.backLink.targetBlockNum := rfl
    rw [hr, length_nil] at hrlen
    exact ⟨by omega, by omega, by omega⟩
  · intro r hr
    rw [head?_eq_getElem?] at hr
    have hn := h.refs_num 0 r hr
    have hfl := h.front_lt
    rw [Nat.add_zero, Nat.mod_eq_of_lt (by omega)] at hn
    exact ⟨hn, rfl⟩
  · intro r hr
    exact ⟨h.refs_last hr, rfl⟩
  · intro i a b ha hb
    exact ⟨h.refs_num.adjacent ha hb, pairwise_getElem? ht (Nat.lt_succ_self i) ha hb⟩
  · intro i a b ha hb
    exact ⟨h.links_num.adjacent ha hb,
      pairwise_getElem? h.targets_sorted (Nat.lt_succ_self i) ha hb⟩
  · rw [h.current_sub (by omega) hpos]
    omega
  · rw [h.current_sub h.front_le_height (by omega)]
    omega

/-- A block whose number wrapped to zero has no child: a claim is at least the last
final block number and at most the current one. -/
theorem height_lt (hpos : 0 < c.lastFinalBlockNum ∨ height < 2 ^ 32) {claim : QcClaim}
    (hge : c.latestQcClaim.le claim) (hle : claim.blockNum ≤ c.currentBlockNum) :
    height < 2 ^ 32 := by
  rcases hpos with hpos | hlt
  · by_contra hwrap
    have hh := h.height_le
    have hcur := h.current_eq
    have hfc := h.final_le_claim.trans (QcClaim.blockNum_le hge)
    omega
  · exact hlt

end

end CoreShape

theorem genesis_lastFinalBlockNum (id : BlockId) (timestamp : BlockTimestamp) :
    (createCoreForGenesisBlock id timestamp).lastFinalBlockNum = numFromId id := rfl

/-- Along a branch the shape holds at the height counted from the genesis block. The
wrapped height is reached only above a genesis block with a positive number. -/
theorem CoreRun.shape {id : BlockId} {timestamp : BlockTimestamp} {n : ℕ}
    (hrun : CoreRun id timestamp n c) (hn : 0 < numFromId id ∨ n < 2 ^ 32) :
    CoreShape (numFromId id + n) c ∧ c.TimesSorted ∧ numFromId id ≤ c.lastFinalBlockNum := by
  induction hrun with
  | genesis => exact ⟨genesis_coreShape id timestamp, List.Pairwise.nil, le_rfl⟩
  | @next n c c' currentBlock claim hrun hp hnext ih =>
    obtain ⟨hc, hts, hg⟩ := ih (by omega)
    have hh := hc.height_lt (by omega) hp.claim_ge hp.claim_le
    obtain ⟨l, -, hl, -, -, -, -, hmono, -, hadv, hshape⟩ :=
      hc.next hh hp.current_num hp.claim_ge hp.claim_le
    rw [hadv, Option.some.injEq] at hnext
    subst hnext
    refine ⟨hshape, hts.advance fun r hr => (hp.parent r hr).2, ?_⟩
    rw [advance_lastFinalBlockNum hl]
    omega

/-- Every core of a branch satisfies the nine invariants, its lookups find what they are
asked for, and its next core exists and advances as documented. -/
theorem coreRun_invariants {id : BlockId} {timestamp : BlockTimestamp} {n : ℕ}
    {c : FinalityCore} (hrun : CoreRun id timestamp n c)
    (hn : 0 < numFromId id ∨ n < 2 ^ 32) :
    c.Invariants ∧
    (∀ m, c.lastFinalBlockNum ≤ m → m < c.currentBlockNum →
      ∃ r, c.getBlockReference m = some r ∧ r.blockNum = m) ∧
    (∀ m, c.frontLink.sourceBlockNum ≤ m → m ≤ c.currentBlockNum →
      ∃ l, c.getQcLinkFrom m = some l ∧ l.sourceBlockNum = m) ∧
    c.lastFinalBlockNum ≤ c.latestQcClaim.blockNum ∧
    (∀ currentBlock claim, NextPre c currentBlock claim →
      ∃ newLastFinal newFrontSource c',
        c.getNewBlockNumbers claim = some (newLastFinal, newFrontSource) ∧
        wrapSub (2 ^ 32) newFrontSource c.frontLink.sourceBlockNum < c.links.length ∧
        wrapSub (2 ^ 32) newLastFinal c.lastFinalBlockNum ≤ c.refs.length ∧
        c.next currentBlock claim = some c' ∧
        c'.frontLink.sourceBlockNum = newFrontSource ∧
        c'.lastFinalBlockNum = newLastFinal ∧
        c'.currentBlockNum = u32 (c.currentBlockNum + 1) ∧
        c'.latestQcClaim = claim ∧
        c.lastFinalBlockNum ≤ c'.lastFinalBlockNum ∧
        c'.lastFinalBlockNum ≤ claim.blockNum) := by
  obtain ⟨hc, hts, hg⟩ := hrun.shape hn
  have hcur := hc.current_eq
  refine ⟨hc.invariants hts ?_, ?_, ?_, hc.final_le_claim, ?_⟩
  · have hid := numFromId_lt id
    omega
  · intro m hf hm
    exact hc.getBlockReference hf (by omega)
  · intro m hs hm
    obtain ⟨l, hget, hnum, -⟩ := hc.getQcLinkFrom hs (by omega) (by omega)
    exact ⟨l, hget, hnum⟩
  · intro currentBlock claim hp
    obtain ⟨l, hnew, hl, -, -, hi, hj, hmono, hclaim, hadv, -⟩ :=
      hc.next (hc.height_lt (by omega) hp.claim_ge hp.claim_le) hp.current_num hp.claim_ge
        hp.claim_le
    have hfinal : (c.advance l currentBlock claim).lastFinalBlockNum = l.targetBlockNum :=
      advance_lastFinalBlockNum hl
    refine ⟨_, _, _, hnew, hi, hj, hadv, ?_, hfinal, advance_currentBlockNum,
      advance_latestQcClaim, by omega, by omega⟩
    rw [advance_frontLink hl]

/-- The core after some blocks, with their preconditions checked. -/
def nextAll (c : FinalityCore) (steps : List (BlockRef × QcClaim)) : Option FinalityCore :=
  steps.foldlM (fun c step => if NextPre c step.1 step.2 then c.next step.1 step.2 else none) c

theorem CoreRun.nextAll {id : BlockId} {timestamp : BlockTimestamp} {n : ℕ} {c c' : FinalityCore}
    (steps : List (BlockRef × QcClaim)) (hrun : CoreRun id timestamp n c)
    (h : c.nextAll steps = some c') : CoreRun id timestamp (n + steps.length) c' := by
  induction steps generalizing n c with
  | nil =>
    cases h
    exact hrun
  | cons step steps ih =>
    rw [FinalityCore.nextAll, List.foldlM_cons, Option.bind_eq_bind] at h
    obtain ⟨c₁, hstep, hrest⟩ := Option.bind_eq_some_iff.mp h
    split_ifs at hstep with hpre
    rw [List.length_cons, ← Nat.add_assoc, Nat.add_right_comm]
    exact ih (hrun.next hpre hstep) hrest

def branchRef (n : ℕ) : BlockRef := ⟨stampId 5 n, ⟨.ofNat (6 + n)⟩, 0, 1, 0⟩

/-- The core of the sixth block of a branch with a weak claim and one that is made twice. -/
def branchCore : FinalityCore :=
  ⟨[⟨5, 4, true⟩, ⟨6, 5, true⟩], [branchRef 4, branchRef 5], .zero⟩

theorem branchCore_run : CoreRun (stampId 5 1) ⟨7⟩ 5 branchCore :=
  .nextAll [(branchRef 1, ⟨1, true⟩), (branchRef 2, ⟨2, false⟩), (branchRef 3, ⟨2, false⟩),
    (branchRef 4, ⟨4, true⟩), (branchRef 5, ⟨5, true⟩)] .genesis (by decide +kernel)

theorem branchCore_invariants : CoreRun (stampId 5 1) ⟨7⟩ 5 branchCore ∧ branchCore.Invariants ∧
    (∀ m, 4 ≤ m → m < 6 → ∃ r, branchCore.getBlockReference m = some r ∧ r.blockNum = m) ∧
    (∀ m, 5 ≤ m → m ≤ 6 → ∃ l, branchCore.getQcLinkFrom m = some l ∧ l.sourceBlockNum = m) ∧
    branchCore.lastFinalBlockNum ≤ branchCore.latestQcClaim.blockNum ∧
    ∃ newLastFinal newFrontSource c',
      branchCore.getNewBlockNumbers ⟨6, true⟩ = some (newLastFinal, newFrontSource) ∧
      wrapSub (2 ^ 32) newFrontSource 5 < 2 ∧ wrapSub (2 ^ 32) newLastFinal 4 ≤ 2 ∧
      branchCore.next (branchRef 6) ⟨6, true⟩ = some c' ∧
      c'.frontLink.sourceBlockNum = newFrontSource ∧ c'.lastFinalBlockNum = newLastFinal ∧
      c'.currentBlockNum = 7 ∧ c'.latestQcClaim = ⟨6, true⟩ ∧ 4 ≤ c'.lastFinalBlockNum ∧
      c'.lastFinalBlockNum ≤ 6 := by
  obtain ⟨hinv, hrefs, hlinks, hfinal, hnext⟩ :=
    coreRun_invariants branchCore_run (.inl (by decide +kernel))
  exact ⟨branchCore_run, hinv, hrefs, hlinks, hfinal,
    hnext (branchRef 6) ⟨6, true⟩ (by decide +kernel)⟩

/-- A branch above the genesis block with number zero whose blocks all claim it weakly:
nothing becomes final and no link is dropped. -/
theorem exists_weakRun (n : ℕ) (hn : n ≤ 2 ^ 32) :
    ∃ c, CoreRun 0 .zero n c ∧ CoreShape n c ∧ c.lastFinalBlockNum = 0 ∧
      c.latestQcClaim = ⟨0, false⟩ ∧
      ∀ r, c.refs.getLast? = some r → r.timestamp.slot.toNat + 1 = n := by
  induction n with
  | zero => exact ⟨_, .genesis, genesis_coreShape 0 .zero, rfl, rfl, fun r hr => by cases hr⟩
  | succ n ih =>
    obtain ⟨c, hrun, hc, hfinal, hclaim, hlast⟩ := ih (by omega)
    have hlt : n < 2 ^ 32 := hn
    have hcur := hc.current_eq
    rw [Nat.mod_eq_of_lt hlt] at hcur
    have hnum : (⟨stampId 0 n, ⟨.ofNat n⟩, 0, 0, 0⟩ : BlockRef).blockNum = n :=
      numFromId_stampId 0 hlt
    have hslot : (UInt32.ofNat n).toNat = n := UInt32.toNat_ofNat_of_lt' hlt
    have hp : NextPre c ⟨stampId 0 n, ⟨.ofNat n⟩, 0, 0, 0⟩ ⟨0, false⟩ := by
      refine ⟨hnum.trans hcur.symm, ?_, by rw [hclaim]; exact QcClaim.le_refl _, Nat.zero_le _⟩
      intro r hr
      refine ⟨by rw [hc.refs_last hr, hnum, hcur], ?_⟩
      have hr' := hlast r hr
      rw [BlockTimestamp.lt_iff, hslot]
      omega
    obtain ⟨l, -, hl, -, hweak, -, -, -, -, hadv, hshape⟩ :=
      hc.next hlt hp.current_num hp.claim_ge hp.claim_le
    refine ⟨_, hrun.next hp hadv, hshape, ?_, advance_latestQcClaim, ?_⟩
    · rw [advance_lastFinalBlockNum hl, hweak rfl]
      exact hfinal
    · intro r hr
      simp only [advance, getLast?_concat, Option.some.injEq] at hr
      rw [← hr, hslot]

/-- Above genesis number zero the wrapped height breaks the eighth invariant, and above
the largest genesis number the current number does not grow by one. -/
theorem coreRun_wraps :
    (∃ c, CoreRun 0 .zero (2 ^ 32) c ∧ ¬ c.Invariants) ∧
    (∃ c c' currentBlock claim, CoreRun (stampId 0 (2 ^ 32 - 1)) .zero 0 c ∧
      NextPre c currentBlock claim ∧ c.next currentBlock claim = some c' ∧
      c'.currentBlockNum ≠ c.currentBlockNum + 1) := by
  constructor
  · obtain ⟨c, hrun, hc, hfinal, -, -⟩ := exists_weakRun (2 ^ 32) le_rfl
    refine ⟨c, hrun, fun hi => ?_⟩
    have hsize := hi.refs_size
    have hrlen := hc.refs_length
    rw [hc.current_eq, Nat.mod_self, hfinal, wrapSub_of_le le_rfl (by omega)] at hsize
    omega
  · refine ⟨_, ⟨[⟨2 ^ 32 - 1, 2 ^ 32 - 1, false⟩, ⟨0, 2 ^ 32 - 1, false⟩],
      [⟨stampId 0 (2 ^ 32 - 1), .zero, 0, 0, 0⟩], .zero⟩,
      ⟨stampId 0 (2 ^ 32 - 1), .zero, 0, 0, 0⟩, ⟨2 ^ 32 - 1, false⟩, .genesis,
      ⟨by decide +kernel, by simp [createCoreForGenesisBlock], by decide +kernel,
        by decide +kernel⟩, by decide +kernel, by decide +kernel⟩

end FinalityCore
end FlonCore
