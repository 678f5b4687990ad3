import FlonCore.FinalityCore

/-!
# Invariants of the finality core

`CoreShape height c` says what the two windows of `c` hold when the branch has
reached the block number `height`, counted without wrapping. Only the newest
link can carry the wrapped number `2 ^ 32`: a claim on an ancestor is never
below the first block number, so a core whose number wrapped to zero admits no
further claim. The nine numbered invariants of the source follow from the
shape, and one call of `next` moves the shape from one height to the following.
-/

namespace FlonCore
open Library List
namespace FinalityCore

structure CoreShape (height : ℕ) (c : FinalityCore) : Prop where
  links_ne : c.links ≠ []
  front_lt : c.frontLink.sourceBlockNum < 2 ^ 32
  height_le : height ≤ 2 ^ 32
  links_length : c.frontLink.sourceBlockNum + c.links.length = height + 1
  links_num : Numbered (2 ^ 32) QcLink.sourceBlockNum c.frontLink.sourceBlockNum c.links
  targets_sorted : c.links.Pairwise fun a b => a.targetBlockNum ≤ b.targetBlockNum
  target_le : ∀ i l, c.links[i]? = some l → l.targetBlockNum ≤ c.frontLink.sourceBlockNum + i
  front_le_claim : c.frontLink.sourceBlockNum ≤ c.latestQcClaim.blockNum
  strong_claim : c.latestQcClaim.isStrongQc = true →
    c.frontLink.sourceBlockNum = c.latestQcClaim.blockNum
  refs_length : c.lastFinalBlockNum + c.refs.length = height
  refs_num : Numbered (2 ^ 32) BlockRef.blockNum c.lastFinalBlockNum c.refs

namespace CoreShape
variable {height : ℕ} {c : FinalityCore}

section
variable (h : CoreShape height c)
include h

theorem links_front : c.links[0]? = some c.frontLink := by
  obtain ⟨l, ls, he⟩ := exists_cons_of_ne_nil h.links_ne
  simp [frontLink, he]

theorem links_back : c.links[c.links.length - 1]? = some c.backLink := by
  rw [← getLast?_eq_getElem?, getLast?_eq_some_getLast h.links_ne]
  simp [backLink, getLast?_eq_some_getLast h.links_ne]

theorem links_length_pos : 0 < c.links.length :=
  length_pos_of_ne_nil h.links_ne

theorem current_eq : c.currentBlockNum = height % 2 ^ 32 := by
  have hb := h.links_num _ _ h.links_back
  have hl := h.links_length
  have hp := h.links_length_pos
  rwa [show c.frontLink.sourceBlockNum + (c.links.length - 1) = height by omega] at hb

theorem front_le_height : c.frontLink.sourceBlockNum ≤ height := by
  have hl := h.links_length
  have hp := h.links_length_pos
  omega

theorem final_le_front : c.lastFinalBlockNum ≤ c.frontLink.sourceBlockNum := by
  simpa [lastFinalBlockNum] using h.target_le 0 _ h.links_front

theorem claim_le_height : c.latestQcClaim.blockNum ≤ height := by
  have hb : c.latestQcClaim.blockNum ≤ _ := h.target_le _ _ h.links_back
  have hl := h.links_length
  have hp := h.links_length_pos
  omega

theorem final_le_claim : c.lastFinalBlockNum ≤ c.latestQcClaim.blockNum :=
  h.final_le_front.trans h.front_le_claim

theorem front_target_le {i : ℕ} {l : QcLink} (hl : c.links[i]? = some l) :
    c.lastFinalBlockNum ≤ l.targetBlockNum := by
  cases i with
  | zero =>
    rw [h.links_front] at hl
    cases hl
    exact le_rfl
  | succ i => exact pairwise_getElem? h.targets_sorted (Nat.succ_pos i) h.links_front hl

theorem le_back_target {i : ℕ} {l : QcLink} (hl : c.links[i]? = some l) :
    l.targetBlockNum ≤ c.latestQcClaim.blockNum := by
  obtain ⟨hi, -⟩ := List.getElem?_eq_some_iff.mp hl
  rcases Nat.lt_or_ge i (c.links.length - 1) with hlt | hge
  · exact pairwise_getElem? h.targets_sorted hlt hl h.links_back
  · have he : i = c.links.length - 1 := by omega
    subst he
    rw [h.links_back] at hl
    cases hl
    exact le_rfl

theorem getBlockReference {n : ℕ} (hf : c.lastFinalBlockNum ≤ n) (hn : n < height) :
    ∃ r, c.getBlockReference n = some r ∧ r.blockNum = n := by
  have hl := h.refs_length
  have hh := h.height_le
  exact h.refs_num.lookup hf (by omega) (by omega)

theorem getBlockReference_none {n : ℕ} (hn : height ≤ n) (hlt : n < 2 ^ 32) :
    c.getBlockReference n = none := by
  have hl := h.refs_length
  exact Numbered.lookup_none (by omega) hlt

theorem getQcLinkFrom {n : ℕ} (hs : c.frontLink.sourceBlockNum ≤ n) (hn : n ≤ height)
    (hlt : n < 2 ^ 32) :
    ∃ l, c.getQcLinkFrom n = some l ∧ l.sourceBlockNum = n ∧
      c.links[n - c.frontLink.sourceBlockNum]? = some l ∧
      c.lastFinalBlockNum ≤ l.targetBlockNum ∧ l.targetBlockNum ≤ n := by
  have hl := h.links_length
  obtain ⟨l, hget, hnum⟩ := h.links_num.lookup hs (by omega) hlt
  have hidx : c.links[n - c.frontLink.sourceBlockNum]? = some l := by
    rwa [wrapSub_of_le hs hlt] at hget
  have ht := h.target_le _ _ hidx
  exact ⟨l, hget, hnum, hidx, h.front_target_le hidx, by omega⟩

/-- What a claim meeting the precondition selects: an existing link, from the front
link on and no further than the claimed block. -/
theorem getNewBlockNumbers {claim : QcClaim} (hge : c.latestQcClaim.blockNum ≤ claim.blockNum)
    (hle : claim.blockNum ≤ height) (hlt : claim.blockNum < 2 ^ 32) :
    ∃ l, c.getNewBlockNumbers claim = some (l.targetBlockNum, l.sourceBlockNum) ∧
      c.links[l.sourceBlockNum - c.frontLink.sourceBlockNum]? = some l ∧
      c.frontLink.sourceBlockNum ≤ l.sourceBlockNum ∧ l.sourceBlockNum ≤ claim.blockNum ∧
      (claim.isStrongQc = true → l.sourceBlockNum = claim.blockNum) ∧
      (claim.isStrongQc = false → l = c.frontLink) := by
  have hs := h.front_le_claim.trans hge
  by_cases hstrong : claim.isStrongQc = true
  · obtain ⟨l, hget, hnum, hidx, -, -⟩ := h.getQcLinkFrom hs hle hlt
    refine ⟨l, ?_, by rwa [hnum], by omega, by omega, fun _ => hnum, ?_⟩
    · simp [FinalityCore.getNewBlockNumbers, hstrong, hget]
    · simp [hstrong]
  · refine ⟨c.frontLink, ?_, ?_, le_rfl, hs, fun hc => absurd hc hstrong, fun _ => rfl⟩
    · simp [FinalityCore.getNewBlockNumbers, hstrong, lastFinalBlockNum]
    · rw [Nat.sub_self]
      exact h.links_front

end

end CoreShape

def advance (c : FinalityCore) (l : QcLink) (currentBlock : BlockRef) (claim : QcClaim) :
    FinalityCore :=
  ⟨c.links.drop (l.sourceBlockNum - c.frontLink.sourceBlockNum) ++
      [⟨u32 (c.currentBlockNum + 1), claim.blockNum, claim.isStrongQc⟩],
    c.refs.drop (l.targetBlockNum - c.lastFinalBlockNum) ++ [currentBlock], .zero⟩

theorem fromOffset_of_le {α : Type*} {l : List α} {k : ℕ} (h : k ≤ l.length) :
    fromOffset l k = some (l.drop k) := if_pos h

variable {height : ℕ} {c : FinalityCore} {l : QcLink} {currentBlock : BlockRef} {claim : QcClaim}

theorem advance_frontLink
    (hl : c.links[l.sourceBlockNum - c.frontLink.sourceBlockNum]? = some l) :
    (c.advance l currentBlock claim).frontLink = l := by
  simp only [frontLink] at hl
  simp [frontLink, advance, head?_append, head?_drop, hl]

theorem advance_backLink :
    (c.advance l currentBlock claim).backLink =
      ⟨u32 (c.currentBlockNum + 1), claim.blockNum, claim.isStrongQc⟩ := by
  simp [backLink, advance]

theorem advance_latestQcClaim : (c.advance l currentBlock claim).latestQcClaim = claim := by
  simp [latestQcClaim, advance_backLink]

theorem advance_currentBlockNum :
    (c.advance l currentBlock claim).currentBlockNum = u32 (c.currentBlockNum + 1) := by
  simp [currentBlockNum, advance_backLink]

theorem advance_lastFinalBlockNum
    (hl : c.links[l.sourceBlockNum - c.frontLink.sourceBlockNum]? = some l) :
    (c.advance l currentBlock claim).lastFinalBlockNum = l.targetBlockNum := by
  rw [lastFinalBlockNum, advance_frontLink hl]

theorem next_eq_advance (currentBlock : BlockRef)
    (hl : c.links[l.sourceBlockNum - c.frontLink.sourceBlockNum]? = some l)
    (hnew : c.getNewBlockNumbers claim = some (l.targetBlockNum, l.sourceBlockNum))
    (hs : c.frontLink.sourceBlockNum ≤ l.sourceBlockNum) (hs32 : l.sourceBlockNum < 2 ^ 32)
    (ht : c.lastFinalBlockNum ≤ l.targetBlockNum) (ht32 : l.targetBlockNum < 2 ^ 32)
    (hr : l.targetBlockNum - c.lastFinalBlockNum ≤ c.refs.length) :
    wrapSub (2 ^ 32) l.sourceBlockNum c.frontLink.sourceBlockNum < c.links.length ∧
      wrapSub (2 ^ 32) l.targetBlockNum c.lastFinalBlockNum ≤ c.refs.length ∧
      c.next currentBlock claim = some (c.advance l currentBlock claim) := by
  have hi : l.sourceBlockNum - c.frontLink.sourceBlockNum < c.links.length :=
    (List.getElem?_eq_some_iff.mp hl).1
  have hws : wrapSub (2 ^ 32) l.sourceBlockNum c.frontLink.sourceBlockNum =
      l.sourceBlockNum - c.frontLink.sourceBlockNum := wrapSub_of_le hs hs32
  have hwf : wrapSub (2 ^ 32) l.targetBlockNum c.lastFinalBlockNum =
      l.targetBlockNum - c.lastFinalBlockNum := wrapSub_of_le ht ht32
  refine ⟨by rwa [hws], by rwa [hwf], ?_⟩
  unfold next
  rw [hnew, Option.bind_eq_bind, Option.bind_some]
  dsimp only
  rw [hws, hwf, fromOffset_of_le hi.le, fromOffset_of_le hr]
  rfl

section
variable (h : CoreShape height c)
  (hl : c.links[l.sourceBlockNum - c.frontLink.sourceBlockNum]? = some l)
include h hl

theorem advance_getBlockReference_of_lt {n : ℕ} (hf : l.targetBlockNum ≤ n) (hn : n < height) :
    (c.advance l currentBlock claim).getBlockReference n = c.getBlockReference n := by
  have hmono := h.front_target_le hl
  have hrlen := h.refs_length
  have hh := h.height_le
  rw [getBlockReference, getBlockReference, advance_lastFinalBlockNum hl,
    wrapSub_of_le hf (by omega), wrapSub_of_le (by omega) (by omega), advance,
    getElem?_append_left (by rw [length_drop]; omega), getElem?_drop]
  congr 1
  omega

theorem advance_getBlockReference_self (hf : l.targetBlockNum ≤ height) (hh : height < 2 ^ 32) :
    (c.advance l currentBlock claim).getBlockReference height = some currentBlock := by
  have hmono := h.front_target_le hl
  have hrlen := h.refs_length
  rw [getBlockReference, advance_lastFinalBlockNum hl, wrapSub_of_le hf hh, advance,
    getElem?_append_right (by rw [length_drop]; omega), length_drop,
    show height - l.targetBlockNum - (c.refs.length - (l.targetBlockNum - c.lastFinalBlockNum)) = 0
      by omega]
  rfl

end

section
variable (h : CoreShape height c) (hh : height < 2 ^ 32)
  (hcur : currentBlock.blockNum = c.currentBlockNum) (hge : c.latestQcClaim.le claim)
include h hh hcur hge

theorem CoreShape.advance (hle : claim.blockNum ≤ height)
    (hl : c.links[l.sourceBlockNum - c.frontLink.sourceBlockNum]? = some l)
    (hs : c.frontLink.sourceBlockNum ≤ l.sourceBlockNum) (hsc : l.sourceBlockNum ≤ claim.blockNum)
    (hstrong : claim.isStrongQc = true → l.sourceBlockNum = claim.blockNum) :
    CoreShape (height + 1) (c.advance l currentBlock claim) := by
  have hfront : (c.advance l currentBlock claim).frontLink = l := advance_frontLink hl
  have hfinal : (c.advance l currentBlock claim).lastFinalBlockNum = l.targetBlockNum :=
    advance_lastFinalBlockNum hl
  have hi : l.sourceBlockNum - c.frontLink.sourceBlockNum < c.links.length :=
    (List.getElem?_eq_some_iff.mp hl).1
  have hcurrent := h.current_eq
  have hlen := h.links_length
  have hrlen := h.refs_length
  have hf := h.front_target_le hl
  have ht := h.target_le _ _ hl
  refine ⟨by simp [FinalityCore.advance], by rw [hfront]; omega, by omega, ?_, ?_, ?_, ?_, ?_,
    ?_, ?_, ?_⟩
  · rw [hfront]
    simp only [FinalityCore.advance, length_append, length_drop, length_singleton]
    omega
  · rw [hfront]
    have hn := h.links_num.drop (l.sourceBlockNum - c.frontLink.sourceBlockNum)
    rw [show c.frontLink.sourceBlockNum + (l.sourceBlockNum - c.frontLink.sourceBlockNum) =
      l.sourceBlockNum by omega] at hn
    refine hn.append_one ?_
    simp only [length_drop, u32, hcurrent]
    congr 1
    omega
  · refine pairwise_append_one (h.targets_sorted.sublist (drop_sublist _ _)) ?_
    intro a ha
    obtain ⟨i, hi'⟩ := getElem?_of_mem (mem_of_mem_drop ha)
    exact (h.le_back_target hi').trans (QcClaim.blockNum_le hge)
  · intro i a ha
    rw [hfront]
    rcases getElem?_drop_append_one ha with ha | ⟨hi', rfl⟩
    · have ha' := h.target_le _ _ ha
      omega
    · dsimp only
      omega
  · rw [hfront, advance_latestQcClaim]
    exact hsc
  · rw [hfront, advance_latestQcClaim]
    exact hstrong
  · rw [hfinal]
    simp only [FinalityCore.advance, length_append, length_drop, length_singleton]
    omega
  · rw [hfinal]
    have hn := h.refs_num.drop (l.targetBlockNum - c.lastFinalBlockNum)
    rw [show c.lastFinalBlockNum + (l.targetBlockNum - c.lastFinalBlockNum) =
      l.targetBlockNum by omega] at hn
    refine hn.append_one ?_
    rw [hcur, hcurrent, length_drop, Nat.mod_eq_of_lt (by omega)]
    omega

/-- What `next` does on a core of the right shape: it selects the link of a strong
claim (the front link for a weak one) and trims both windows to it. -/
theorem CoreShape.next (hle : claim.blockNum ≤ c.currentBlockNum) :
    ∃ l, c.getNewBlockNumbers claim = some (l.targetBlockNum, l.sourceBlockNum) ∧
      c.links[l.sourceBlockNum - c.frontLink.sourceBlockNum]? = some l ∧
      (claim.isStrongQc = true → l.sourceBlockNum = claim.blockNum) ∧
      (claim.isStrongQc = false → l = c.frontLink) ∧
      wrapSub (2 ^ 32) l.sourceBlockNum c.frontLink.sourceBlockNum < c.links.length ∧
      wrapSub (2 ^ 32) l.targetBlockNum c.lastFinalBlockNum ≤ c.refs.length ∧
      c.lastFinalBlockNum ≤ l.targetBlockNum ∧ l.targetBlockNum ≤ claim.blockNum ∧
      c.next currentBlock claim = some (c.advance l currentBlock claim) ∧
      CoreShape (height + 1) (c.advance l currentBlock claim) := by
  have hcurrent := h.current_eq
  rw [Nat.mod_eq_of_lt hh] at hcurrent
  rw [hcurrent] at hle
  obtain ⟨l, hnew, hl, hs, hsc, hstrong, hweak⟩ :=
    h.getNewBlockNumbers (QcClaim.blockNum_le hge) hle (by omega)
  have ht := h.target_le _ _ hl
  have hr := h.refs_length
  have hf := h.front_target_le hl
  obtain ⟨hi, hj, hnext⟩ := next_eq_advance currentBlock hl hnew hs (by omega) hf (by omega)
    (by omega)
  exact ⟨l, hnew, hl, hstrong, hweak, hi, hj, hf, by omega, hnext,
    h.advance hh hcur hge hle hl hs hsc hstrong⟩

end

theorem genesis_coreShape (id : BlockId) (timestamp : BlockTimestamp) :
    CoreShape (numFromId id) (createCoreForGenesisBlock id timestamp) := by
  have hlt := numFromId_lt id
  refine ⟨by simp [createCoreForGenesisBlock], by simpa [createCoreForGenesisBlock, frontLink],
    hlt.le, by simp [createCoreForGenesisBlock, frontLink], ?_,
    by simp [createCoreForGenesisBlock], ?_, by simp [createCoreForGenesisBlock, frontLink,
      latestQcClaim, backLink], by simp [createCoreForGenesisBlock, latestQcClaim, backLink],
    by simp [createCoreForGenesisBlock, lastFinalBlockNum, frontLink],
    by simpa [createCoreForGenesisBlock] using Numbered.nil⟩
  · exact Numbered.singleton (Nat.mod_eq_of_lt hlt).symm
  · intro i a ha
    cases i with
    | zero => simp [createCoreForGenesisBlock, frontLink] at ha ⊢; simp [← ha]
    | succ i => simp [createCoreForGenesisBlock] at ha

end FinalityCore
end FlonCore
