import FlonCore.LegacyChain
import Mathlib.Order.Interval.Set.Basic

/-!
# Confirming a block twice

A legacy block confirms itself and a number of blocks below it, and `next` refuses a
block that reaches down to the last block of its producer. The check knows that block
through a map that is rebuilt for each new schedule; what the map keeps suffices. It
compares unsigned numbers, however, and a block that claims to confirm more blocks than
there are wraps around to a number above all of them.
-/

namespace FlonCore
open Library List
variable {β : Type}

namespace BlockHeaderStateLegacy
variable {env : LegacyEnv β} {b s s' : BlockHeaderStateLegacy β}
  {blocks : List (BlockHeaderStateLegacy β)}

def confirmedRange (b : BlockHeaderStateLegacy β) : Set ℤ :=
  Set.Icc (b.blockNum - b.header.confirmed.toNat : ℤ) b.blockNum

/-- What a state knows of a block below it: its number bounds the entry of its producer. A
producer without an entry is not scheduled, and the schedule that brings it back was
proposed after the block. -/
structure Remembers (s b : BlockHeaderStateLegacy β) : Prop where
  blockNum_le : b.blockNum ≤ s.blockNum
  entry : ∀ e, find s.producerToLastProduced b.header.producer = some e → b.blockNum ≤ e
  absent : find s.producerToLastProduced b.header.producer = none →
    b.header.producer ∉ s.activeSchedule.producers.map ProducerAuthority.producerName ∧
      (b.header.producer ∈ s.pendingSchedule.schedule.producers.map
          ProducerAuthority.producerName →
        b.blockNum ≤ s.pendingSchedule.scheduleLibNum)

theorem Follows.find_lastProduced (h : s.Follows s') :
    find s'.producerToLastProduced s'.header.producer = some s'.blockNum := by
  cases hpromotes : s.promotes s'.dposIrreversibleBlocknum with
  | false => rw [(h.keeps hpromotes).lastProduced, find_assign, if_pos rfl]
  | true => rw [(h.switches hpromotes).lastProduced, find_assign, if_pos rfl]

theorem Follows.remembers_self (h : s.Follows s') : s'.Remembers s' := by
  refine ⟨le_rfl, fun e he => ?_, fun hnone => ?_⟩
  · rw [h.find_lastProduced, Option.some.injEq] at he
    exact he.le
  · rw [h.find_lastProduced] at hnone
    cases hnone

section
variable (hb : s.Remembers b)
include hb

theorem Remembers.keeps (h : s.Keeps s') (hne : b.header.producer ≠ s'.header.producer)
    (hle : b.blockNum ≤ s'.blockNum) : s'.Remembers b := by
  have hfind : find s'.producerToLastProduced b.header.producer =
      find s.producerToLastProduced b.header.producer := by
    rw [h.lastProduced, find_assign, if_neg hne]
  refine ⟨hle, fun e he => hb.entry e (hfind ▸ he), fun hnone => ?_⟩
  obtain ⟨hactive, hpending⟩ := hb.absent (hfind ▸ hnone)
  refine ⟨h.activeSchedule ▸ hactive, ?_⟩
  rcases h.pendingSchedule with hsame | hnew
  · rw [hsame]
    exact hpending
  · rw [hnew]
    exact fun _ => hle

theorem Remembers.switches (h : s.Switches s')
    (hirr : s.pendingSchedule.scheduleLibNum ≤ s'.dposIrreversibleBlocknum)
    (hne : b.header.producer ≠ s'.header.producer) (hle : b.blockNum ≤ s'.blockNum) :
    s'.Remembers b := by
  have hfind : find s'.producerToLastProduced b.header.producer =
      if b.header.producer ∈ s.pendingSchedule.schedule.producers.map
          ProducerAuthority.producerName then
        some ((find s.producerToLastProduced b.header.producer).getD s'.dposIrreversibleBlocknum)
      else none := by
    rw [h.lastProduced, find_assign, if_neg hne, find_carryOver, if_neg hne]
  refine ⟨hle, fun e he => ?_, fun hnone => ⟨?_, ?_⟩⟩
  · rw [hfind] at he
    split_ifs at he with hmem
    rw [Option.some.injEq] at he
    subst he
    cases hold : find s.producerToLastProduced b.header.producer with
    | some e => exact hb.entry e hold
    | none => exact ((hb.absent hold).2 hmem).trans hirr
  · rw [h.activeSchedule]
    intro hmem
    rw [hfind, if_pos hmem] at hnone
    cases hnone
  · simp [h.pendingSchedule]

theorem Remembers.step (h : s.Follows s') (hnum : s.blockNum + 1 < 2 ^ 32) : s'.Remembers b := by
  have hle : b.blockNum ≤ s'.blockNum := by
    rw [h.blockNum_succ hnum]
    exact hb.blockNum_le.trans (Nat.le_succ _)
  by_cases hp : b.header.producer = s'.header.producer
  · refine ⟨hle, ?_, ?_⟩
    · rw [hp, h.find_lastProduced]
      simpa using hle
    · rw [hp, h.find_lastProduced]
      simp
  · cases hpromotes : s.promotes s'.dposIrreversibleBlocknum with
    | false => exact hb.keeps (h.keeps hpromotes) hp hle
    | true =>
      refine hb.switches (h.switches hpromotes) ?_ hp hle
      simp only [promotes, Bool.and_eq_true, decide_eq_true_eq] at hpromotes
      exact hpromotes.2

/-- A block of a remembered producer stays above the remembered block, unless it claims to
confirm more blocks than there are. -/
theorem Remembers.disjoint_iff (h : s.Follows s') (hnum : s.blockNum + 1 < 2 ^ 32)
    (hp : b.header.producer = s'.header.producer) :
    b.confirmedRange ∩ s'.confirmedRange = ∅ ↔
      s'.header.confirmed.toNat ≤ s'.blockNum := by
  have hnext := h.blockNum_succ hnum
  have hle := hb.blockNum_le
  cases hentry : find s.producerToLastProduced s'.header.producer with
  | none => exact absurd (hp ▸ h.scheduled) (hb.absent (hp ▸ hentry)).1
  | some e =>
    have hlt := h.unconfirmed
    simp only [checkDoubleConfirm, hentry, eosAssert_eq_ok, decide_eq_true_eq] at hlt
    rw [← h.blockNum] at hlt
    have hbe := hb.entry e (hp ▸ hentry)
    rw [Set.eq_empty_iff_forall_notMem]
    constructor
    · intro hempty
      by_contra hwrap
      refine hempty b.blockNum ⟨?_, ?_⟩
      · rw [confirmedRange, Set.mem_Icc]
        omega
      · rw [confirmedRange, Set.mem_Icc]
        omega
    · rintro hconfirmed a ⟨ha, ha'⟩
      rw [wrapSub_of_le hconfirmed (by omega)] at hlt
      rw [confirmedRange, Set.mem_Icc] at ha ha'
      omega

theorem Remembers.run (hrun : (s :: blocks).IsChain (Produces env))
    (hnum : s.blockNum + blocks.length < 2 ^ 32) :
    ∀ c ∈ blocks, b.header.producer = c.header.producer →
      (b.confirmedRange ∩ c.confirmedRange = ∅ ↔ c.header.confirmed.toNat ≤ c.blockNum) := by
  induction blocks generalizing s with
  | nil => simp
  | cons s' blocks ih =>
    obtain ⟨hstep, hrest⟩ := isChain_cons_cons.mp hrun
    rw [length_cons] at hnum
    have hs' := hstep.follows.blockNum_succ (by omega)
    rw [forall_mem_cons]
    exact ⟨hb.disjoint_iff hstep.follows (by omega),
      ih (hb.step hstep.follows (by omega)) hrest (by omega)⟩

end

end BlockHeaderStateLegacy

open BlockHeaderStateLegacy

/-- Two blocks of one producer confirm different blocks exactly if the later one of them does
not claim more blocks than there are below it. -/
theorem confirmed_ranges_disjoint_iff {env : LegacyEnv β} {s : BlockHeaderStateLegacy β}
    {blocks : List (BlockHeaderStateLegacy β)} (hrun : (s :: blocks).IsChain (Produces env))
    (hnum : s.blockNum + blocks.length < 2 ^ 32) :
    blocks.Pairwise (fun a b => a.header.producer = b.header.producer →
        a.confirmedRange ∩ b.confirmedRange = ∅) ↔
      blocks.Pairwise (fun a b => a.header.producer = b.header.producer →
        b.header.confirmed.toNat ≤ b.blockNum) := by
  induction blocks generalizing s with
  | nil => simp
  | cons b blocks ih =>
    obtain ⟨hstep, hrest⟩ := isChain_cons_cons.mp hrun
    rw [length_cons] at hnum
    have hb := hstep.follows.blockNum_succ (by omega)
    have hlater := hstep.follows.remembers_self.run hrest (by omega)
    rw [pairwise_cons, pairwise_cons, ih hrest (by omega)]
    exact and_congr_left fun _ => forall₂_congr fun c hc => forall_congr' fun hp => hlater c hc hp

theorem confirmed_ranges_disjoint_rotation :
    rotationBlocks.tail.Pairwise fun a b => a.header.producer = b.header.producer →
      a.confirmedRange ∩ b.confirmedRange = ∅ := by
  obtain ⟨rest, hrest, hchain⟩ :=
    legacyChain_getD_isChain rotationGenesis rotationPlan (by decide +kernel)
  have htail : rotationBlocks.tail = rest := by rw [rotationBlocks, hrest, tail_cons]
  rw [← htail] at hchain
  exact (confirmed_ranges_disjoint_iff hchain (by decide +kernel)).mpr (by decide +kernel)

/-- Three producers replace the system account, and the first of them claims to confirm a
hundred blocks in the sixth and seventh block of the chain. -/
def overreachPlan : List LegacyPlan :=
  [⟨2, 9, 0, 0, none⟩, ⟨3, 9, 0, 0, some ⟨1, [(1, ""), (2, ""), (3, "")]⟩⟩, ⟨4, 9, 0, 0, none⟩,
    ⟨36, 1, 0, 1, none⟩, ⟨37, 1, 100, 1, none⟩, ⟨38, 1, 100, 1, none⟩]

def overreachBlocks : List (BlockHeaderStateLegacy BlockHeaderExtension) :=
  (legacyChain rotationGenesis overreachPlan).getD []

/-- The blocks five, six and seven of one producer are accepted, all of them confirm block
five, and that alone proposes it as irreversible. -/
theorem overreach_double_confirms :
    overreachBlocks.IsChain (Produces legacyZeroHashEnv) ∧
      (overreachBlocks.tail.drop 3).map (fun b => (b.blockNum, b.header.producer,
        b.header.confirmed, b.dposProposedIrreversibleBlocknum)) =
          [(5, 1, 0, 4), (6, 1, 100, 4), (7, 1, 100, 5)] ∧
      ¬ overreachBlocks.tail.Pairwise fun a b => a.header.producer = b.header.producer →
        a.confirmedRange ∩ b.confirmedRange = ∅ := by
  obtain ⟨rest, hrest, hchain⟩ :=
    legacyChain_getD_isChain rotationGenesis overreachPlan (by decide +kernel)
  have hblocks : (overreachBlocks.tail.drop 3).map (fun b => (b.blockNum, b.header.producer,
      b.header.confirmed, b.dposProposedIrreversibleBlocknum)) =
        [(5, 1, 0, 4), (6, 1, 100, 4), (7, 1, 100, 5)] := by decide +kernel
  refine ⟨by rw [overreachBlocks, hrest]; exact hchain, hblocks, fun hpair => ?_⟩
  -- the ranges are a matter of the numbers listed
  let range (x : ℕ × AccountName × UInt16 × ℕ) : Set ℤ :=
    Set.Icc (x.1 - x.2.2.1.toNat : ℤ) x.1
  have hlast : ((overreachBlocks.tail.drop 3).map fun b => (b.blockNum, b.header.producer,
      b.header.confirmed, b.dposProposedIrreversibleBlocknum)).Pairwise fun x y =>
        x.2.1 = y.2.1 → range x ∩ range y = ∅ := pairwise_map.mpr hpair.drop
  rw [hblocks, pairwise_cons] at hlast
  have hempty := hlast.1 (6, 1, 100, 4) mem_cons_self rfl
  have hfive : (5 : ℤ) ∈ range (5, 1, 0, 4) ∩ range (6, 1, 100, 4) := by simp [range]
  rw [hempty] at hfive
  exact hfive

end FlonCore
