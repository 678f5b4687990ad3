import FlonCore.LegacyChain
import FlonCore.Library.Rank

/-!
# How the irreversible number moves before Savanna

The proposed number is found by counting confirmations down a sliding list, the
irreversible one is an order statistic over the producers of the active schedule.
Along a chain from genesis both stay below the number of the block and the proposed
one never goes back. The irreversible one can go back only in the block after a new
schedule became active, and it does so exactly if too many of the new producers had
entries that lag behind.
-/

namespace FlonCore
open Library List
variable {β : Type}

theorem confirmBlocks_length (n : ℕ) (counts : List UInt8) :
    match (confirmBlocks n counts).2 with
    | none => (confirmBlocks n counts).1.length = counts.length
    | some d => (confirmBlocks n counts).1.length = d ∧ d < counts.length := by
  induction counts generalizing n with
  | nil => cases n <;> simp [confirmBlocks]
  | cons count older ih =>
    cases n with
    | zero => simp [confirmBlocks]
    | succ n =>
      rw [confirmBlocks]
      split_ifs with hzero
      · simp
      · have hrest := ih n
        cases hdistance : (confirmBlocks n older).2 with
        | none =>
          simpa [hdistance] using hrest
        | some d =>
          simpa [hdistance] using hrest

theorem length_growConfirmCount_le (counts : List UInt8) (required : UInt8) :
    (growConfirmCount counts required).length ≤ counts.length + 1 := by
  rw [growConfirmCount]
  split_ifs <;> simp

namespace BlockHeaderStateLegacy
variable {env : LegacyEnv β} {r s s' : BlockHeaderStateLegacy β}
  {blocks : List (BlockHeaderStateLegacy β)}

theorem confirm_bounds (num : UInt16) (hnum : s.blockNum + 1 < 2 ^ 32)
    (hcounts : s.dposProposedIrreversibleBlocknum + s.confirmCount.length ≤ s.blockNum) :
    s.dposProposedIrreversibleBlocknum ≤ (s.confirm num).2 ∧
      (s.confirm num).2 + (s.confirm num).1.length ≤ s.blockNum + 1 := by
  have hgrow := length_growConfirmCount_le s.confirmCount
    (UInt8.ofNat (s.activeSchedule.producers.length * 2 / 3 + 1))
  have hlength := confirmBlocks_length (num.toNat + 1) (growConfirmCount s.confirmCount
    (UInt8.ofNat (s.activeSchedule.producers.length * 2 / 3 + 1))).reverse
  rw [confirm, u32_of_lt hnum]
  dsimp only
  rw [length_reverse] at hlength ⊢
  cases hdistance : (confirmBlocks (num.toNat + 1) (growConfirmCount s.confirmCount
    (UInt8.ofNat (s.activeSchedule.producers.length * 2 / 3 + 1))).reverse).2 with
  | none =>
    rw [hdistance] at hlength
    dsimp only at hlength ⊢
    omega
  | some d =>
    rw [hdistance] at hlength
    obtain ⟨hrest, hd⟩ := hlength
    dsimp only
    rw [wrapSub_of_le (by omega) hnum]
    omega

def behind (s : BlockHeaderStateLegacy β) (producer : AccountName) (v : ℕ) : ℕ :=
  s.producerToLastImpliedIrb.countP fun i => decide (i.1 ≠ producer ∧ i.2 < v)

structure Tracked (s : BlockHeaderStateLegacy β) : Prop where
  counts : s.dposProposedIrreversibleBlocknum + s.confirmCount.length ≤ s.blockNum
  implied : ∀ i ∈ s.producerToLastImpliedIrb, i.2 ≤ s.dposProposedIrreversibleBlocknum
  nodup : (keysOf s.producerToLastImpliedIrb).Nodup
  irreversible : s.dposIrreversibleBlocknum ≤ s.dposProposedIrreversibleBlocknum
  empty : s.producerToLastImpliedIrb = [] → s.dposIrreversibleBlocknum = 0

theorem tracked_of_genesis (hs : IsLegacyGenesis env s) : s.Tracked := by
  obtain ⟨systemAccountName, initialKey, initialTimestamp, chainId, rfl⟩ := hs
  exact ⟨Nat.zero_le _, by simp [initializeBlockchainState],
    by simp [initializeBlockchainState, keysOf], le_rfl, fun _ => rfl⟩

def impliedNums (s : BlockHeaderStateLegacy β) (producer : AccountName) : List ℕ :=
  s.producerToLastImpliedIrb.map fun i =>
    if i.1 = producer then s.dposProposedIrreversibleBlocknum else i.2

theorem calcDposLastIrreversible_eq (s : BlockHeaderStateLegacy β) (producer : AccountName) :
    s.calcDposLastIrreversible producer = if s.impliedNums producer = [] then 0
      else orderStatistic (s.impliedNums producer)
        (((s.impliedNums producer).length - 1) / 3) 0 := rfl

theorem countP_impliedNums {v : ℕ} (hv : v ≤ s.dposProposedIrreversibleBlocknum)
    (producer : AccountName) : (s.impliedNums producer).countP (· < v) = s.behind producer v := by
  rw [impliedNums, countP_map, behind]
  refine countP_congr fun i _ => ?_
  by_cases hi : i.1 = producer
  · simp [hi, hv]
  · simp [hi]

theorem Tracked.calcDposLastIrreversible_le (hs : s.Tracked) (producer : AccountName) :
    s.calcDposLastIrreversible producer ≤ s.dposProposedIrreversibleBlocknum := by
  rw [calcDposLastIrreversible_eq]
  split_ifs with hempty
  · exact Nat.zero_le _
  · have hpos := length_pos_of_ne_nil hempty
    have hmem : orderStatistic (s.impliedNums producer)
        (((s.impliedNums producer).length - 1) / 3) 0 ∈ s.impliedNums producer :=
      orderStatistic_mem (by omega) 0
    obtain ⟨i, hi, heq⟩ := mem_map.mp hmem
    rw [← heq]
    split_ifs
    · exact le_rfl
    · exact hs.implied i hi

theorem le_calcDposLastIrreversible_iff (producer : AccountName) {v : ℕ}
    (hv : v ≤ s.dposProposedIrreversibleBlocknum) (hne : s.producerToLastImpliedIrb ≠ []) :
    v ≤ s.calcDposLastIrreversible producer ↔
      s.behind producer v ≤ (s.producerToLastImpliedIrb.length - 1) / 3 := by
  have hlength : (s.impliedNums producer).length = s.producerToLastImpliedIrb.length :=
    length_map _
  have hpos := length_pos_of_ne_nil hne
  have hnums : s.impliedNums producer ≠ [] := ne_nil_of_length_pos (by omega)
  rw [calcDposLastIrreversible_eq, if_neg hnums, le_orderStatistic_iff (by omega),
    countP_impliedNums hv, hlength]

theorem Keeps.behind_le (h : s.Keeps s') {v : ℕ} (hv : v ≤ s.dposProposedIrreversibleBlocknum)
    (producer : AccountName) : s'.behind producer v ≤ s.behind s'.header.producer v := by
  have hown : ([(s'.header.producer, s.dposProposedIrreversibleBlocknum)] :
      List (AccountName × ℕ)).countP (fun i => decide (i.1 ≠ producer ∧ i.2 < v)) = 0 := by
    simp [hv]
  rw [behind, h.lastImpliedIrb, assign, countP_append, hown, Nat.add_zero, eraseKey,
    countP_filter, behind]
  refine countP_mono_left fun i _ hi => ?_
  simp only [Bool.and_eq_true, decide_eq_true_eq] at hi ⊢
  exact ⟨hi.2, hi.1.2⟩

section
variable (h : s.Follows s')
include h

theorem Follows.lastImpliedIrb_ne_nil : s'.producerToLastImpliedIrb ≠ [] := by
  cases hpromotes : s.promotes s'.dposIrreversibleBlocknum with
  | false =>
    rw [(h.keeps hpromotes).lastImpliedIrb, assign]
    simp
  | true =>
    -- a schedule is promoted only if it has a producer
    rw [promotes, Bool.and_eq_true] at hpromotes
    obtain ⟨p, hp⟩ : ∃ p, p ∈ s.pendingSchedule.schedule.producers :=
      exists_mem_of_ne_nil _ (by simpa using hpromotes.1)
    have hkey : p.producerName ∈ keysOf s'.producerToLastImpliedIrb := by
      rw [(h.switches (by simp [promotes, hpromotes])).lastImpliedIrb]
      exact mem_keysOf_foldl_assign (.inl (mem_map_of_mem hp))
    intro hnil
    rw [hnil] at hkey
    cases hkey

variable (hs : s.Tracked)
include hs

theorem Follows.lastImpliedIrb_le :
    ∀ i ∈ s'.producerToLastImpliedIrb, i.2 ≤ s.dposProposedIrreversibleBlocknum := by
  intro i hi
  cases hpromotes : s.promotes s'.dposIrreversibleBlocknum with
  | false =>
    rw [(h.keeps hpromotes).lastImpliedIrb, mem_assign] at hi
    rcases hi with ⟨hi, -⟩ | rfl
    · exact hs.implied i hi
    · exact le_rfl
  | true =>
    rw [(h.switches hpromotes).lastImpliedIrb] at hi
    rcases mem_of_mem_foldl_assign hi with ⟨p, -, rfl⟩ | hi
    · dsimp only
      split_ifs
      · exact le_rfl
      · cases hfind : find s.producerToLastImpliedIrb p.producerName with
        | some e => exact hs.implied _ (mem_of_find_eq_some hfind)
        | none =>
          rw [h.irreversible]
          exact hs.calcDposLastIrreversible_le _
    · cases hi

theorem Follows.nodup_lastImpliedIrb : (keysOf s'.producerToLastImpliedIrb).Nodup := by
  cases hpromotes : s.promotes s'.dposIrreversibleBlocknum with
  | false =>
    rw [(h.keeps hpromotes).lastImpliedIrb]
    exact nodup_assign hs.nodup _ _
  | true =>
    rw [(h.switches hpromotes).lastImpliedIrb]
    exact nodup_foldl_assign _ nodup_nil

theorem Tracked.irreversible_le_iff :
    s.dposIrreversibleBlocknum ≤ s'.dposIrreversibleBlocknum ↔
      s.behind s'.header.producer s.dposIrreversibleBlocknum ≤
        (s.producerToLastImpliedIrb.length - 1) / 3 := by
  rw [h.irreversible]
  by_cases hnil : s.producerToLastImpliedIrb = []
  · rw [hs.empty hnil]
    simp [behind, hnil]
  · exact le_calcDposLastIrreversible_iff _ hs.irreversible hnil

variable (hnum : s.blockNum + 1 < 2 ^ 32)
include hnum

theorem Follows.confirm_bounds :
    s.dposProposedIrreversibleBlocknum ≤ s'.dposProposedIrreversibleBlocknum ∧
      s'.dposProposedIrreversibleBlocknum + s'.confirmCount.length ≤ s'.blockNum := by
  have hbounds := s.confirm_bounds s'.header.confirmed hnum hs.counts
  rw [h.confirm] at hbounds
  rw [h.blockNum_succ hnum]
  exact hbounds

theorem Tracked.step : s'.Tracked := by
  obtain ⟨hproposed, hcounts⟩ := h.confirm_bounds hs hnum
  refine ⟨hcounts, fun i hi => ?_, h.nodup_lastImpliedIrb hs, ?_, fun hnil => ?_⟩
  · exact (h.lastImpliedIrb_le hs i hi).trans hproposed
  · rw [h.irreversible]
    exact (hs.calcDposLastIrreversible_le _).trans hproposed
  · exact absurd hnil h.lastImpliedIrb_ne_nil

end

theorem Tracked.irreversible_le_of_keeps (hr : r.Tracked) (hrs : r.Follows s) (hs : s.Tracked)
    (h : s.Follows s') (hkeeps : r.promotes s.dposIrreversibleBlocknum = false) :
    s.dposIrreversibleBlocknum ≤ s'.dposIrreversibleBlocknum := by
  have hbound := hr.calcDposLastIrreversible_le s.header.producer
  rw [← hrs.irreversible] at hbound
  rw [hs.irreversible_le_iff h]
  by_cases hnil : r.producerToLastImpliedIrb = []
  · have hzero : s.dposIrreversibleBlocknum = 0 := by
      rw [hrs.irreversible, calcDposLastIrreversible_eq, if_pos (by simp [impliedNums, hnil])]
    simp [behind, hzero]
  · have hfew : r.behind s.header.producer s.dposIrreversibleBlocknum ≤
        (r.producerToLastImpliedIrb.length - 1) / 3 := by
      rw [← le_calcDposLastIrreversible_iff _ hbound hnil, ← hrs.irreversible]
    have hmore := (hrs.keeps hkeeps).behind_le hbound s'.header.producer
    have hlength : r.producerToLastImpliedIrb.length ≤ s.producerToLastImpliedIrb.length := by
      rw [(hrs.keeps hkeeps).lastImpliedIrb]
      exact length_le_length_assign hr.nodup _ _
    omega

/-- The producers of the pending schedule, each once. -/
def newProducers (r : BlockHeaderStateLegacy β) : List AccountName :=
  (r.pendingSchedule.schedule.producers.map ProducerAuthority.producerName).dedup

/-- How many producers of the pending schedule would enter it with an entry they already have
below the number that a block of `producer` makes irreversible. The producer of that block and
that of the `next` one do not count, for they bring the proposed number. -/
def lagging (r : BlockHeaderStateLegacy β) (producer next : AccountName) : ℕ :=
  r.newProducers.countP fun p => decide (p ≠ producer ∧ p ≠ next) &&
    (find r.producerToLastImpliedIrb p).any fun e =>
      decide (e < r.calcDposLastIrreversible producer)

section
variable (h : r.Switches s)
include h

theorem Switches.lastImpliedIrb_perm : s.producerToLastImpliedIrb ~ r.newProducers.map fun p =>
    (p, if p = s.header.producer then r.dposProposedIrreversibleBlocknum
      else (find r.producerToLastImpliedIrb p).getD s.dposIrreversibleBlocknum) := by
  rw [h.lastImpliedIrb]
  exact foldl_assign_perm (fun p => if p = s.header.producer
    then r.dposProposedIrreversibleBlocknum
    else (find r.producerToLastImpliedIrb p).getD s.dposIrreversibleBlocknum) _

theorem Switches.length_lastImpliedIrb :
    s.producerToLastImpliedIrb.length = r.newProducers.length := by
  rw [h.lastImpliedIrb_perm.length_eq, length_map]

theorem Switches.behind_eq_lagging (hr : r.Tracked)
    (hirr : s.dposIrreversibleBlocknum = r.calcDposLastIrreversible s.header.producer)
    (next : AccountName) :
    s.behind next s.dposIrreversibleBlocknum = r.lagging s.header.producer next := by
  have hle := hr.calcDposLastIrreversible_le s.header.producer
  rw [behind, h.lastImpliedIrb_perm.countP_eq, countP_map, lagging]
  refine countP_congr fun p _ => ?_
  by_cases hp : p = s.header.producer
  · simp [hp, hirr, hle]
  · cases hfind : find r.producerToLastImpliedIrb p with
    | none => simp [hp, hfind]
    | some e => simp [hp, hfind, hirr]

end

theorem Tracked.irreversible_le_iff_of_switches (hr : r.Tracked) (hrs : r.Follows s)
    (hs : s.Tracked) (h : s.Follows s') (hpromotes : r.promotes s.dposIrreversibleBlocknum = true) :
    s.dposIrreversibleBlocknum ≤ s'.dposIrreversibleBlocknum ↔
      r.lagging s.header.producer s'.header.producer ≤ (r.newProducers.length - 1) / 3 := by
  have hswitches := hrs.switches hpromotes
  rw [hs.irreversible_le_iff h, hswitches.behind_eq_lagging hr hrs.irreversible,
    hswitches.length_lastImpliedIrb]

theorem pairwise_le_of_isChain {f : BlockHeaderStateLegacy β → ℕ}
    (h : blocks.IsChain fun a b => f a ≤ f b) : blocks.Pairwise fun a b => f a ≤ f b :=
  pairwise_map.mp (isChain_iff_pairwise.mp ((isChain_map f).mpr h))

theorem Tracked.run (hs : s.Tracked) (hrun : (s :: blocks).IsChain (Produces env))
    (hnum : s.blockNum + blocks.length < 2 ^ 32) : (s :: blocks).IsChain (fun a b =>
        a.dposProposedIrreversibleBlocknum ≤ b.dposProposedIrreversibleBlocknum) ∧
      ∀ a ∈ s :: blocks, a.Tracked := by
  induction blocks generalizing s with
  | nil => exact ⟨.singleton s, by simpa using hs⟩
  | cons s' blocks ih =>
    obtain ⟨hstep, hrest⟩ := isChain_cons_cons.mp hrun
    rw [length_cons] at hnum
    have hs' := hstep.follows.blockNum_succ (by omega)
    obtain ⟨hchain, htracked⟩ := ih (hs.step hstep.follows (by omega)) hrest (by omega)
    refine ⟨hchain.cons_cons (hstep.follows.confirm_bounds hs (by omega)).1, ?_⟩
    rw [forall_mem_cons]
    exact ⟨hs, htracked⟩

/-- After the first step, the irreversible number never goes back exactly if no promotion takes
in too many producers that lag behind. -/
theorem Tracked.run_irreversible_iff (hr : r.Tracked)
    (hrun : (r :: s :: blocks).IsChain (Produces env))
    (hnum : r.blockNum + (s :: blocks).length < 2 ^ 32) :
    (s :: blocks).IsChain (fun a b => a.dposIrreversibleBlocknum ≤ b.dposIrreversibleBlocknum) ↔
      ∀ a b c, [a, b, c] <:+: r :: s :: blocks → a.promotes b.dposIrreversibleBlocknum = true →
        a.lagging b.header.producer c.header.producer ≤ (a.newProducers.length - 1) / 3 := by
  induction blocks generalizing r s with
  | nil =>
    refine iff_of_true (.singleton s) fun a b c hinfix => ?_
    have hlength := hinfix.length_le
    simp at hlength
  | cons s' blocks ih =>
    obtain ⟨hrs, hrest⟩ := isChain_cons_cons.mp hrun
    obtain ⟨hss', -⟩ := isChain_cons_cons.mp hrest
    simp only [length_cons] at hnum ih
    have hsnum := hrs.follows.blockNum_succ (by omega)
    have hs := hr.step hrs.follows (by omega)
    rw [isChain_cons_cons, ih hs hrest (by omega)]
    constructor
    · rintro ⟨hle, hlater⟩ a b c hinfix hpromotes
      rcases infix_cons_iff.mp hinfix with hfirst | hinfix
      · obtain ⟨rfl, hsecond⟩ := cons_prefix_cons.mp hfirst
        obtain ⟨rfl, hthird⟩ := cons_prefix_cons.mp hsecond
        obtain ⟨rfl, -⟩ := cons_prefix_cons.mp hthird
        exact (hr.irreversible_le_iff_of_switches hrs.follows hs hss'.follows hpromotes).mp hle
      · exact hlater a b c hinfix hpromotes
    · intro hall
      refine ⟨?_, fun a b c hinfix => hall a b c (infix_cons_iff.mpr (.inr hinfix))⟩
      cases hpromotes : r.promotes s.dposIrreversibleBlocknum with
      | false => exact hr.irreversible_le_of_keeps hrs.follows hs hss'.follows hpromotes
      | true =>
        rw [hr.irreversible_le_iff_of_switches hrs.follows hs hss'.follows hpromotes]
        exact hall r s s' ⟨[], blocks, rfl⟩ hpromotes

end BlockHeaderStateLegacy

open BlockHeaderStateLegacy

/-- Along a chain from genesis the proposed and the irreversible number never go back and are
in order, exactly if no promotion takes in too many producers with entries that lag behind the
number that becomes irreversible with it. -/
theorem legacy_irreversibility_iff {env : LegacyEnv β} {g : BlockHeaderStateLegacy β}
    {blocks : List (BlockHeaderStateLegacy β)} (hg : IsLegacyGenesis env g)
    (hrun : (g :: blocks).IsChain (Produces env)) (hnum : g.blockNum + blocks.length < 2 ^ 32) :
    ((g :: blocks).Pairwise (fun s s' =>
        s.dposIrreversibleBlocknum ≤ s'.dposIrreversibleBlocknum ∧
          s.dposProposedIrreversibleBlocknum ≤ s'.dposProposedIrreversibleBlocknum) ∧
      ∀ s ∈ g :: blocks, s.dposIrreversibleBlocknum ≤ s.dposProposedIrreversibleBlocknum ∧
        s.dposProposedIrreversibleBlocknum ≤ s.blockNum) ↔
      ∀ r s s', [r, s, s'] <:+: g :: blocks → r.promotes s.dposIrreversibleBlocknum = true →
        r.lagging s.header.producer s'.header.producer ≤ (r.newProducers.length - 1) / 3 := by
  have hgenesis := tracked_of_genesis hg
  obtain ⟨hproposed, htracked⟩ := hgenesis.run hrun hnum
  have hirr : (g :: blocks).IsChain (fun a b =>
      a.dposIrreversibleBlocknum ≤ b.dposIrreversibleBlocknum) ↔ ∀ r s s',
        [r, s, s'] <:+: g :: blocks → r.promotes s.dposIrreversibleBlocknum = true →
          r.lagging s.header.producer s'.header.producer ≤ (r.newProducers.length - 1) / 3 := by
    cases blocks with
    | nil =>
      refine iff_of_true (.singleton g) fun r s s' hinfix => ?_
      have hlength := hinfix.length_le
      simp at hlength
    | cons s blocks =>
      rw [← hgenesis.run_irreversible_iff hrun hnum, isChain_cons_cons]
      have hzero : g.dposIrreversibleBlocknum = 0 := by
        obtain ⟨systemAccountName, initialKey, initialTimestamp, chainId, rfl⟩ := hg
        rfl
      exact and_iff_right (by rw [hzero]; exact Nat.zero_le _)
  rw [← hirr]
  constructor
  · intro hlaw
    exact hlaw.1.isChain.imp fun _ _ hab => hab.1
  · intro hchain
    refine ⟨?_, fun s hs => ?_⟩
    · exact (pairwise_le_of_isChain hchain).and (pairwise_le_of_isChain hproposed)
    · exact ⟨(htracked s hs).irreversible, (Nat.le_add_right _ _).trans (htracked s hs).counts⟩

theorem rotationGenesis_isLegacyGenesis : IsLegacyGenesis legacyZeroHashEnv rotationGenesis :=
  ⟨9, "", ⟨1⟩, 0, rfl⟩

theorem legacy_irreversibility_before_drop :
    (rotationBlocks.take 10).map (fun s => s.dposIrreversibleBlocknum) =
        [0, 0, 2, 3, 3, 3, 4, 4, 4, 5] ∧
      ∀ r s s', [r, s, s'] <:+: rotationBlocks.take 10 →
        r.promotes s.dposIrreversibleBlocknum = true →
          r.lagging s.header.producer s'.header.producer ≤ (r.newProducers.length - 1) / 3 := by
  obtain ⟨rest, hrest, hchain⟩ :=
    legacyChain_getD_isChain rotationGenesis rotationPlan (by decide +kernel)
  have htake : rotationBlocks.take 10 = rotationGenesis :: rest.take 9 := by
    rw [rotationBlocks, hrest, take_succ_cons]
  have hlength : (rest.take 9).length ≤ 9 := length_take_le _ _
  have hone : rotationGenesis.blockNum = 1 := by decide +kernel
  refine ⟨by decide +kernel, ?_⟩
  rw [htake]
  refine (legacy_irreversibility_iff rotationGenesis_isLegacyGenesis ?_ (by omega)).mp ?_
  · rw [← take_succ_cons]
    exact hchain.take 10
  · rw [← htake]
    decide +kernel

/-- Block ten makes block five irreversible and a schedule active in which one of two
producers is still at block three; block eleven falls back to that. -/
theorem rotation_irreversible_drops :
    IsLegacyGenesis legacyZeroHashEnv rotationGenesis ∧
      rotationBlocks = rotationGenesis :: rotationBlocks.tail ∧
      rotationBlocks.IsChain (Produces legacyZeroHashEnv) ∧
      (rotationBlocks.drop 9).map (fun s => (s.blockNum, s.dposIrreversibleBlocknum)) =
        [(10, 5), (11, 3)] ∧
      ¬ rotationBlocks.Pairwise fun s s' =>
        s.dposIrreversibleBlocknum ≤ s'.dposIrreversibleBlocknum := by
  obtain ⟨rest, hrest, hchain⟩ :=
    legacyChain_getD_isChain rotationGenesis rotationPlan (by decide +kernel)
  have hblocks : rotationBlocks = rotationGenesis :: rest := hrest
  refine ⟨rotationGenesis_isLegacyGenesis, ?_, hblocks ▸ hchain, ?_, ?_⟩
  · rw [hblocks, tail_cons]
  · decide +kernel
  · decide +kernel

end FlonCore
