import FlonCore.HistoryBranch

/-!
# Runs of the transaction history plugin

The chain starts a block on its head, applies transactions and accepts the block; a
block that is started on an earlier one leaves the branch. Beside the plugin the
branch is kept as the events tell it. While the history is healthy, the database
holds a gap-free account index of exactly that branch.
-/

namespace FlonCore

open HistoryState List
open Library HistoryCodec

/-- The branch as the events tell it: its accepted blocks since the start, and the block
being built with the transactions applied to it. -/
structure ChainView where
  blocks : List HistoryBlock
  applied : List TransactionTrace
  parent : Option ℕ

/-- The runs of a plugin that has started at block `base`. A block is started before its
transactions and its acceptance, and its number is one more than its parent's. -/
inductive HistoryRuns (cfg : HistoryConfig) (base : ℕ) (baseId : String) :
    HistoryState → ChainView → Prop
  | start (hbase : base < 2 ^ 32) :
      HistoryRuns cfg base baseId (.startup base baseId) ⟨[], [], none⟩
  | blockStart {s : HistoryState} {chain : ChainView} (h : HistoryRuns cfg base baseId s chain)
      (p : ℕ) (parentId : String) :
      HistoryRuns cfg base baseId (s.step cfg (.blockStart p parentId))
        ⟨chain.blocks.filter (·.num ≤ p), [], some p⟩
  | applied {s : HistoryState} {chain : ChainView} (h : HistoryRuns cfg base baseId s chain)
      {p : ℕ} (hparent : chain.parent = some p) (t : TransactionTrace)
      (hnum : t.blockNum = p + 1) :
      HistoryRuns cfg base baseId (s.step cfg (.appliedTransaction t))
        { chain with applied := chain.applied ++ [t] }
  | accepted {s : HistoryState} {chain : ChainView} (h : HistoryRuns cfg base baseId s chain)
      {p : ℕ} (hparent : chain.parent = some p) (hnum : p + 1 < 2 ^ 32) (blockId : String)
      (irreversible : ℕ) (lowSpace : ℕ → Bool) :
      HistoryRuns cfg base baseId
        (s.step cfg (.acceptedBlock (p + 1) blockId irreversible lowSpace))
        ⟨chain.blocks ++ [⟨p + 1, chain.applied, s.acceptedWrites (p + 1) blockId⟩], [], none⟩

/-- The database and the branch are in step. `maps` are the states of the database after the
blocks from `base` on; those from the `j`-th on can still be rolled back to. -/
structure InStep (cfg : HistoryConfig) (base : ℕ) (maps : List (HistoryDb HistoryKey HistoryValue))
    (j : ℕ) (s : HistoryState) (chain : ChainView) : Prop where
  length : maps.length = chain.blocks.length + 1
  numbers : ∀ i b, chain.blocks[i]? = some b → b.num = base + i + 1
  window : j ≤ chain.blocks.length
  follows : Follows (historyCodec cfg.sizes) Recoverable (base + j) (maps.drop j) s.db
  good : ∀ i m, maps[i]? = some m → GapFree cfg m (chain.blocks.take i) ∧
    (find m .lastAcceptedBlockId).isSome = true
  points : ∀ p ∈ s.rollbackPoints, base + j ≤ p ∧ p ≤ base + chain.blocks.length
  sorted : s.rollbackPoints.Pairwise (· ≤ ·)
  building : ∃ p, Staged cfg s.db (p + 1) chain.applied s.pending ∧
    ∀ q, chain.parent = some q → q = p ∧ p = base + chain.blocks.length

variable {cfg : HistoryConfig} {base : ℕ} {baseId : String} {s : HistoryState} {chain : ChainView}
  {maps : List (HistoryDb HistoryKey HistoryValue)} {j : ℕ}

theorem inStep_startup (cfg : HistoryConfig) (hbase : base < 2 ^ 32) (baseId : String) :
    InStep cfg base [(startup base baseId).db] 0 (.startup base baseId) ⟨[], [], none⟩ := by
  have hcursor : find (startup base baseId).db
      (historyCodec cfg.sizes).cursorKey = some ((historyCodec cfg.sizes).numText base) := rfl
  have habove : ∀ n, base < n → find (startup base baseId).db
      ((historyCodec cfg.sizes).undoKey n) = none := by
    intro n hn
    rw [find_eq_none]
    simp [startup, keysOf, historyCodec]
    omega
  refine ⟨rfl, by simp, le_rfl, follows_start hbase hcursor habove, ?_, ?_, ?_, ?_⟩
  · intro i m hm
    cases i with
    | zero =>
      obtain rfl : (startup base baseId).db = m := by simpa using hm
      exact ⟨gapFree_startup cfg base baseId, rfl⟩
    | succ i => simp at hm
  · intro p hp
    obtain rfl : p = base := by simpa [startup] using hp
    exact ⟨le_rfl, le_rfl⟩
  · exact pairwise_singleton _ _
  · exact ⟨base, staged_cleared cfg _ _, by simp⟩

@[simp] theorem recordHistoryGap_healthy (s : HistoryState) (n : ℕ) (reason : String) :
    (s.recordHistoryGap n reason).healthy = false := by
  unfold recordHistoryGap
  split_ifs with h
  · rfl
  · simpa using h

variable {p : ℕ}

theorem rollbackToBlock_eq_true {s s' : HistoryState}
    (h : s.rollbackToBlock cfg p = (true, s')) :
    p ∈ s.rollbackPoints ∧ ∃ states,
      (historyCodec cfg.sizes).rollbackWithUndo s.db p = (true, states) ∧
      s' = { s with db := states.headD s.db,
                    rollbackPoints := s.rollbackPoints.filter (· ≤ p) } := by
  unfold rollbackToBlock at h
  by_cases hpoint : p ∈ s.rollbackPoints
  · rw [if_neg (not_not.mpr hpoint)] at h
    split_ifs at h with hundo
    · simp at h
    · cases hrun : (historyCodec cfg.sizes).rollbackWithUndo s.db p with
      | mk ok states =>
        simp only [hrun] at h
        cases ok with
        | false => simp at h
        | true =>
          refine ⟨hpoint, states, rfl, ?_⟩
          simpa using h.symm
  · simp [hpoint] at h

theorem ensureChainParent_healthy {n p : ℕ} {parentId : String} (hs : s.healthy = true)
    (hcursor : find s.db .lastAcceptedBlockNum = some (.number n)) (hn : n < 2 ^ 32)
    (hid : (find s.db .lastAcceptedBlockId).isSome = true)
    (hidle : s.pending.blockNum = 0 → s.pending = .cleared)
    (h : (s.ensureChainParent cfg p parentId).healthy = true) :
    (n = p ∧ s.ensureChainParent cfg p parentId = { s with pending := .cleared }) ∨
    p ≤ n ∧ ∃ s', rollbackToBlock cfg { s with pending := .cleared } p = (true, s') ∧
      s.ensureChainParent cfg p parentId = { s' with pending := .cleared } := by
  obtain ⟨storedId, hstored⟩ := Option.isSome_iff_exists.mp hid
  have hclear : (if s.pending.blockNum ≠ 0 then { s with pending := .cleared } else s) =
      { s with pending := .cleared } := by
    split_ifs with hzero
    · rfl
    · rw [← hidle (not_not.mp hzero)]
  have hresult : s.ensureChainParent cfg p parentId =
      if n = p ∧ storedId.asText = some parentId then { s with pending := .cleared }
      else if n < p then recordHistoryGap { s with pending := .cleared }
        (u32 (n + 1)) "chain advanced beyond the persisted history baseline"
      else rollbackToParent cfg { s with pending := .cleared } p parentId := by
    unfold ensureChainParent
    rw [if_neg (by simp [hs])]
    simp only [hclear, hcursor, hstored, HistoryValue.stoul, u32_of_lt hn]
  rw [hresult] at h ⊢
  by_cases hsame : n = p ∧ storedId.asText = some parentId
  · rw [if_pos hsame]
    exact .inl ⟨hsame.1, rfl⟩
  · rw [if_neg hsame] at h ⊢
    by_cases hlt : n < p
    · simp [hlt] at h
    · rw [if_neg hlt] at h ⊢
      refine .inr ⟨by omega, ?_⟩
      unfold rollbackToParent at h ⊢
      cases hroll : rollbackToBlock cfg { s with pending := .cleared } p with
      | mk ok s' =>
        rw [hroll] at h
        cases ok with
        | false => simp at h
        | true =>
          simp only at h
          split_ifs at h with hrecoverable
          · exact ⟨s', rfl, by simp only [if_pos hrecoverable]⟩
          · simp at h

theorem filter_num_eq_take {blocks : List HistoryBlock}
    (hnumbers : ∀ i b, blocks[i]? = some b → b.num = base + i + 1) (hp : base ≤ p) :
    blocks.filter (·.num ≤ p) = blocks.take (p - base) := by
  induction blocks generalizing base with
  | nil => simp
  | cons b blocks ih =>
    have hb := hnumbers 0 b rfl
    have hrest : ∀ i b', blocks[i]? = some b' → b'.num = base + 1 + i + 1 := by
      intro i b' hb'
      have hnum := hnumbers (i + 1) b' (by simpa using hb')
      omega
    by_cases hle : b.num ≤ p
    · obtain ⟨d, hd⟩ : ∃ d, p - base = d + 1 := ⟨p - base - 1, by omega⟩
      have htake : p - (base + 1) = d := by omega
      rw [filter_cons_of_pos (by simpa using hle), hd, take_succ_cons, ← htake, ih hrest (by omega)]
    · have hzero : p - base = 0 := by omega
      rw [hzero, take_zero, filter_eq_nil_iff]
      intro b' hb'
      obtain ⟨i, hi⟩ := mem_iff_getElem?.mp hb'
      have hnum := hnumbers i b' hi
      simp only [decide_eq_true_eq]
      omega

theorem exists_between_take_drop {l : List ℕ} {low high : ℕ} (hle : low ≤ high)
    (hl : ∀ p ∈ l, low ≤ p ∧ p ≤ high) (hsorted : l.Pairwise (· ≤ ·)) (count : ℕ) :
    ∃ b, low ≤ b ∧ b ≤ high ∧ (∀ p ∈ l.take count, p ≤ b) ∧ ∀ p ∈ l.drop count, b ≤ p := by
  rw [← take_append_drop count l, pairwise_append] at hsorted
  obtain ⟨-, hrest, hcross⟩ := hsorted
  cases hdrop : l.drop count with
  | nil =>
    exact ⟨high, hle, le_rfl, fun p hp => (hl p (mem_of_mem_take hp)).2,
      fun p hp => absurd hp not_mem_nil⟩
  | cons q rest =>
    rw [hdrop] at hrest hcross
    have hq : q ∈ l.drop count := by simp [hdrop]
    obtain ⟨hlow, hhigh⟩ := hl q (mem_of_mem_drop hq)
    refine ⟨q, hlow, hhigh, fun p hp => hcross p hp q mem_cons_self, ?_⟩
    rw [forall_mem_cons]
    exact ⟨le_rfl, fun p hp => rel_of_pairwise_cons hrest hp⟩

theorem find_dropRollbackPoints {count : ℕ} {k : HistoryKey}
    (hk : ∀ p ∈ s.rollbackPoints.take count, k ≠ .undo p) :
    find (s.dropRollbackPoints count).db k = find s.db k := by
  refine find_applyBatch_of_not_mem ?_
  simp only [map_map, mem_map, not_exists, not_and]
  exact fun p hp heq => hk p hp heq.symm

theorem Staged.congr {db db' : HistoryDb HistoryKey HistoryValue} {blockNum : ℕ}
    {applied : List TransactionTrace} {pending : PendingBlock}
    (h : Staged cfg db blockNum applied pending)
    (hsame : ∀ a, find db' (.accountSequence a) = find db (.accountSequence a)) :
    Staged cfg db' blockNum applied pending := by
  have hcounter : accountCounter db' = accountCounter db := by
    funext a
    rw [accountCounter, accountCounter, hsame]
  have hnext : pending.nextOf db' = pending.nextOf db := by
    funext a
    rw [PendingBlock.nextOf, PendingBlock.nextOf, hcounter]
  refine ⟨?_, h.nodup, h.complete, h.idle, h.current⟩
  rw [hcounter, hnext]
  exact h.fills

theorem blockBatchWriteWithRetry_eq_some {n : ℕ} {writes : HistoryWrites}
    {db' : HistoryDb HistoryKey HistoryValue} (hnone : find s.db (.undo n) = none)
    (h : s.blockBatchWriteWithRetry cfg n writes = some db') :
    (historyCodec cfg.sizes).batchWriteWithUndo s.db n writes [] cfg.maxWriteBatchBytes =
      some db' := by
  unfold blockBatchWriteWithRetry at h
  cases hbatch : (historyCodec cfg.sizes).batchWriteWithUndo s.db n writes []
      cfg.maxWriteBatchBytes with
  | some db => simpa [hbatch] using h
  | none => simp [hbatch, hasUndoPoint, hnone] at h

theorem createRollbackPoint_eq (s : HistoryState) {n : ℕ} (hpoint : n ∉ s.rollbackPoints)
    (hstored : (find s.db (.undo n)).isSome = true) : s.createRollbackPoint n =
      { s with rollbackPoints := s.rollbackPoints.orderedInsert (· ≤ ·) n } := by
  simp [createRollbackPoint, hpoint, hasUndoPoint, hstored]

section
variable (h : InStep cfg base maps j s chain)
include h

theorem InStep.last :
    ∃ m, maps[chain.blocks.length]? = some m ∧ ∀ k, Recoverable k → find s.db k = find m k := by
  have hlength := h.length
  have hwindow := h.window
  obtain ⟨m, hm⟩ : ∃ m, maps[chain.blocks.length]? = some m :=
    ⟨_, getElem?_eq_getElem (by omega)⟩
  refine ⟨m, hm, h.follows.visible (chain.blocks.length - j) m ?_ ?_⟩
  · rw [length_drop]
    omega
  · rw [getElem?_drop, Nat.add_sub_of_le hwindow, hm]

theorem InStep.gapFree : GapFree cfg s.db chain.blocks := by
  obtain ⟨m, hm, hsame⟩ := h.last
  have hgood := (h.good _ m hm).1
  rw [take_length] at hgood
  exact hgood.congr hsame

theorem InStep.cursor :
    find s.db .lastAcceptedBlockNum = some (.number (base + chain.blocks.length)) := by
  have hcursor := h.follows.cursor (tracking_recoverable cfg.sizes)
  rw [length_drop, h.length] at hcursor
  have hwindow := h.window
  have htop : base + j + (chain.blocks.length + 1 - j - 1) = base + chain.blocks.length := by omega
  rwa [htop] at hcursor

theorem InStep.identified : (find s.db .lastAcceptedBlockId).isSome = true := by
  obtain ⟨m, hm, hsame⟩ := h.last
  rw [hsame .lastAcceptedBlockId trivial]
  exact (h.good _ m hm).2

theorem InStep.top_lt : base + chain.blocks.length < 2 ^ 32 := by
  have hbound := h.follows.bound
  have hlength := h.length
  rw [length_drop] at hbound
  omega

theorem InStep.clear : InStep cfg base maps j { s with pending := .cleared }
      ⟨chain.blocks, [], some (base + chain.blocks.length)⟩ := by
  refine ⟨h.length, h.numbers, h.window, h.follows, h.good, h.points, h.sorted,
    base + chain.blocks.length, staged_cleared cfg _ _, fun q hq => ?_⟩
  exact ⟨(Option.some.inj hq).symm, rfl⟩

theorem InStep.rollback (hp : p ∈ s.rollbackPoints)
    {states : List (HistoryDb HistoryKey HistoryValue)}
    (hrun : (historyCodec cfg.sizes).rollbackWithUndo s.db p = (true, states)) :
    InStep cfg base (maps.take (p - base + 1)) j
      { s with db := states.headD s.db, rollbackPoints := s.rollbackPoints.filter (· ≤ p),
               pending := .cleared }
      ⟨chain.blocks.take (p - base), [], some p⟩ := by
  have hlength := h.length
  obtain ⟨hlower, hupper⟩ := h.points p hp
  have hblocks : (chain.blocks.take (p - base)).length = p - base := by
    rw [length_take]
    omega
  have hindex : p - (base + j) < (maps.drop j).length := by
    rw [length_drop]
    omega
  obtain ⟨final, earlier, hrun', hfinal, -⟩ :=
    h.follows.rollback (tracking_recoverable cfg.sizes) hindex
  rw [Nat.add_sub_of_le hlower, hrun] at hrun'
  obtain rfl : states = final :: earlier := (Prod.mk.injEq _ _ _ _ ▸ hrun').2
  have hfollows := hfinal.follows h.follows hindex
  have hmaps : (maps.drop j).take (p - (base + j) + 1) = (maps.take (p - base + 1)).drop j := by
    rw [drop_take]
    congr 1
    omega
  refine ⟨?_, ?_, ?_, hmaps ▸ hfollows, ?_, ?_, h.sorted.filter _, p,
    staged_cleared cfg _ _, fun q hq => ⟨(Option.some.inj hq).symm, ?_⟩⟩
  · rw [length_take, hblocks]
    omega
  · intro i b hb
    rw [getElem?_take] at hb
    split_ifs at hb
    exact h.numbers i b hb
  · rw [hblocks]
    omega
  · intro i m hm
    rw [getElem?_take] at hm
    split_ifs at hm with hi
    have hinitial : (chain.blocks.take (p - base)).take i = chain.blocks.take i := by
      rw [take_take, min_eq_left (by omega)]
    rw [hinitial]
    exact h.good i m hm
  · intro q hq
    obtain ⟨hq, hle⟩ := mem_filter.mp hq
    have hle : q ≤ p := by simpa using hle
    rw [hblocks]
    exact ⟨(h.points q hq).1, by omega⟩
  · rw [hblocks]
    omega

theorem InStep.num_lt :
    ∀ b ∈ chain.blocks, b.num < base + chain.blocks.length + 1 := by
  intro b hb
  obtain ⟨i, hi⟩ := mem_iff_getElem?.mp hb
  have hlt := (List.getElem?_eq_some_iff.mp hi).1
  rw [h.numbers i b hi]
  omega

theorem InStep.dropPoints (count : ℕ) :
    ∃ j', InStep cfg base maps j' (s.dropRollbackPoints count) chain := by
  have hlength := h.length
  have hwindow := h.window
  -- the first point that stays, or the last block when none does
  obtain ⟨b, hlow, hhigh, hremoved, hkept⟩ :=
    exists_between_take_drop (by omega) h.points h.sorted count
  have hfollows : Follows (historyCodec cfg.sizes) Recoverable (base + j + (b - (base + j)))
      ((maps.drop j).drop (b - (base + j))) (s.dropRollbackPoints count).db := by
    refine h.follows.advance ?_ ?_ ?_
    · rw [length_drop]
      omega
    · intro k hk
      refine find_dropRollbackPoints fun p _ heq => ?_
      rw [heq] at hk
      exact hk
    · intro n hn
      refine find_dropRollbackPoints fun p hp heq => ?_
      have hle := hremoved p hp
      have hnp := HistoryKey.undo.inj heq
      omega
  have hbase : base + j + (b - (base + j)) = base + (b - base) := by omega
  rw [drop_drop, hbase, show j + (b - (base + j)) = b - base by omega] at hfollows
  obtain ⟨p, hp, hbuilding⟩ := h.building
  have hstaged : Staged cfg (s.dropRollbackPoints count).db (p + 1) chain.applied s.pending :=
    hp.congr fun a => find_dropRollbackPoints (by simp)
  refine ⟨b - base, h.length, h.numbers, by omega, hfollows, h.good, ?_, h.sorted.drop, p, hstaged,
    hbuilding⟩
  intro q hq
  have hle := hkept q hq
  exact ⟨by omega, (h.points q (mem_of_mem_drop hq)).2⟩

theorem InStep.commit (hparent : chain.parent = some p) (hnum : p + 1 < 2 ^ 32)
    {blockId : String} {db' : HistoryDb HistoryKey HistoryValue}
    (hwrite : s.blockBatchWriteWithRetry cfg (p + 1) (s.acceptedWrites (p + 1) blockId) =
      some db') :
    InStep cfg base (maps ++ [db']) j
      (createRollbackPoint { s with db := db', pending := .cleared } (p + 1))
      ⟨chain.blocks ++ [⟨p + 1, chain.applied, s.acceptedWrites (p + 1) blockId⟩], [], none⟩ := by
  obtain ⟨p', hstaged, hbuilding⟩ := h.building
  obtain ⟨rfl, rfl⟩ := hbuilding p hparent
  have hlength := h.length
  have hwindow := h.window
  have hpublic := hstaged.fills.isPublic
  have hdrop : (maps.drop j).length = maps.length - j := length_drop
  have htop : base + j + (maps.drop j).length = base + chain.blocks.length + 1 := by omega
  set n := base + chain.blocks.length + 1 with hn
  -- no record is there yet, so that the batch itself went through
  have hnone : find s.db (.undo n) = none :=
    h.follows.above _ (by omega)
  have hcommitted : Committed (historyCodec cfg.sizes) Recoverable s.db
      n (s.acceptedWrites n blockId) [] db' :=
    acceptedWrites_committed (blockBatchWriteWithRetry_eq_some hnone hwrite)
  have hcursor : (.lastAcceptedBlockNum, .number n) ∈ s.acceptedWrites n blockId := by
    simp [mem_acceptedWrites]
  have hid : (.lastAcceptedBlockId, .text blockId) ∈ s.acceptedWrites n blockId := by
    simp [mem_acceptedWrites]
  have hfollows : Follows (historyCodec cfg.sizes) Recoverable (base + j) (maps.drop j ++ [db'])
      db' := by
    rw [← htop] at hcommitted hcursor hnum
    exact h.follows.commit hcommitted hcursor (undo_not_mem_acceptedWrites hpublic) hnum
      (tracking_recoverable cfg.sizes)
  have hgood := h.gapFree.commit hstaged hcommitted h.num_lt
  have hpoint : n ∉ s.rollbackPoints := by
    intro hmem
    have hle := (h.points _ hmem).2
    omega
  have hstored : (find db' (.undo n)).isSome = true := by
    obtain ⟨u, ⟨⟨v, hv, -⟩, -⟩, -⟩ := hcommitted.record
    exact Option.isSome_iff_exists.mpr ⟨v, hv⟩
  rw [createRollbackPoint_eq { s with db := db', pending := .cleared } hpoint hstored]
  refine ⟨by simp [hlength], ?_, by simp; omega, ?_, ?_, ?_, ?_, 0, staged_cleared cfg _ _, by simp⟩
  · intro i b hb
    rcases getElem?_concat_eq_some hb with hb | ⟨rfl, rfl⟩
    · exact h.numbers i b hb
    · rfl
  · rwa [drop_append_of_le_length (by omega)]
  · intro i m hm
    rcases getElem?_concat_eq_some hm with hm | ⟨rfl, rfl⟩
    · have hlt := (List.getElem?_eq_some_iff.mp hm).1
      rw [take_append_of_le_length (by omega)]
      exact h.good i m hm
    · rw [hlength, take_of_length_le (by simp)]
      exact ⟨hgood, by rw [hcommitted.written _ hid]; rfl⟩
  · intro q hq
    rw [length_append, length_singleton]
    rcases (mem_orderedInsert _).mp hq with rfl | hq
    · exact ⟨by omega, le_rfl⟩
    · obtain ⟨hlow, hhigh⟩ := h.points q hq
      exact ⟨hlow, by omega⟩
  · exact h.sorted.orderedInsert _ _

variable (hs : s.healthy = true)
include hs

theorem InStep.blockStart {parentId : String}
    (hend : (s.step cfg (.blockStart p parentId)).healthy = true) :
    ∃ maps', InStep cfg base maps' j (s.step cfg (.blockStart p parentId))
      ⟨chain.blocks.filter (·.num ≤ p), [], some p⟩ := by
  obtain ⟨_, hstaged, -⟩ := h.building
  rcases ensureChainParent_healthy hs h.cursor h.top_lt h.identified hstaged.idle hend with
    ⟨rfl, hresult⟩ | ⟨-, s', hroll, hresult⟩
  · refine ⟨maps, ?_⟩
    have hall : chain.blocks.filter (·.num ≤ base + chain.blocks.length) = chain.blocks := by
      rw [filter_num_eq_take h.numbers (Nat.le_add_right _ _), Nat.add_sub_cancel_left, take_length]
    rw [step, hresult, hall]
    exact h.clear
  · obtain ⟨hpoint, states, hrun, rfl⟩ := rollbackToBlock_eq_true hroll
    have hp : base ≤ p := le_trans (Nat.le_add_right _ _) (h.points p hpoint).1
    rw [step, hresult, filter_num_eq_take h.numbers hp]
    exact ⟨_, h.rollback hpoint hrun⟩

variable (hparent : chain.parent = some p)
include hparent

theorem InStep.applied {t : TransactionTrace} (hnum : t.blockNum = p + 1)
    (hend : (s.step cfg (.appliedTransaction t)).healthy = true) :
    InStep cfg base maps j (s.step cfg (.appliedTransaction t))
      { chain with applied := chain.applied ++ [t] } := by
  obtain ⟨p', hstaged, hbuilding⟩ := h.building
  obtain ⟨rfl, htop⟩ := hbuilding p hparent
  -- it is enough to say what is staged: all other parts are unchanged
  suffices hresult : ∃ pending',
      s.step cfg (.appliedTransaction t) = { s with pending := pending' } ∧
      Staged cfg s.db (p + 1) (chain.applied ++ [t]) pending' by
    obtain ⟨pending', hstep, hstaged'⟩ := hresult
    rw [hstep]
    exact ⟨h.length, h.numbers, h.window, h.follows, h.good, h.points, h.sorted, p, hstaged',
      hbuilding⟩
  have hskip : ¬ t.Stored → Staged cfg s.db (p + 1) (chain.applied ++ [t]) s.pending := by
    intro hnot
    refine ⟨hstaged.fills, hstaged.nodup, fun hgap t' ht' hstored => ?_, hstaged.idle,
      hstaged.current⟩
    rcases mem_append.mp ht' with ht' | ht'
    · exact hstaged.complete hgap t' ht' hstored
    · exact absurd (mem_singleton.mp ht' ▸ hstored) hnot
  rw [step] at hend ⊢
  unfold appliedTransaction at hend ⊢
  cases hstatus : t.status with
  | none => exact ⟨s.pending, rfl, hskip (by simp [TransactionTrace.Stored, hstatus])⟩
  | some status =>
    simp only [hstatus, hs, Bool.not_true, Bool.false_eq_true, if_false] at hend ⊢
    by_cases hkind : status ≠ .executed ∧ status ≠ .softFail
    · rw [if_pos hkind]
      exact ⟨s.pending, by rw [← hs], hskip (by simp [TransactionTrace.Stored, hstatus, hkind])⟩
    · rw [if_neg hkind] at hend ⊢
      cases hbytes : t.retainedBytes with
      | none => simp [hbytes] at hend
      | some retained =>
        simp only [hbytes] at hend ⊢
        split_ifs at hend ⊢ with hsize
        · simp at hend
        · cases hprocess : processTransaction cfg s.db s.pending t with
          | error reason => simp [hprocess] at hend
          | ok pending' =>
            exact ⟨pending', by simp, hstaged.process hnum (Nat.succ_ne_zero p) hprocess⟩

theorem InStep.accepted (hnum : p + 1 < 2 ^ 32) {blockId : String}
    {irreversible : ℕ} {lowSpace : ℕ → Bool}
    (hend : (s.step cfg (.acceptedBlock (p + 1) blockId irreversible lowSpace)).healthy = true) :
    ∃ maps' j', InStep cfg base maps' j'
      (s.step cfg (.acceptedBlock (p + 1) blockId irreversible lowSpace))
      ⟨chain.blocks ++ [⟨p + 1, chain.applied, s.acceptedWrites (p + 1) blockId⟩], [], none⟩ := by
  obtain ⟨p', hstaged, hbuilding⟩ := h.building
  obtain ⟨rfl, -⟩ := hbuilding p hparent
  rw [step] at hend ⊢
  unfold acceptedBlock commitAcceptedBlock at hend ⊢
  have hblock : ¬ (s.pending.blockNum ≠ 0 ∧ s.pending.blockNum ≠ p + 1) :=
    fun ⟨hzero, hne⟩ => hne (hstaged.current hzero)
  rw [if_neg (by simp [hs]), if_neg hblock] at hend ⊢
  cases hwrite : s.blockBatchWriteWithRetry cfg (p + 1) (s.acceptedWrites (p + 1) blockId) with
  | none => simp [hwrite] at hend
  | some db' =>
    obtain ⟨j₁, h₁⟩ := (h.commit hparent hnum hwrite).dropPoints
      ((createRollbackPoint { s with db := db', pending := .cleared }
        (p + 1)).rollbackPoints.takeWhile (· < irreversible)).length
    obtain ⟨j₂, h₂⟩ := h₁.dropPoints _
    exact ⟨_, j₂, h₂⟩

end

theorem step_of_unhealthy (hs : s.healthy = false) (e : HistoryEvent) : s.step cfg e = s := by
  cases e with
  | blockStart p parentId => simp [step, ensureChainParent, hs]
  | appliedTransaction t =>
    rw [step, appliedTransaction]
    cases t.status with
    | none => rfl
    | some status => simp [hs]
  | acceptedBlock n blockId irreversible lowSpace =>
    simp [step, acceptedBlock, hs]

theorem healthy_of_step {e : HistoryEvent} (h : (s.step cfg e).healthy = true) :
    s.healthy = true := by
  by_contra hs
  rw [step_of_unhealthy (by simpa using hs)] at h
  exact hs h

theorem HistoryRuns.inStep (h : HistoryRuns cfg base baseId s chain) (hs : s.healthy = true) :
    ∃ maps j, InStep cfg base maps j s chain := by
  induction h with
  | start hbase => exact ⟨_, _, inStep_startup cfg hbase baseId⟩
  | blockStart _ p parentId ih =>
    obtain ⟨maps, j, hstep⟩ := ih (healthy_of_step hs)
    obtain ⟨maps', hstep'⟩ := hstep.blockStart (healthy_of_step hs) hs
    exact ⟨maps', j, hstep'⟩
  | applied _ hparent t hnum ih =>
    obtain ⟨maps, j, hstep⟩ := ih (healthy_of_step hs)
    exact ⟨maps, j, hstep.applied (healthy_of_step hs) hparent hnum hs⟩
  | accepted _ hparent hnum blockId irreversible lowSpace ih =>
    obtain ⟨maps, j, hstep⟩ := ih (healthy_of_step hs)
    exact hstep.accepted (healthy_of_step hs) hparent hnum hs

theorem account_index_gap_free (h : HistoryRuns cfg base baseId s chain) (hs : s.healthy = true) :
    GapFree cfg s.db chain.blocks := by
  obtain ⟨maps, j, hstep⟩ := h.inStep hs
  exact hstep.gapFree

def openConfig : HistoryConfig :=
  ⟨true, [], [], 1000, 1000, 4096, 100000, 1000, plainSizes⟩

def plainTransfer (id : TransactionId) (blockNum globalSequence : ℕ) (account : AccountName) :
    TransactionTrace :=
  ⟨id, blockNum, some .executed, some 100,
    [⟨some ⟨account, globalSequence⟩, account, 1, [account]⟩]⟩

def noLowSpace : ℕ → Bool := fun _ => false

/-- Has rows for three accounts, of which the budget allows two. -/
def wideTransfer (id : TransactionId) (blockNum globalSequence : ℕ) : TransactionTrace :=
  ⟨id, blockNum, some .softFail, some 100, [⟨some ⟨7, globalSequence⟩, 7, 1, [7, 8, 9]⟩]⟩

def tightConfig : HistoryConfig := { openConfig with maxAccountIndexesPerTx := 2 }

/-- The first try at block six is aborted, the second accepted and rolled back for another
block six, in which a transaction spends its budget. -/
theorem account_index_gap_free_fork :
    ∃ s chain, HistoryRuns tightConfig 4 "four" s chain ∧ s.healthy = true ∧
      (chain.blocks.map fun b => (b.num, b.transactions.map fun t => t.id)) =
        [(5, [1]), (6, [4, 5]), (7, [6])] ∧
      [7, 8, 9].map (accountCounter s.db) = [2, 2, 1] ∧
      (find s.db .accountIndexGapBlock).bind HistoryValue.stoul = some 6 ∧
      GapFree tightConfig s.db chain.blocks := by
  have hstart : HistoryRuns tightConfig 4 "four" _ _ := .start (by decide)
  have hfive := ((hstart.blockStart 4 "four").applied rfl (plainTransfer 1 5 50 7) rfl).accepted rfl
    (by decide) "five" 3 noLowSpace
  have haborted := (hfive.blockStart 5 "five").applied rfl (plainTransfer 2 6 51 7) rfl
  have hsix := ((haborted.blockStart 5 "five").applied rfl (plainTransfer 3 6 52 7) rfl).accepted
    rfl (by decide) "six" 3 noLowSpace
  have hother := (((hsix.blockStart 5 "five").applied rfl (plainTransfer 4 6 52 8) rfl).applied rfl
    (wideTransfer 5 6 53) rfl).accepted rfl (by decide) "other" 3 noLowSpace
  have hseven := ((hother.blockStart 6 "other").applied rfl (plainTransfer 6 7 60 9) rfl).accepted
    rfl (by decide) "seven" 3 noLowSpace
  exact ⟨_, _, hseven, by decide +kernel, by decide +kernel, by decide +kernel, by decide +kernel,
    account_index_gap_free hseven (by decide +kernel)⟩

def acceptedTwice : HistoryState :=
  [.blockStart 4 "four", .appliedTransaction (plainTransfer 1 5 50 7),
    .acceptedBlock 5 "five" 3 noLowSpace, .appliedTransaction (plainTransfer 2 5 51 8),
    .acceptedBlock 5 "again" 3 noLowSpace].foldl (step openConfig) (.startup 4 "four")

def hardFailed : TransactionTrace := { plainTransfer 1 5 50 7 with status := some .hardFail }

/-- Rows are lost without a marker when a block is accepted twice, and in a run in order when
a transaction with receipts has failed. -/
theorem receipted_actions_lose_rows :
    (acceptedTwice.healthy = true ∧ (acceptedTwice.db.any fun e => isRowOf 8 e.1) = false ∧
      (find acceptedTwice.db .accountIndexGapBlock).isNone = true ∧
      (plainTransfer 2 5 51 8).actions.all (filterAction openConfig) = true ∧
      8 ∈ indexedAccounts ⟨8, 51⟩ ⟨some ⟨8, 51⟩, 8, 1, [8]⟩) ∧
    ∃ s chain, HistoryRuns openConfig 4 "four" s chain ∧ s.healthy = true ∧
      (chain.blocks.map fun b => b.transactions) = [[hardFailed]] ∧
      hardFailed.actions.all (filterAction openConfig) = true ∧
      7 ∈ indexedAccounts ⟨7, 50⟩ ⟨some ⟨7, 50⟩, 7, 1, [7]⟩ ∧
      (s.db.any fun e => isRowOf 7 e.1) = false ∧
      (find s.db .accountIndexGapBlock).isNone = true := by
  have hstart : HistoryRuns openConfig 4 "four" _ _ := .start (by decide)
  have hfive := ((hstart.blockStart 4 "four").applied rfl hardFailed rfl).accepted rfl
    (by decide) "five" 3 noLowSpace
  refine ⟨⟨by decide +kernel, by decide +kernel, by decide +kernel, by decide +kernel, ?_⟩,
    _, _, hfive, by decide +kernel, rfl, by decide +kernel, ?_, by decide +kernel,
    by decide +kernel⟩
  · decide +kernel
  · decide +kernel

end FlonCore
