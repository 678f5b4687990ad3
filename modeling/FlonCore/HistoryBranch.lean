import FlonCore.HistoryStaging
import FlonCore.UndoRuns

/-!
# The account index along a branch

`GapFree` says what the database holds after the blocks of a branch: the rows of an
account are exactly those below its counter, every row was written once, and an
action without its rows comes after the gap marker. It reads only keys a rollback
brings back, and the batch of an accepted block extends it.
-/

namespace FlonCore
open Library HistoryCodec List
open HistoryKey HistoryState

structure HistoryBlock where
  num : ℕ
  transactions : List TransactionTrace
  writes : HistoryWrites

def writtenKeys (blocks : List HistoryBlock) : List HistoryKey :=
  blocks.flatMap fun b => b.writes.map Prod.fst

structure GapFree (cfg : HistoryConfig) (db : HistoryDb HistoryKey HistoryValue)
    (blocks : List HistoryBlock) : Prop where
  rows : ∀ a k, (find db (.accountAction a k)).isSome = true ↔ k < accountCounter db a
  counters : ∀ a v, find db (.accountSequence a) = some v → ∃ n, v = .number n
  once : ∀ a k, (writtenKeys blocks).count (.accountAction a k) =
    if k < accountCounter db a then 1 else 0
  recorded : ∀ a k v, find db (.accountAction a k) = some v →
    ∃ row, v = .accountAction row ∧ row.accountActionSeq = k
  marker : ∀ v, find db .accountIndexGapBlock = some v →
    ∃ g ∈ blocks, v = .number g.num ∧ (.accountIndexGapBlock, v) ∈ g.writes
  complete : ∀ b ∈ blocks, ∀ t ∈ b.transactions, t.Stored →
    ∀ action ∈ t.actions, filterAction cfg action = true →
      ∀ receipt, action.receipt = some receipt → ∀ a ∈ indexedAccounts receipt action,
        (∃ k, find db (.accountAction a k) =
          some (.accountAction (accountRow t receipt action k))) ∨
        ∃ g ∈ blocks, g.num ≤ b.num ∧ find db .accountIndexGapBlock = some (.number g.num) ∧
          (.accountIndexGapBlock, .number g.num) ∈ g.writes

/-- The keys a rollback brings back. Other public rows may be written again by a later block;
the undo log then only erases them. -/
def Recoverable : HistoryKey → Prop
  | .undo _ | .transaction _ | .action _ | .blockTransaction _ _ => False
  | _ => True

theorem tracking_recoverable (sizes : HistorySizes) : (historyCodec sizes).Tracking Recoverable :=
  ⟨fun _ h => h, trivial⟩

variable {cfg : HistoryConfig} {db db' : HistoryDb HistoryKey HistoryValue}
  {blocks : List HistoryBlock} {s : HistoryState}

theorem GapFree.congr (h : GapFree cfg db blocks)
    (hsame : ∀ k, Recoverable k → find db' k = find db k) : GapFree cfg db' blocks := by
  have hcounter : accountCounter db' = accountCounter db := by
    funext a
    rw [accountCounter, accountCounter, hsame (.accountSequence a) trivial]
  have hrow : ∀ a k, find db' (.accountAction a k) = find db (.accountAction a k) :=
    fun a k => hsame _ trivial
  have hgap : find db' .accountIndexGapBlock = find db .accountIndexGapBlock := hsame _ trivial
  refine ⟨?_, ?_, ?_, ?_, ?_, ?_⟩
  · simpa only [hrow, hcounter] using h.rows
  · intro a v hv
    exact h.counters a v (hsame (.accountSequence a) trivial ▸ hv)
  · simpa only [hcounter] using h.once
  · simpa only [hrow] using h.recorded
  · simpa only [hgap] using h.marker
  · simpa only [hrow, hgap] using h.complete

theorem gapFree_startup (cfg : HistoryConfig) (headNum : ℕ) (headId : String) :
    GapFree cfg (startup headNum headId).db [] := by
  have hnone : ∀ k : HistoryKey, k ≠ .lastBlockNumber → k ≠ .lastAcceptedBlockNum →
      k ≠ .lastAcceptedBlockId → k ≠ .undo headNum →
      find (startup headNum headId).db k = none := by
    intro k h₁ h₂ h₃ h₄
    simp [startup, find_eq_none, keysOf, h₁, h₂, h₃, h₄]
  have hrow : ∀ a k, find (startup headNum headId).db (.accountAction a k) = none :=
    fun a k => hnone _ (by simp) (by simp) (by simp) (by simp)
  have hcounter : ∀ a, find (startup headNum headId).db (.accountSequence a) = none :=
    fun a => hnone _ (by simp) (by simp) (by simp) (by simp)
  have hgap : find (startup headNum headId).db .accountIndexGapBlock = none :=
    hnone _ (by simp) (by simp) (by simp) (by simp)
  refine ⟨?_, ?_, ?_, ?_, ?_, fun b hb => absurd hb not_mem_nil⟩
  · simp [hrow, accountCounter, hcounter]
  · simp [hcounter]
  · simp [writtenKeys, accountCounter, hcounter]
  · simp [hrow]
  · simp [hgap]

variable {n : ℕ} {blockId : String} {applied : List TransactionTrace}

theorem mem_acceptedWrites {e : HistoryKey × HistoryValue} :
    e ∈ s.acceptedWrites n blockId ↔ e ∈ s.pending.writes ∨
      (∃ x ∈ s.pending.accountSequences, (.accountSequence x.1, .number x.2) = e) ∨
      e ∈ [(.lastBlockNumber, .number n), (.lastAcceptedBlockNum, .number n),
        (.lastAcceptedBlockId, .text blockId), (.schemaVersion, .number 2)] ∨
      (s.pending.accountIndexGap = true ∧ find s.db .accountIndexGapBlock = none) ∧
        e = (.accountIndexGapBlock, .number n) := by
  unfold acceptedWrites
  simp only [mem_append, mem_map, or_assoc]
  split_ifs with hgap
  · simp only [Bool.and_eq_true, Option.isNone_iff_eq_none] at hgap
    simp [hgap]
  · simp only [Bool.and_eq_true, Option.isNone_iff_eq_none] at hgap
    simp [hgap]

variable {v : HistoryValue}

theorem accountAction_mem_acceptedWrites {a : AccountName} {k : ℕ} :
    (.accountAction a k, v) ∈ s.acceptedWrites n blockId ↔
      (.accountAction a k, v) ∈ s.pending.writes := by
  simp [mem_acceptedWrites]

section
variable (hpublic : ∀ e ∈ s.pending.writes, e.1.isInternal = false)
include hpublic

theorem accountSequence_mem_acceptedWrites {a : AccountName} :
    (.accountSequence a, v) ∈ s.acceptedWrites n blockId ↔
      ∃ m, (a, m) ∈ s.pending.accountSequences ∧ .number m = v := by
  have hnot : (.accountSequence a, v) ∉ s.pending.writes :=
    fun hmem => absurd (hpublic _ hmem) (by simp [HistoryKey.isInternal])
  simp [mem_acceptedWrites, hnot]

theorem gapBlock_mem_acceptedWrites :
    (.accountIndexGapBlock, v) ∈ s.acceptedWrites n blockId ↔
      (s.pending.accountIndexGap = true ∧ find s.db .accountIndexGapBlock = none) ∧
        v = .number n := by
  have hnot : (.accountIndexGapBlock, v) ∉ s.pending.writes :=
    fun hmem => absurd (hpublic _ hmem) (by simp [HistoryKey.isInternal])
  simp [mem_acceptedWrites, hnot]

theorem undo_not_mem_acceptedWrites (m : ℕ) :
    .undo m ∉ batchKeys (s.acceptedWrites n blockId) [] := by
  intro hmem
  obtain ⟨v, he⟩ : ∃ v, (.undo m, v) ∈ s.acceptedWrites n blockId := by
    simpa [batchKeys] using hmem
  rcases mem_acceptedWrites.mp he with he | he
  · exact absurd (hpublic _ he) (by simp [HistoryKey.isInternal])
  · simp at he

end

theorem mem_batchKeys {writes : HistoryWrites} {key : HistoryKey} :
    key ∈ batchKeys writes [] ↔ ∃ v, (key, v) ∈ writes := by
  simp [batchKeys]

theorem acceptedWrites_committed {maxBytes : ℕ}
    (h : (historyCodec cfg.sizes).batchWriteWithUndo s.db n (s.acceptedWrites n blockId) []
      maxBytes = some db') :
    Committed (historyCodec cfg.sizes) Recoverable s.db n (s.acceptedWrites n blockId) [] db' := by
  refine batchWriteWithUndo_committed h fun e _ hrecoverable hinternal hrow => ?_
  -- a key that is brought back is internal or an account row
  obtain ⟨key, v⟩ := e
  cases key with
  | transaction | action | blockTransaction | undo => cases hrecoverable
  | accountAction => cases hrow
  | _ => cases hinternal

theorem accountCounter_of_committed (hs : Staged cfg s.db n applied s.pending)
    (hc : Committed (historyCodec cfg.sizes) Recoverable s.db n (s.acceptedWrites n blockId) []
      db') : accountCounter db' = s.pending.nextOf s.db := by
  funext a
  rw [PendingBlock.nextOf]
  cases hfind : find s.pending.accountSequences a with
  | some m =>
    have hmem : (accountSequence a, .number m) ∈ s.acceptedWrites n blockId :=
      (accountSequence_mem_acceptedWrites hs.fills.isPublic).mpr ⟨m, mem_of_find_eq_some hfind, rfl⟩
    rw [accountCounter, hc.written _ hmem]
    rfl
  | none =>
    have hnot : accountSequence a ∉ batchKeys (s.acceptedWrites n blockId) [] := by
      rw [mem_batchKeys]
      rintro ⟨v, hv⟩
      obtain ⟨m, hm, -⟩ := (accountSequence_mem_acceptedWrites hs.fills.isPublic).mp hv
      exact find_eq_none.mp hfind (mem_keysOf.mpr ⟨m, hm⟩)
    rw [accountCounter, hc.kept (.accountSequence a) (by simp [historyCodec]) hnot]
    rfl

theorem Staged.accountAction_mem_iff (hs : Staged cfg s.db n applied s.pending) (a : AccountName)
    (k : ℕ) : (∃ v, (.accountAction a k, v) ∈ s.pending.writes) ↔
      accountCounter s.db a ≤ k ∧ k < s.pending.nextOf s.db a := by
  constructor
  · rintro ⟨v, hv⟩
    obtain ⟨hlower, hupper, -⟩ := hs.fills.rows a k v hv
    exact ⟨hlower, hupper⟩
  · rintro ⟨hlower, hupper⟩
    exact hs.fills.filled a k hlower hupper

section Commit
variable (hs : Staged cfg s.db n applied s.pending)
  (hc : Committed (historyCodec cfg.sizes) Recoverable s.db n (s.acceptedWrites n blockId) [] db')
include hc

variable {k : ℕ} {a : AccountName}

theorem accountAction_kept (hnot : ∀ v, (.accountAction a k, v) ∉ s.pending.writes) :
    find db' (.accountAction a k) = find s.db (.accountAction a k) := by
  refine hc.kept (.accountAction a k) (by simp [historyCodec]) ?_
  rw [mem_batchKeys]
  rintro ⟨v, hv⟩
  exact hnot v (accountAction_mem_acceptedWrites.mp hv)

theorem accountAction_written (hv : (.accountAction a k, v) ∈ s.pending.writes) :
    find db' (.accountAction a k) = some v :=
  hc.written _ (accountAction_mem_acceptedWrites.mpr hv)

include hs

theorem gapMarker_kept (hv : find s.db .accountIndexGapBlock = some v) :
    find db' .accountIndexGapBlock = some v := by
  rw [hc.kept .accountIndexGapBlock (by simp [historyCodec]), hv]
  rw [mem_batchKeys]
  rintro ⟨w, hw⟩
  have hnone := ((gapBlock_mem_acceptedWrites hs.fills.isPublic).mp hw).1.2
  rw [hv] at hnone
  cases hnone

theorem gapMarker_new (hold : find s.db .accountIndexGapBlock = none)
    (hv : find db' .accountIndexGapBlock = some v) :
    v = .number n ∧ (.accountIndexGapBlock, v) ∈ s.acceptedWrites n blockId := by
  have hrow : accountIndexGapBlock ∈ batchKeys (s.acceptedWrites n blockId) [] := by
    by_contra hnot
    rw [hc.kept .accountIndexGapBlock (by simp [historyCodec]) hnot, hold] at hv
    cases hv
  obtain ⟨w, hw⟩ := mem_batchKeys.mp hrow
  cases (hc.written _ hw).symm.trans hv
  exact ⟨((gapBlock_mem_acceptedWrites hs.fills.isPublic).mp hw).2, hw⟩

variable (h : GapFree cfg s.db blocks)
include h

theorem GapFree.commit_rows (a : AccountName) (k : ℕ) :
    (find db' (.accountAction a k)).isSome = true ↔ k < accountCounter db' a := by
  have hle := hs.fills.le a
  rw [accountCounter_of_committed hs hc]
  by_cases hrow : ∃ v, (.accountAction a k, v) ∈ s.pending.writes
  · obtain ⟨v, hv⟩ := hrow
    have hupper := ((hs.accountAction_mem_iff a k).mp ⟨v, hv⟩).2
    simp [accountAction_written hc hv, hupper]
  · rw [accountAction_kept hc fun v hv => hrow ⟨v, hv⟩, h.rows]
    rw [hs.accountAction_mem_iff] at hrow
    omega

theorem GapFree.commit_counters
    (hv : find db' (.accountSequence a) = some v) : ∃ m, v = .number m := by
  by_cases hrow : accountSequence a ∈ batchKeys (s.acceptedWrites n blockId) []
  · obtain ⟨w, hw⟩ := mem_batchKeys.mp hrow
    obtain ⟨m, -, rfl⟩ := (accountSequence_mem_acceptedWrites hs.fills.isPublic).mp hw
    have hvalue := hc.written _ hw
    rw [hv] at hvalue
    exact ⟨m, Option.some.inj hvalue⟩
  · rw [hc.kept (.accountSequence a) (by simp [historyCodec]) hrow] at hv
    exact h.counters a v hv

theorem GapFree.commit_once (a : AccountName) (k : ℕ) :
    (writtenKeys (blocks ++ [⟨n, applied, s.acceptedWrites n blockId⟩])).count
      (.accountAction a k) = if k < accountCounter db' a then 1 else 0 := by
  have hle := hs.fills.le a
  have hnodup : ((s.acceptedWrites n blockId).map Prod.fst).Nodup := by
    simpa [batchKeys] using hc.nodup
  have hbatch : accountAction a k ∈ (s.acceptedWrites n blockId).map Prod.fst ↔
      accountCounter s.db a ≤ k ∧ k < s.pending.nextOf s.db a := by
    rw [← hs.accountAction_mem_iff a k]
    simp [accountAction_mem_acceptedWrites]
  simp only [writtenKeys, flatMap_append, flatMap_cons, flatMap_nil,
    append_nil, count_append, hnodup.count, hbatch]
  have honce := h.once a k
  rw [writtenKeys] at honce
  rw [honce, accountCounter_of_committed hs hc]
  split_ifs <;> omega

theorem GapFree.commit_recorded (hv : find db' (.accountAction a k) = some v) :
    ∃ row, v = .accountAction row ∧ row.accountActionSeq = k := by
  by_cases hrow : ∃ w, (.accountAction a k, w) ∈ s.pending.writes
  · obtain ⟨w, hw⟩ := hrow
    obtain rfl : w = v := Option.some.inj ((accountAction_written hc hw).symm.trans hv)
    exact (hs.fills.rows a k w hw).2.2
  · rw [accountAction_kept hc fun w hw => hrow ⟨w, hw⟩] at hv
    exact h.recorded a k v hv

theorem GapFree.commit_marker (hv : find db' .accountIndexGapBlock = some v) :
    ∃ g ∈ blocks ++ [⟨n, applied, s.acceptedWrites n blockId⟩],
      v = .number g.num ∧ (.accountIndexGapBlock, v) ∈ g.writes := by
  cases hold : find s.db .accountIndexGapBlock with
  | some w =>
    obtain rfl : w = v := Option.some.inj ((gapMarker_kept hs hc hold).symm.trans hv)
    obtain ⟨g, hg, hset⟩ := h.marker w hold
    exact ⟨g, mem_append_left _ hg, hset⟩
  | none =>
    exact ⟨_, mem_append_right _ (mem_singleton_self _), gapMarker_new hs hc hold hv⟩

theorem GapFree.row_kept
    (hv : find s.db (.accountAction a k) = some v) : find db' (.accountAction a k) = some v := by
  rw [accountAction_kept hc, hv]
  intro w hw
  have hlower := ((hs.accountAction_mem_iff a k).mp ⟨w, hw⟩).1
  have hlt := (h.rows a k).mp (by rw [hv]; rfl)
  omega

theorem GapFree.marker_of_gap (hnum : ∀ b ∈ blocks, b.num < n)
    (hgap : s.pending.accountIndexGap = true) :
    ∃ g ∈ blocks ++ [⟨n, applied, s.acceptedWrites n blockId⟩], g.num ≤ n ∧
      find db' .accountIndexGapBlock = some (.number g.num) ∧
        (.accountIndexGapBlock, .number g.num) ∈ g.writes := by
  cases hold : find s.db .accountIndexGapBlock with
  | some w =>
    obtain ⟨g, hg, rfl, hset⟩ := h.marker w hold
    exact ⟨g, mem_append_left _ hg, (hnum g hg).le, gapMarker_kept hs hc hold, hset⟩
  | none =>
    have hw : (accountIndexGapBlock, .number n) ∈ s.acceptedWrites n blockId :=
      (gapBlock_mem_acceptedWrites hs.fills.isPublic).mpr ⟨⟨hgap, hold⟩, rfl⟩
    exact ⟨_, mem_append_right _ (mem_singleton_self _), le_rfl, hc.written _ hw, hw⟩

theorem GapFree.commit (hnum : ∀ b ∈ blocks, b.num < n) :
    GapFree cfg db' (blocks ++ [⟨n, applied, s.acceptedWrites n blockId⟩]) := by
  refine ⟨h.commit_rows hs hc, fun a v => h.commit_counters hs hc, h.commit_once hs hc,
    fun a k v => h.commit_recorded hs hc, fun v => h.commit_marker hs hc, ?_⟩
  intro b hb t ht hstored action haction hfilter receipt hreceipt a ha
  rcases mem_append.mp hb with hb | hb
  · rcases h.complete b hb t ht hstored action haction hfilter receipt hreceipt a ha with
      ⟨k, hk⟩ | ⟨g, hg, hle, hset⟩
    · exact .inl ⟨k, h.row_kept hs hc hk⟩
    · exact .inr ⟨g, mem_append_left _ hg, hle, gapMarker_kept hs hc hset.1, hset.2⟩
  · obtain rfl := mem_singleton.mp hb
    cases hgap : s.pending.accountIndexGap with
    | false =>
      obtain ⟨k, hk⟩ := hs.complete hgap t ht hstored action haction hfilter receipt hreceipt a ha
      exact .inl ⟨k, accountAction_written hc hk⟩
    | true => exact .inr (h.marker_of_gap hs hc hnum hgap)

end Commit
end FlonCore
