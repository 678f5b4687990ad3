import FlonCore.IndexLoops
import FlonCore.HistoryPlugin

/-!
# The staged block

Transaction by transaction the staged block continues the account sequences of the
database. Unless its gap flag is set, it has the rows of every action it should.
-/

namespace FlonCore
open Library List

def TransactionTrace.Stored (trace : TransactionTrace) : Prop :=
  trace.status = some .executed ∨ trace.status = some .softFail

def IndexedIn (cfg : HistoryConfig) (writes : HistoryWrites) (trace : TransactionTrace) : Prop :=
  ∀ action ∈ trace.actions, filterAction cfg action = true →
    ∀ receipt, action.receipt = some receipt →
      ∀ a ∈ indexedAccounts receipt action, HasRow trace receipt action writes a

structure Staged (cfg : HistoryConfig) (db : HistoryDb HistoryKey HistoryValue) (blockNum : ℕ)
    (applied : List TransactionTrace) (pending : PendingBlock) : Prop where
  fills : Fills (accountCounter db) (pending.nextOf db) pending.writes
  nodup : (keysOf pending.accountSequences).Nodup
  complete : pending.accountIndexGap = false → ∀ t ∈ applied, t.Stored →
    IndexedIn cfg pending.writes t
  idle : pending.blockNum = 0 → pending = .cleared
  current : pending.blockNum ≠ 0 → pending.blockNum = blockNum

variable {cfg : HistoryConfig} {db : HistoryDb HistoryKey HistoryValue} {pending : PendingBlock}
  {trace : TransactionTrace}

theorem staged_cleared (cfg : HistoryConfig) (db : HistoryDb HistoryKey HistoryValue)
    (blockNum : ℕ) : Staged cfg db blockNum [] .cleared :=
  ⟨Fills.nil _, nodup_nil, fun _ _ ht => absurd ht not_mem_nil, fun _ => rfl,
    fun h => absurd rfl h⟩

structure Recorded (f : AccountName → ℕ) (s : IndexState) : Prop where
  fills : Fills f f s.writes
  next : s.nextSequences = []
  indexed : s.indexedActions = 0
  budget : s.indexBudgetExhausted = false

variable {s s' : IndexState}

theorem Recorded.append {f : AccountName → ℕ} (h : Recorded f s)
    {key : HistoryKey} {value : HistoryValue} (hwrite : appendWrite cfg s key value = some s')
    (hpublic : key.isInternal = false) (hrow : key.isAccountRow = false) : Recorded f s' := by
  obtain ⟨hwrites, hnext, hindexed, hflag⟩ := appendWrite_eq_some hwrite
  refine ⟨?_, hnext.trans h.next, hindexed.trans h.indexed, hflag.trans h.budget⟩
  rw [hwrites]
  exact h.fills.append (Fills.other value hpublic hrow f)

theorem Recorded.appendAction {f : AccountName → ℕ} {acc acc' : List TraceEntry × IndexState}
    (h : Recorded f acc.2) {action : ActionTrace}
    (hstep : appendAction cfg trace acc action = .ok acc') : Recorded f acc'.2 := by
  unfold FlonCore.appendAction at hstep
  cases hreceipt : action.receipt with
  | none =>
    rw [hreceipt] at hstep
    cases hstep
    exact h
  | some receipt =>
    simp only [hreceipt] at hstep
    split at hstep
    · cases hstep
    · rename_i s hs
      cases hstep
      exact h.append hs rfl rfl

variable {traces : List TraceEntry} {filtered : List ActionTrace}

theorem recordTransaction_recorded (h : recordTransaction cfg trace filtered = .ok (traces, s))
    (f : AccountName → ℕ) : Recorded f s := by
  rw [recordTransaction, bind_eq_ok] at h
  obtain ⟨⟨traces', mid⟩, hloop, h⟩ := h
  have hstart : Recorded f (([], IndexState.start) : List TraceEntry × IndexState).2 :=
    ⟨Fills.nil f, rfl, rfl, rfl⟩
  have hmid : Recorded f mid :=
    @foldlM_eq_ok_induction _ _ _ _ (fun _ acc => Recorded f acc.2)
      (fun _ _ _ _ hp hs => hp.appendAction hs) filtered [] _ _ hstart hloop
  simp only at h
  split_ifs at h
  split at h
  · cases h
  · rename_i s₁ hs₁
    split at h
    · cases h
    · rename_i s₂ hs₂
      cases h
      exact (hmid.append hs₁ rfl rfl).append hs₂ rfl rfl

variable {incomplete : Bool}

theorem completeTransaction_eq_ok (h : completeTransaction cfg trace traces incomplete s = .ok s') :
    s'.nextSequences = s.nextSequences ∧ (s'.writes = s.writes ∨
      ∃ value, s'.writes = replaceFirst (.transaction trace.id) value s.writes) := by
  unfold completeTransaction at h
  simp only at h
  split at h
  · cases h
    exact ⟨rfl, .inl rfl⟩
  · split_ifs at h
    cases h
    exact ⟨rfl, .inr ⟨_, rfl⟩⟩

theorem Indexing.complete (h : Indexing db pending trace filtered s)
    (hstep : completeTransaction cfg trace traces incomplete s = .ok s') :
    Fills (pending.nextOf db) (s'.nextOf pending db) s'.writes ∧
      (keysOf s'.nextSequences).Nodup ∧
      (s.incomplete filtered = false → ∀ action ∈ filtered, ∀ receipt,
        action.receipt = some receipt →
          ∀ a ∈ indexedAccounts receipt action, HasRow trace receipt action s'.writes a) := by
  obtain ⟨hnext, hwrites⟩ := completeTransaction_eq_ok hstep
  have hsame : s'.nextOf pending db = s.nextOf pending db := by
    funext a
    rw [IndexState.nextOf, IndexState.nextOf, hnext]
  have hrow : ∀ action receipt a, HasRow trace receipt action s.writes a →
      HasRow trace receipt action s'.writes a := by
    rintro action receipt a ⟨k, hk⟩
    rcases hwrites with hwrites | ⟨value, hwrites⟩
    · exact ⟨k, hwrites ▸ hk⟩
    · have hkey : HistoryKey.accountAction a k ≠ .transaction trace.id := by simp
      refine ⟨k, ?_⟩
      rw [hwrites]
      exact (mem_replaceFirst hkey).mpr hk
  refine ⟨?_, hnext ▸ h.nodup, ?_⟩
  · rw [hsame]
    rcases hwrites with hwrites | ⟨value, hwrites⟩
    · exact hwrites ▸ h.fills
    · exact hwrites ▸ h.fills.replaceFirst trace.id value
  · intro hincomplete action haction receipt hreceipt a ha
    have hcounted := h.counted
    simp only [IndexState.incomplete, Bool.or_eq_false_iff, decide_eq_false_iff_not,
      not_lt] at hincomplete
    exact hrow action receipt a
      (h.rows hincomplete.1 (by omega) action haction receipt hreceipt a ha)

theorem stageTransaction_eq_ok {pending' : PendingBlock}
    (h : stageTransaction cfg pending trace s incomplete = .ok pending') :
    pending'.blockNum = trace.blockNum ∧
      pending'.accountIndexGap = (pending.accountIndexGap || incomplete) ∧
      pending'.writes = pending.writes ++ s.writes ∧
      pending'.accountSequences =
        s.nextSequences.foldl (fun m e => assign m e.1 e.2) pending.accountSequences := by
  unfold stageTransaction at h
  split_ifs at h
  obtain ⟨bytes, -, h⟩ := bind_eq_ok.mp h
  split_ifs at h
  cases h
  exact ⟨rfl, rfl, rfl, rfl⟩

theorem Staged.process {blockNum : ℕ} {applied : List TransactionTrace} {pending' : PendingBlock}
    (h : Staged cfg db blockNum applied pending) (hnum : trace.blockNum = blockNum)
    (hpos : blockNum ≠ 0) (hrun : processTransaction cfg db pending trace = .ok pending') :
    Staged cfg db blockNum (applied ++ [trace]) pending' := by
  unfold processTransaction at hrun
  simp only at hrun
  split_ifs at hrun with hempty
  · -- no action passes the filters
    cases hrun
    refine ⟨h.fills, h.nodup, fun hgap t ht hstored => ?_, h.idle, h.current⟩
    rcases mem_append.mp ht with ht | ht
    · exact h.complete hgap t ht hstored
    · intro action haction hfilter
      obtain rfl := mem_singleton.mp ht
      have hmem := mem_filter.mpr ⟨haction, hfilter⟩
      rw [List.isEmpty_iff.mp hempty] at hmem
      cases hmem
  · obtain ⟨⟨traces, s₁⟩, hrecord, hrun⟩ := bind_eq_ok.mp hrun
    obtain ⟨s₂, hindex, hrun⟩ := bind_eq_ok.mp hrun
    obtain ⟨s₃, hcomplete, hstage⟩ := bind_eq_ok.mp hrun
    have hrecorded := recordTransaction_recorded hrecord (pending.nextOf db)
    have hstart : Indexing db pending trace [] s₁ := by
      have hsame : s₁.nextOf pending db = pending.nextOf db := by
        funext a
        rw [IndexState.nextOf, hrecorded.next]
        rfl
      refine ⟨hsame ▸ hrecorded.fills, ?_, ?_, fun _ _ _ ha => absurd ha not_mem_nil⟩
      · rw [hrecorded.next]
        exact nodup_nil
      · rw [hrecorded.indexed]
        exact Nat.zero_le _
    have hindexed := foldlM_eq_ok_induction (fun _ _ _ _ hp hs => hp.step hs) hstart hindex
    obtain ⟨hfills, hnodup, hrows⟩ := hindexed.complete hcomplete
    obtain ⟨hblock, hgap, hwrites, hsequences⟩ := stageTransaction_eq_ok hstage
    have hnext : pending'.nextOf db = s₃.nextOf pending db := by
      funext a
      rw [PendingBlock.nextOf, hsequences, find_foldl_assign hnodup, IndexState.nextOf,
        PendingBlock.nextOf]
      cases find s₃.nextSequences a <;> rfl
    refine ⟨?_, ?_, ?_, ?_, fun _ => hblock.trans hnum⟩
    · rw [hnext, hwrites]
      exact h.fills.append hfills
    · rw [hsequences]
      exact nodup_foldl_assign _ h.nodup
    · intro hfalse t ht hstored
      rw [hgap, Bool.or_eq_false_iff] at hfalse
      rw [hwrites]
      rcases mem_append.mp ht with ht | ht
      · intro action haction hfilter receipt hreceipt a ha
        exact (h.complete hfalse.1 t ht hstored action haction hfilter receipt hreceipt a ha).mono
          (subset_append_left _ _)
      · intro action haction hfilter receipt hreceipt a ha
        obtain rfl := mem_singleton.mp ht
        exact (hrows hfalse.2 action (mem_filter.mpr ⟨haction, hfilter⟩) receipt hreceipt a
          ha).mono (subset_append_right _ _)
    · intro hzero
      exact absurd (hnum.symm.trans (hblock.symm.trans hzero)) hpos

end FlonCore
