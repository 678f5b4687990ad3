import FlonCore.HistoryIndexing

/-!
# What the index loops write

`Fills lower upper writes` says that the account rows among the writes continue
the sequence of every account from `lower` to `upper`, without a hole. Rows are
only ever added at the upper end, so the loops of a transaction keep it up, and
the writes of several transactions fill one interval after the other.
-/

namespace FlonCore
open Library Function List

structure Fills (lower upper : AccountName → ℕ) (writes : HistoryWrites) : Prop where
  le : ∀ a, lower a ≤ upper a
  isPublic : ∀ e ∈ writes, e.1.isInternal = false
  rows : ∀ a k v, (.accountAction a k, v) ∈ writes → lower a ≤ k ∧ k < upper a ∧
    ∃ row, v = .accountAction row ∧ row.accountActionSeq = k
  filled : ∀ a k, lower a ≤ k → k < upper a → ∃ v, (.accountAction a k, v) ∈ writes

variable {f g r : AccountName → ℕ} {w w' : HistoryWrites}

theorem Fills.nil (f : AccountName → ℕ) : Fills f f [] :=
  ⟨fun _ => le_rfl, by simp, by simp, fun a k h h' => absurd h' (by omega)⟩

theorem Fills.append (h : Fills f g w) (h' : Fills g r w') : Fills f r (w ++ w') := by
  refine ⟨fun a => (h.le a).trans (h'.le a), ?_, ?_, ?_⟩
  · intro e he
    rcases mem_append.mp he with he | he
    · exact h.isPublic e he
    · exact h'.isPublic e he
  · intro a k v hv
    have hle := h.le a
    have hle' := h'.le a
    rcases mem_append.mp hv with hv | hv
    · obtain ⟨hlower, hupper, hrow⟩ := h.rows a k v hv
      exact ⟨hlower, by omega, hrow⟩
    · obtain ⟨hlower, hupper, hrow⟩ := h'.rows a k v hv
      exact ⟨by omega, hupper, hrow⟩
  · intro a k hlower hupper
    by_cases hk : k < g a
    · obtain ⟨v, hv⟩ := h.filled a k hlower hk
      exact ⟨v, mem_append_left _ hv⟩
    · obtain ⟨v, hv⟩ := h'.filled a k (by omega) hupper
      exact ⟨v, mem_append_right _ hv⟩

variable {key : HistoryKey}

theorem Fills.other (value : HistoryValue) (hpublic : key.isInternal = false)
    (hrow : key.isAccountRow = false) (f : AccountName → ℕ) : Fills f f [(key, value)] := by
  refine ⟨fun _ => le_rfl, by simpa using hpublic, ?_, fun a k h h' => absurd h' (by omega)⟩
  intro a k v hv
  obtain ⟨rfl, -⟩ : .accountAction a k = key ∧ v = value := by simpa using hv
  cases hrow

theorem Fills.row (f : AccountName → ℕ) (a : AccountName) {row : AccountActionRow}
    (hrow : row.accountActionSeq = f a) :
    Fills f (update f a (f a + 1)) [(.accountAction a (f a), .accountAction row)] := by
  refine ⟨?_, by simp [HistoryKey.isInternal], ?_, ?_⟩
  · intro b
    by_cases hb : b = a
    · subst hb
      simp
    · rw [update_of_ne hb]
  · intro b k v hv
    obtain ⟨⟨rfl, rfl⟩, rfl⟩ : (b = a ∧ k = f a) ∧ v = .accountAction row := by simpa using hv
    exact ⟨le_rfl, by simp, row, rfl, hrow⟩
  · intro b k hlower hupper
    by_cases hb : b = a
    · subst hb
      rw [update_self] at hupper
      obtain rfl : k = f b := by omega
      exact ⟨_, mem_singleton_self _⟩
    · rw [update_of_ne hb] at hupper
      omega

theorem mem_replaceFirst {value : HistoryValue}
    {e : HistoryKey × HistoryValue} (he : e.1 ≠ key) : e ∈ replaceFirst key value w ↔ e ∈ w := by
  induction w with
  | nil => rfl
  | cons x w ih =>
    rw [replaceFirst]
    split_ifs with hx
    · have hne : e ≠ (key, value) := fun heq => he (by rw [heq])
      have hne' : e ≠ x := fun heq => he (by rw [heq, hx])
      simp [hne, hne']
    · simp [ih]

theorem map_fst_replaceFirst (key : HistoryKey) (value : HistoryValue) :
    (replaceFirst key value w).map Prod.fst = w.map Prod.fst := by
  induction w with
  | nil => rfl
  | cons x w ih =>
    rw [replaceFirst]
    split_ifs with hx
    · simp [hx]
    · simp [ih]

theorem Fills.replaceFirst (h : Fills f g w) (id : TransactionId) (value : HistoryValue) :
    Fills f g (replaceFirst (.transaction id) value w) := by
  have hmem : ∀ a k v, (.accountAction a k, v) ∈
      FlonCore.replaceFirst (.transaction id) value w ↔ (.accountAction a k, v) ∈ w :=
    fun a k v => mem_replaceFirst (by simp)
  refine ⟨h.le, ?_, fun a k v hv => h.rows a k v ((hmem a k v).mp hv), ?_⟩
  · intro e he
    have hkey : e.1 ∈ w.map Prod.fst := by
      rw [← map_fst_replaceFirst (.transaction id) value]
      exact mem_map_of_mem he
    obtain ⟨e', he', heq⟩ := mem_map.mp hkey
    rw [← heq]
    exact h.isPublic e' he'
  · intro a k hlower hupper
    obtain ⟨v, hv⟩ := h.filled a k hlower hupper
    exact ⟨v, (hmem a k v).mpr hv⟩

/-- The stored counter of an account; an absent one means zero. -/
def accountCounter (db : HistoryDb HistoryKey HistoryValue) (a : AccountName) : ℕ :=
  ((find db (.accountSequence a)).bind HistoryValue.stoul).getD 0

def PendingBlock.nextOf (pending : PendingBlock) (db : HistoryDb HistoryKey HistoryValue)
    (a : AccountName) : ℕ :=
  (find pending.accountSequences a).getD (accountCounter db a)

def IndexState.nextOf (s : IndexState) (pending : PendingBlock)
    (db : HistoryDb HistoryKey HistoryValue) (a : AccountName) : ℕ :=
  (find s.nextSequences a).getD (pending.nextOf db a)

variable {cfg : HistoryConfig} {db : HistoryDb HistoryKey HistoryValue} {pending : PendingBlock}
  {trace : TransactionTrace} {a : AccountName}

theorem readAccountSequence_eq_ok {n : ℕ}
    (h : readAccountSequence db a = .ok n) : accountCounter db a = n := by
  unfold readAccountSequence at h
  cases hfind : find db (.accountSequence a) with
  | none =>
    simp only [hfind] at h
    split_ifs at h
    cases h
    simp [accountCounter, hfind]
  | some v =>
    simp only [hfind] at h
    cases v with
    | number m =>
      simp only at h
      split_ifs at h
      cases h
      simp [accountCounter, hfind, HistoryValue.stoul]
    | _ => cases h

theorem accountSequenceOf_eq_ok {s : IndexState} {n : ℕ}
    (h : accountSequenceOf db pending s.nextSequences a = .ok n) : s.nextOf pending db a = n := by
  unfold accountSequenceOf at h
  unfold IndexState.nextOf PendingBlock.nextOf
  cases hnext : find s.nextSequences a with
  | some m =>
    rw [hnext] at h
    cases h
    rfl
  | none =>
    rw [hnext] at h
    cases hpending : find pending.accountSequences a with
    | some m =>
      rw [hpending] at h
      cases h
      rfl
    | none =>
      rw [hpending] at h
      exact readAccountSequence_eq_ok h

theorem appendWrite_eq_some {s s' : IndexState} {value : HistoryValue}
    (h : appendWrite cfg s key value = some s') :
    s'.writes = s.writes ++ [(key, value)] ∧ s'.nextSequences = s.nextSequences ∧
      s'.indexedActions = s.indexedActions ∧
      s'.indexBudgetExhausted = s.indexBudgetExhausted := by
  unfold appendWrite at h
  simp only at h
  split_ifs at h
  cases h
  exact ⟨rfl, rfl, rfl, rfl⟩

def HasRow (trace : TransactionTrace) (receipt : ActionReceipt) (action : ActionTrace)
    (writes : HistoryWrites) (a : AccountName) : Prop :=
  ∃ k, (.accountAction a k, .accountAction (accountRow trace receipt action k)) ∈ writes

variable {action : ActionTrace} {receipt : ActionReceipt}

theorem HasRow.mono (h : HasRow trace receipt action w a) (hsub : w ⊆ w') :
    HasRow trace receipt action w' a := by
  obtain ⟨k, hk⟩ := h
  exact ⟨k, hsub hk⟩

/-- Inside the loop over the accounts of an action, which has come from state `s₀`. -/
structure IndexingAction (db : HistoryDb HistoryKey HistoryValue) (pending : PendingBlock)
    (trace : TransactionTrace) (receipt : ActionReceipt) (action : ActionTrace)
    (s₀ : IndexState) (seen : List AccountName) (s : IndexState) : Prop where
  fills : Fills (pending.nextOf db) (s.nextOf pending db) s.writes
  nodup : (keysOf s.nextSequences).Nodup
  sub : s₀.writes ⊆ s.writes
  indexed : s.indexedActions = s₀.indexedActions
  rows : s.indexBudgetExhausted = false → ∀ a ∈ seen, HasRow trace receipt action s.writes a

theorem IndexingAction.exhaust
    {s₀ s : IndexState} {seen : List AccountName}
    (h : IndexingAction db pending trace receipt action s₀ seen s) (seen' : List AccountName) :
    IndexingAction db pending trace receipt action s₀ seen'
      { s with indexBudgetExhausted := true } :=
  ⟨h.fills, h.nodup, h.sub, h.indexed, nofun⟩

theorem IndexingAction.step
    {s₀ s s' : IndexState} {seen : List AccountName}
    (h : IndexingAction db pending trace receipt action s₀ seen s)
    (hstep : indexAccount cfg db pending trace receipt action s a = .ok s') :
    IndexingAction db pending trace receipt action s₀ (seen ++ [a]) s' := by
  unfold indexAccount at hstep
  split_ifs at hstep with hexhausted hbudget
  · cases hstep
    refine ⟨h.fills, h.nodup, h.sub, h.indexed, fun hfalse => ?_⟩
    rw [hexhausted] at hfalse
    cases hfalse
  · cases hstep
    exact h.exhaust _
  · obtain ⟨n, hn, hstep⟩ := bind_eq_ok.mp hstep
    obtain rfl := accountSequenceOf_eq_ok hn
    simp only at hstep
    split_ifs at hstep with hlt hbytes
    · cases hstep
      exact h.exhaust _
    · -- a row is written at the account's next sequence
      cases happend : appendWrite cfg s (.accountAction a (s.nextOf pending db a))
          (.accountAction (accountRow trace receipt action (s.nextOf pending db a))) with
      | none =>
        rw [happend] at hstep
        cases hstep
      | some mid =>
        rw [happend] at hstep
        cases hstep
        obtain ⟨hwrites, hnext, hindexed, hflag⟩ := appendWrite_eq_some happend
        have hupdate : ∀ m : IndexState,
            m.nextSequences = assign mid.nextSequences a (s.nextOf pending db a + 1) →
            m.nextOf pending db =
              update (s.nextOf pending db) a (s.nextOf pending db a + 1) := by
          intro m hm
          funext b
          rw [IndexState.nextOf, hm, find_assign, hnext]
          by_cases hb : b = a
          · simp [hb]
          · simp [hb, IndexState.nextOf]
        refine ⟨?_, ?_, ?_, hindexed.trans h.indexed, ?_⟩
        · rw [hupdate _ rfl, hwrites]
          exact h.fills.append (Fills.row _ a rfl)
        · exact nodup_assign (hnext ▸ h.nodup) _ _
        · rw [hwrites]
          exact List.Subset.trans h.sub (subset_append_left _ _)
        · intro hfalse b hb
          rw [hwrites]
          rcases mem_append.mp hb with hb | hb
          · exact (h.rows (hflag ▸ hfalse) b hb).mono (subset_append_left _ _)
          · rw [mem_singleton.mp hb]
            exact ⟨_, mem_append_right _ (mem_singleton_self _)⟩

/-- After the actions `seen`: if no budget has cut an action off, all its rows are there. -/
structure Indexing (db : HistoryDb HistoryKey HistoryValue) (pending : PendingBlock)
    (trace : TransactionTrace) (seen : List ActionTrace) (s : IndexState) : Prop where
  fills : Fills (pending.nextOf db) (s.nextOf pending db) s.writes
  nodup : (keysOf s.nextSequences).Nodup
  counted : s.indexedActions ≤ receiptedActions seen
  rows : s.indexBudgetExhausted = false → s.indexedActions = receiptedActions seen →
    ∀ action ∈ seen, ∀ receipt, action.receipt = some receipt →
      ∀ a ∈ indexedAccounts receipt action, HasRow trace receipt action s.writes a

theorem receiptedActions_concat (seen : List ActionTrace) (action : ActionTrace) :
    receiptedActions (seen ++ [action]) =
      receiptedActions seen + if action.receipt.isSome then 1 else 0 := by
  simp [receiptedActions, countP_append, countP_singleton]

theorem Indexing.step {seen : List ActionTrace} {s s' : IndexState}
    (h : Indexing db pending trace seen s)
    (hstep : indexAction cfg db pending trace s action = .ok s') :
    Indexing db pending trace (seen ++ [action]) s' := by
  have hcounted := h.counted
  unfold indexAction at hstep
  cases hreceipt : action.receipt with
  | none =>
    rw [hreceipt] at hstep
    cases hstep
    have hcount := receiptedActions_concat seen action
    refine ⟨h.fills, h.nodup, by omega, fun hflag hall action' haction' receipt hsome => ?_⟩
    rcases mem_append.mp haction' with hmem | hmem
    · exact h.rows hflag (by omega) action' hmem receipt hsome
    · rw [mem_singleton.mp hmem, hreceipt] at hsome
      cases hsome
  | some receipt =>
    rw [hreceipt] at hstep
    have hcount := receiptedActions_concat seen action
    simp only [hreceipt, Option.isSome_some, if_true] at hcount
    split_ifs at hstep with hguard
    · obtain ⟨mid, hloop, hreturn⟩ := bind_eq_ok.mp hstep
      cases hreturn
      have hstart : IndexingAction db pending trace receipt action s [] s :=
        ⟨h.fills, h.nodup, fun _ he => he, rfl, fun _ _ ha => absurd ha not_mem_nil⟩
      have hmid := foldlM_eq_ok_induction (fun _ _ _ _ hp hs => hp.step hs) hstart hloop
      have hindexed := hmid.indexed
      refine ⟨hmid.fills, hmid.nodup, by simp only; omega, fun hflag hall => ?_⟩
      simp only at hflag hall
      intro action' haction' receipt' hsome a ha
      rcases mem_append.mp haction' with hmem | hmem
      · have hrow := h.rows hguard.2 (by omega) action' hmem receipt' hsome a ha
        exact hrow.mono hmid.sub
      · obtain rfl := mem_singleton.mp hmem
        cases hreceipt.symm.trans hsome
        exact hmid.rows hflag a ha
    · -- the action is skipped, so that fewer actions are indexed than have receipts
      cases hstep
      exact ⟨h.fills, h.nodup, by omega, fun _ hall => absurd hall (by omega)⟩

end FlonCore
