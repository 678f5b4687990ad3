import FlonCore.ActionTracking

/-!
# Every action of a transaction is executed once

A context owes the execution of the receivers it has not come to yet and of the
inline actions it has collected, and the contexts around it owe theirs. What has
been executed and what is owed is together every trace there is. Executing an
action takes its own trace off what is owed and pays back all it adds, whatever
the contracts do, by induction on the levels of recursion that are left.

Ordinals are 32-bit. The trace after ordinal `2 ^ 32 - 1` gets ordinal zero,
which cannot be executed, so that a transaction with as many traces throws.
-/

namespace FlonCore.Execution
open Library List
open ApplyContext Outcome TransactionContext
variable {chain : Chain} {c c' : ApplyContext} {t t' : TransactionContext}

def ApplyContext.owes (c : ApplyContext) (i : ℕ) : List ℕ :=
  (c.notified.drop i).map Prod.snd ++ (c.cfaInlineActions ++ c.inlineActions)

def ApplyContext.At (c : ApplyContext) (i : ℕ) : Prop :=
  c.notified[i]? = some (c.receiver, c.actionOrdinal)

theorem ApplyContext.At.lt {i : ℕ} (h : c.At i) : i < c.notified.length :=
  (List.getElem?_eq_some_iff.mp h).1

theorem ApplyContext.At.owes {i : ℕ} (h : c.At i) :
    c.owes i = c.actionOrdinal :: c.owes (i + 1) := by
  obtain ⟨hi, hget⟩ := List.getElem?_eq_some_iff.mp h
  rw [ApplyContext.owes, drop_eq_getElem_cons hi, hget]
  rfl

theorem ApplyContext.owes_subset {i j : ℕ} (h : j ≤ i) : c.owes i ⊆ c.owes j := by
  intro ordinal hmem
  rw [owes, mem_append] at hmem ⊢
  exact hmem.imp_left fun hmem =>
    map_subset _ (drop_subset_drop_left c.notified h) hmem

namespace Scheduled
variable {ordinal i : ℕ}

section
variable (h : Scheduled c ordinal c')
include h

theorem at_iff (hi : i < c.notified.length) : c'.At i ↔ c.At i := by
  cases h with
  | notified act recipient fresh =>
    unfold ApplyContext.At
    rw [getElem?_append_left hi]
  | inlineAction act => rfl
  | cfaInlineAction act => rfl

theorem owes_perm (hi : i ≤ c.notified.length) : (c'.owes i).Perm (ordinal :: c.owes i) := by
  cases h with
  | notified act recipient fresh =>
    simp only [owes, drop_append_of_le_length hi, map_append,
      map_singleton, append_assoc, singleton_append]
    exact perm_middle
  | inlineAction act =>
    simp only [owes, ← append_assoc]
    exact perm_append_singleton _ _
  | cfaInlineAction act =>
    simp only [owes, ← append_assoc]
    rw [append_assoc, singleton_append]
    exact perm_middle

theorem take_notified (hi : i ≤ c.notified.length) : c'.notified.take i = c.notified.take i := by
  cases h with
  | notified act recipient fresh => exact take_append_of_le_length hi
  | inlineAction act => rfl
  | cfaInlineAction act => rfl

theorem nodup_notified (hn : (c.notified.map Prod.fst).Nodup) :
    (c'.notified.map Prod.fst).Nodup := by
  cases h with
  | notified act recipient fresh =>
    rw [map_append, map_singleton]
    refine nodup_append.mpr ⟨hn, nodup_singleton _, ?_⟩
    intro a ha b hb heq
    obtain ⟨p, hp, rfl⟩ := mem_map.mp ha
    rw [mem_singleton.mp hb] at heq
    simp only [hasRecipient, any_eq_false, decide_eq_true_eq] at fresh
    exact fresh p hp heq
  | inlineAction act => exact hn
  | cfaInlineAction act => exact hn

theorem same : c'.recurseDepth = c.recurseDepth ∧
    c'.firstReceiverActionOrdinal = c.firstReceiverActionOrdinal := by
  cases h <;> exact ⟨rfl, rfl⟩

end

end Scheduled

/-- The state of a context that has come to index `i` of its receivers, inside contexts that
owe the traces `outer`. -/
structure Running (chain : Chain) (depth : ℕ) (outer : List ℕ) (i : ℕ) (c : ApplyContext)
    (t : TransactionContext) : Prop where
  tracked : Tracked chain t (c.owes i ++ outer)
  recurseDepth : c.recurseDepth = depth
  depth_le : depth ≤ chain.maxInlineActionDepth.toNat
  nodup : (c.notified.map Prod.fst).Nodup
  notified : ∀ e ∈ t.executed, e.firstReceiverActionOrdinal = c.firstReceiverActionOrdinal →
    e.receipt.receiver ∈ (c.notified.take i).map Prod.fst
  first : c.firstReceiverActionOrdinal ∈ t.executed.map (·.actionOrdinal) ∨
    (c.notified[i]?).map Prod.snd = some c.firstReceiverActionOrdinal
  le_executed : i ≤ t.executed.length

variable {depth i : ℕ} {outer : List ℕ}

theorem Running.schedule {act : Action} {receiver : AccountName} {contextFree : Bool}
    (h : Running chain depth outer i c t) (hat : c.At i)
    (hsmall : t.actionTraces.length + 1 < 2 ^ 32) (hs : Scheduled c t.nextOrdinal c') :
    Running chain depth outer i c' (t.scheduleAction act receiver contextFree c.actionOrdinal
      c.firstReceiverActionOrdinal).2 := by
  have hle := hat.lt.le
  have howed : c.actionOrdinal ∈ c.owes i ++ outer := by
    rw [hat.owes]
    exact mem_cons_self
  have hnext : t.nextOrdinal = t.actionTraces.length + 1 := u32_of_lt hsmall
  have hget : c'.notified[i]? = c.notified[i]? := by
    have hat' : c'.At i := (hs.at_iff hat.lt).mpr hat
    cases hs <;> exact hat'.trans hat.symm
  refine ⟨?_, hs.same.1.trans h.recurseDepth, h.depth_le, hs.nodup_notified h.nodup, ?_, ?_,
    h.le_executed⟩
  · refine (h.tracked.schedule (h.tracked.balanced.mem_pending howed).2 hsmall).of_perm ?_
    rw [← hnext, ← cons_append]
    exact (hs.owes_perm hle).append_right outer
  · rw [hs.take_notified hle, hs.same.2]
    exact h.notified
  · rw [hs.same.2, hget]
    exact h.first

def Underway (chain : Chain) (depth : ℕ) (outer : List ℕ) (i : ℕ) (c : ApplyContext)
    (t : TransactionContext) : Prop :=
  Running chain depth outer i c t ∨ 0 ∈ c.owes i

theorem Underway.calls (hcall : Calls c t c' t') (hat : c.At i)
    (h : Underway chain depth outer i c t) : c'.At i ∧ Underway chain depth outer i c' t' := by
  rcases hcall with ⟨rfl, rfl⟩ | ⟨⟨act, receiver, contextFree, rfl⟩, hs⟩
  · exact ⟨hat, h⟩
  · refine ⟨(hs.at_iff hat.lt).mpr hat, ?_⟩
    have hperm := hs.owes_perm hat.lt.le
    rcases h with h | h
    · by_cases hsmall : t.actionTraces.length + 1 < 2 ^ 32
      · exact .inl (h.schedule hat hsmall hs)
      · -- The ordinals are used up.
        have hlength : t.actionTraces.length + 1 = 2 ^ 32 := by
          have := h.tracked.small
          omega
        have hzero : t.nextOrdinal = 0 := by
          rw [nextOrdinal, hlength]
          rfl
        exact .inr (hperm.mem_iff.mpr (hzero ▸ mem_cons_self))
    · exact .inr (hperm.mem_iff.mpr (mem_cons_of_mem _ h))

theorem Running.receipt {receipt : ActionReceipt} (h : Running chain depth outer i c t)
    (hat : c.At i) (hr : Receipted chain c t receipt t') :
    Running chain depth outer (i + 1) c t' := by
  have hget : c.notified[i]? = some (c.receiver, c.actionOrdinal) := hat
  have hfresh : c.receiver ∉ (c.notified.take i).map Prod.fst := by
    have htake : (c.notified.take (i + 1)).map Prod.fst =
        (c.notified.take i).map Prod.fst ++ [c.receiver] := by
      rw [take_add_one, hget, map_append]
      rfl
    have hn := h.nodup.sublist ((take_sublist (i + 1) c.notified).map Prod.fst)
    rw [htake, nodup_append] at hn
    exact fun hmem => hn.2.2 _ hmem _ (mem_singleton_self _) rfl
  have hfirst : c.firstReceiverActionOrdinal ∈ t.executed.map (·.actionOrdinal) ∨
      c.firstReceiverActionOrdinal = c.actionOrdinal := by
    have hor := h.first
    rw [hget, Option.map_some, Option.some.injEq] at hor
    exact hor.imp_right Eq.symm
  have htracked := h.tracked
  rw [hat.owes, cons_append] at htracked
  refine ⟨htracked.receipt hr hfirst ?_ (h.recurseDepth ▸ h.depth_le), h.recurseDepth, h.depth_le,
    h.nodup, ?_, ?_, ?_⟩
  · intro e he hsame heq
    exact hfresh (heq ▸ h.notified e he hsame)
  · intro e he hsame
    rw [take_add_one, hget, map_append, mem_append]
    rw [hr.executed, mem_append, mem_singleton] at he
    rcases he with he | rfl
    · exact .inl (h.notified e he hsame)
    · exact .inr (by simp [hr.receiver])
  · left
    rw [hr.executed, map_append, mem_append, map_singleton, mem_singleton]
    exact hfirst
  · rw [hr.executed, length_append, length_singleton]
    exact Nat.succ_le_succ h.le_executed

theorem Underway.execOne (hat : c.At i) (h : Underway chain depth outer i c t)
    (hrun : execOne chain (c, t) = .ok (c', t')) : Underway chain depth outer (i + 1) c' t' := by
  obtain ⟨account, -, hrun⟩ := bind_eq_ok.mp hrun
  obtain ⟨⟨mid, tmid⟩, hcode, hrun⟩ := bind_eq_ok.mp hrun
  obtain ⟨after, hwrite, hrun⟩ := bind_eq_ok.mp hrun
  cases hrun
  obtain ⟨hat, h⟩ := runCode_induction (P := fun c t => c.At i ∧ Underway chain depth outer i c t)
    (fun _ _ _ _ h hcall => h.2.calls hcall h.1) ⟨hat, h⟩ hcode
  obtain ⟨receipt, hr⟩ := writeReceipt_spec hwrite
  rcases h with h | h
  · exact .inl (h.receipt hat hr)
  · rw [hat.owes, mem_cons] at h
    exact .inr (h.resolve_left fun hzero => absurd hr.pos (by omega))

theorem Running.index_lt (h : Running chain depth outer i c t) : i < 2 ^ 32 := by
  have hlength := h.tracked.balanced.length_eq
  have hsmall := h.tracked.small
  have hexecuted := h.le_executed
  rw [length_append, length_map, length_range'] at hlength
  omega

theorem Underway.turn {receiver : AccountName} {ordinal : ℕ}
    (h : Underway chain depth outer i c t) : Underway chain depth outer i
      { c with receiver := receiver, actionOrdinal := ordinal } t :=
  h.imp (fun h => ⟨h.tracked, h.recurseDepth, h.depth_le, h.nodup, h.notified, h.first,
    h.le_executed⟩) id

theorem Underway.next (h : Underway chain depth outer (i + 1) c t) :
    Underway chain depth outer (u32 (i + 1)) c t := by
  rcases h with h | h
  · rw [u32_of_lt h.index_lt]
    exact .inl h
  · exact .inr (owes_subset (Nat.mod_le _ _) h)

theorem execNotified_induction {fuel : ℕ} {P : ℕ → ApplyContext → TransactionContext → Prop}
    (hend : ∀ i, c'.notified[i]? = none → P i c' t')
    (hstep : ∀ i c t receiver ordinal mid tmid, c.notified[i]? = some (receiver, ordinal) →
      execOne chain ({ c with receiver := receiver, actionOrdinal := ordinal }, t) =
        .ok (mid, tmid) → P (u32 (i + 1)) mid tmid → P i c t)
    (h : execNotified chain fuel i (c, t) = .returns (c', t')) : P i c t := by
  induction fuel generalizing i c t with
  | zero =>
    unfold execNotified at h
    cases hget : c.notified[i]? with
    | none =>
      rw [hget] at h
      cases h
      exact hend i hget
    | some p =>
      rw [hget] at h
      cases h
  | succ fuel ih =>
    unfold execNotified at h
    cases hget : c.notified[i]? with
    | none =>
      rw [hget] at h
      cases h
      exact hend i hget
    | some p =>
      rw [hget] at h
      obtain ⟨⟨mid, tmid⟩, hone, h⟩ := bind_eq_returns.mp h
      rw [ofExcept_eq_returns] at hone
      exact hstep i c t p.1 p.2 mid tmid hget hone (ih h)

def Collected (chain : Chain) (depth : ℕ) (outer : List ℕ) (c : ApplyContext)
    (t : TransactionContext) : Prop :=
  (Tracked chain t (c.cfaInlineActions ++ c.inlineActions ++ outer) ∧ c.recurseDepth = depth) ∨
    0 ∈ c.cfaInlineActions ++ c.inlineActions

theorem Underway.collected (h : Underway chain depth outer i c t) (hget : c.notified[i]? = none) :
    Collected chain depth outer c t := by
  have howes : c.owes i = c.cfaInlineActions ++ c.inlineActions := by
    rw [owes, drop_eq_nil_of_le (List.getElem?_eq_none_iff.mp hget)]
    rfl
  refine h.imp (fun h => ⟨?_, h.recurseDepth⟩) fun h => howes ▸ h
  exact howes ▸ h.tracked

theorem execNotified_collected {fuel : ℕ} (h : Underway chain depth outer i c t)
    (hrun : execNotified chain fuel i (c, t) = .returns (c', t')) :
    Collected chain depth outer c' t' := by
  refine execNotified_induction (P := fun i c t => Underway chain depth outer i c t →
    Collected chain depth outer c' t') (fun i hget h => h.collected hget) ?_ hrun h
  intro i c t receiver ordinal mid tmid hget hone hrest h
  have hat : { c with receiver := receiver, actionOrdinal := ordinal : ApplyContext }.At i := hget
  exact hrest (Underway.next (Underway.execOne hat h.turn hone))

theorem execReceivers_collected {ordinal : ℕ} (h : Tracked chain t (ordinal :: outer))
    (hdepth : depth ≤ chain.maxInlineActionDepth.toNat)
    (hrun : execReceivers chain depth ordinal t = .returns (c', t')) :
    Collected chain depth outer c' t' := by
  obtain ⟨trace, -, hrun⟩ := bind_eq_returns.mp hrun
  obtain ⟨⟨mid, tmid⟩, hone, hrun⟩ := bind_eq_returns.mp hrun
  rw [ofExcept_eq_returns] at hone
  refine execNotified_collected (Underway.execOne ?_ (.inl ?_) hone) hrun
  · exact rfl
  refine ⟨h, rfl, hdepth, nodup_singleton _, ?_, .inr rfl, Nat.zero_le _⟩
  -- No receiver of this action has been executed, since its first one has not.
  intro e he hsame
  have hfirst := h.firsts e he
  rw [hsame] at hfirst
  exact absurd hfirst h.balanced.not_mem_done

theorem execReceivers_zero {ct : ApplyContext × TransactionContext} :
    execReceivers chain depth 0 t ≠ .returns ct := by
  intro h
  obtain ⟨trace, htrace, -⟩ := bind_eq_returns.mp h
  rw [ofExcept_eq_returns, getActionTrace_eq_ok] at htrace
  exact absurd htrace.1 (lt_irrefl 0)

variable {levels ordinal : ℕ} {ordinals : List ℕ}
  {execute : TransactionContext → ℕ → Outcome Failure TransactionContext}

theorem executeAction_ne_zero (h : executeAction chain levels depth t ordinal = .returns t') :
    ordinal ≠ 0 := by
  rintro rfl
  cases levels with
  | zero =>
    obtain ⟨ct, hreceivers, -⟩ := bind_eq_returns.mp h
    exact execReceivers_zero hreceivers
  | succ levels =>
    obtain ⟨ct, hreceivers, -⟩ := bind_eq_returns.mp h
    exact execReceivers_zero hreceivers

theorem foldlM_ne_zero (hne : ∀ t t' ordinal, execute t ordinal = .returns t' → ordinal ≠ 0)
    (h : ordinals.foldlM execute t = .returns t') : 0 ∉ ordinals := by
  induction ordinals generalizing t with
  | nil => exact not_mem_nil
  | cons ordinal ordinals ih =>
    obtain ⟨mid, hone, h⟩ := bind_eq_returns.mp h
    exact not_mem_cons_of_ne_of_not_mem (hne t mid ordinal hone).symm (ih h)

theorem Tracked.foldlM
    (hexecute : ∀ t t' ordinal outer, Tracked chain t (ordinal :: outer) →
      execute t ordinal = .returns t' → Tracked chain t' outer)
    (ht : Tracked chain t (ordinals ++ outer)) (h : ordinals.foldlM execute t = .returns t') :
    Tracked chain t' outer := by
  induction ordinals generalizing t with
  | nil =>
    cases h
    exact ht
  | cons ordinal ordinals ih =>
    obtain ⟨mid, hone, h⟩ := bind_eq_returns.mp h
    exact ih (hexecute t mid ordinal (ordinals ++ outer) ht hone) h

theorem Collected.execInline (hc : Collected chain depth outer c t)
    (hne : ∀ t t' ordinal, execute t ordinal = .returns t' → ordinal ≠ 0)
    (hexecute : depth < chain.maxInlineActionDepth.toNat → ∀ t t' ordinal outer,
      Tracked chain t (ordinal :: outer) → execute t ordinal = .returns t' →
        Tracked chain t' outer)
    (h : execInline chain execute c t = .returns t') : Tracked chain t' outer := by
  unfold Execution.execInline at h
  by_cases hempty : c.cfaInlineActions = [] ∧ c.inlineActions = []
  · rw [if_pos hempty] at h
    cases h
    simpa [Collected, hempty.1, hempty.2] using fun h => (hc.resolve_right h).1
  · rw [if_neg hempty] at h
    obtain ⟨u, hassert, h⟩ := bind_eq_returns.mp h
    rw [ofExcept_eq_returns, eosAssert_eq_ok, decide_eq_true_eq] at hassert
    obtain ⟨ht, hdepth⟩ := hc.resolve_right (foldlM_ne_zero hne h)
    exact ht.foldlM (hexecute (hdepth ▸ hassert)) h

theorem Tracked.executeAction (ht : Tracked chain t (ordinal :: outer))
    (hdepth : depth ≤ chain.maxInlineActionDepth.toNat)
    (h : executeAction chain levels depth t ordinal = .returns t') : Tracked chain t' outer := by
  induction levels generalizing depth ordinal outer t t' with
  | zero =>
    obtain ⟨⟨c, mid⟩, hreceivers, h⟩ := bind_eq_returns.mp h
    refine (execReceivers_collected ht hdepth hreceivers).execInline ?_ ?_ h
    · intro t t' ordinal hundefined
      cases hundefined
    · intro _ t t' ordinal outer _ hundefined
      cases hundefined
  | succ levels ih =>
    obtain ⟨⟨c, mid⟩, hreceivers, h⟩ := bind_eq_returns.mp h
    refine (execReceivers_collected ht hdepth hreceivers).execInline ?_ ?_ h
    · intro t t' ordinal hrun
      exact executeAction_ne_zero hrun
    · intro hlt t t' ordinal outer ht hrun
      exact ih ht hlt hrun

theorem Tracked.scheduleAll {owed : List ℕ} (contextFree : Bool) (actions : List Action)
    (ht : Tracked chain t owed)
    (hsmall : t.actionTraces.length + actions.length < 2 ^ 32) :
    (scheduleAll contextFree t actions).executed = t.executed ∧
      (scheduleAll contextFree t actions).actionTraces.length =
        t.actionTraces.length + actions.length ∧
      ∃ owed', Tracked chain (scheduleAll contextFree t actions) owed' := by
  induction actions generalizing t owed with
  | nil => exact ⟨rfl, rfl, owed, ht⟩
  | cons act actions ih =>
    rw [length_cons] at hsmall ⊢
    have hnext : Tracked chain (t.scheduleAction act act.account contextFree 0 0).2 _ :=
      ht.schedule (Nat.zero_le _) (by omega)
    have hlength : (t.scheduleAction act act.account contextFree 0 0).2.actionTraces.length =
        t.actionTraces.length + 1 := by
      simp [scheduleAction]
    obtain ⟨hexecuted, hlen, htracked⟩ := ih hnext (by omega)
    refine ⟨hexecuted, ?_, htracked⟩
    exact hlen.trans (by omega)

theorem Tracked.fresh (htraces : t.actionTraces = []) (hexecuted : t.executed = []) :
    Tracked chain t [] := by
  refine ⟨?_, ?_, ?_, ?_, ?_, ?_, ?_, ?_, ?_⟩
  · simp [htraces]
  · simp [htraces]
  · simp [htraces]
  · simp [htraces, hexecuted, Outstanding]
  · simp [hexecuted]
  · simp [hexecuted]
  · simp [hexecuted]
  · simp [hexecuted]
  · refine ⟨fun _ => ?_, fun _ a => ?_, fun _ => ?_⟩
    · simp [hexecuted, globalSequences, Stamped.nil]
    · simp [hexecuted, recvSequences, Stamped.nil]
    · simp [hexecuted]

theorem ite_scheduleAll {p : Prop} [Decidable p] {contextFree : Bool} {actions : List Action} :
    (if p then scheduleAll contextFree t actions else t) =
      scheduleAll contextFree t (if p then actions else []) := by
  split_ifs <;> rfl

theorem schedule_tracked {trx : Transaction} (htraces : t.actionTraces = [])
    (hexecuted : t.executed = []) :
    Tracked chain (trx.schedule t) (List.range' 1 (trx.schedule t).actionTraces.length) := by
  have hfree := trx.length_contextFreeActions
  have hactions := trx.length_actions
  have hfresh : Tracked chain t [] := .fresh htraces hexecuted
  unfold Transaction.schedule
  rw [ite_scheduleAll, ite_scheduleAll]
  have hfree' : (if trx.applyContextFree = true then trx.contextFreeActions else []).length ≤
      1024 * 1024 := by
    split_ifs
    · exact hfree
    · exact Nat.zero_le _
  have hactions' : (if trx.delay = 0 then trx.actions else []).length ≤ 1024 * 1024 := by
    split_ifs
    · exact hactions
    · exact Nat.zero_le _
  have hzero : t.actionTraces.length = 0 := by rw [htraces, length_nil]
  obtain ⟨he, hlen, owed, htracked⟩ := hfresh.scheduleAll true
    (if trx.applyContextFree = true then trx.contextFreeActions else []) (by omega)
  obtain ⟨he', -, owed', htracked'⟩ := htracked.scheduleAll false
    (if trx.delay = 0 then trx.actions else []) (by omega)
  refine htracked'.of_perm ?_
  have hbalanced := htracked'.balanced
  rw [he', he, hexecuted] at hbalanced
  exact List.Perm.symm hbalanced

theorem exec_tracked {trx : Transaction} (htraces : t.actionTraces = [])
    (hexecuted : t.executed = []) (h : trx.exec chain t = .returns t') : Tracked chain t' [] := by
  obtain ⟨after, hrun, h⟩ := bind_eq_returns.mp h
  obtain ⟨u, -, h⟩ := bind_eq_returns.mp h
  obtain rfl : after = t' := pure_eq_returns.mp h
  have ht : Tracked chain (trx.schedule t) _ := schedule_tracked htraces hexecuted
  rw [u32_of_lt ht.small] at hrun
  refine Tracked.foldlM (fun t t' ordinal outer ht => ht.executeAction (Nat.zero_le _)) ?_ hrun
  rwa [append_nil]

end FlonCore.Execution
