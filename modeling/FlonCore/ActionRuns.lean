import FlonCore.ActionOrder

/-!
# Executions of whole transactions

The bounds of the model are no restriction. A loop over receivers that ends at
all ends within `2 ^ 32` rounds, since otherwise its index wraps around below the
number of receivers for ever, and more levels of recursion than the maximal
depth of inline actions are never used. So what a transaction that executes
without an exception has done is what the model says it has.
-/

namespace FlonCore.Execution
open Library
variable {chain : Chain} {c c' : ApplyContext} {t t' : TransactionContext} {depth levels i fuel : ℕ}

theorem execOne_frame (h : execOne chain (c, t) = .ok (c', t')) :
    c'.recurseDepth = c.recurseDepth ∧ c.notified.length ≤ c'.notified.length := by
  obtain ⟨account, -, h⟩ := bind_eq_ok.mp h
  obtain ⟨⟨mid, tmid⟩, hcode, h⟩ := bind_eq_ok.mp h
  obtain ⟨after, -, h⟩ := bind_eq_ok.mp h
  cases h
  refine runCode_induction (P := fun c' _ => c'.recurseDepth = c.recurseDepth ∧
    c.notified.length ≤ c'.notified.length) ?_ ⟨rfl, le_rfl⟩ hcode
  rintro mid tmid c' t' ⟨hdepth, hle⟩ (⟨rfl, rfl⟩ | ⟨-, hs⟩)
  · exact ⟨hdepth, hle⟩
  · refine ⟨hs.same.1.trans hdepth, hle.trans ?_⟩
    cases hs <;> simp

/-- A loop over receivers that returns has fewer than `2 ^ 32` of them, so that its index does
not wrap around and fuel for `2 ^ 32` rounds is enough. -/
theorem execNotified_fuel {fuel' : ℕ} (h : execNotified chain fuel i (c, t) = .returns (c', t'))
    (hi : i < 2 ^ 32) (hfuel : 2 ^ 32 ≤ fuel' + i) :
    execNotified chain fuel' i (c, t) = .returns (c', t') := by
  refine (execNotified_induction (P := fun i c t => i < 2 ^ 32 → c.notified.length < 2 ^ 32 ∧
    ∀ fuel', 2 ^ 32 ≤ fuel' + i →
      execNotified chain fuel' i (c, t) = .returns (c', t')) ?_ ?_ h hi).2 fuel' hfuel
  · intro i hget hi
    refine ⟨(List.getElem?_eq_none_iff.mp hget).trans_lt hi, fun fuel' _ => ?_⟩
    unfold execNotified
    rw [hget]
  · intro i c t receiver ordinal mid tmid hget hone hrest hi
    obtain ⟨hmid, hrest⟩ := hrest (Nat.mod_lt _ (by decide))
    have hlength : c.notified.length < 2 ^ 32 := (execOne_frame hone).2.trans_lt hmid
    have hlt := (List.getElem?_eq_some_iff.mp hget).1
    refine ⟨hlength, fun fuel' hfuel => ?_⟩
    obtain ⟨left, rfl⟩ : ∃ left, fuel' = left + 1 := ⟨fuel' - 1, by omega⟩
    unfold execNotified
    rw [hget]
    refine Outcome.bind_eq_returns.mpr ⟨(mid, tmid), by rw [hone]; rfl, hrest left ?_⟩
    rw [u32_of_lt (by omega)]
    omega

theorem execNotified_recurseDepth (h : execNotified chain fuel i (c, t) = .returns (c', t')) :
    c'.recurseDepth = c.recurseDepth := by
  refine execNotified_induction (P := fun _ c _ => c'.recurseDepth = c.recurseDepth)
    (fun _ _ => rfl) ?_ h
  intro i c t receiver ordinal mid tmid _ hone hrest
  exact hrest.trans (execOne_frame hone).1

theorem execReceivers_recurseDepth {ordinal : ℕ}
    (h : execReceivers chain depth ordinal t = .returns (c', t')) : c'.recurseDepth = depth := by
  obtain ⟨trace, -, h⟩ := Outcome.bind_eq_returns.mp h
  obtain ⟨⟨mid, tmid⟩, hone, h⟩ := Outcome.bind_eq_returns.mp h
  rw [Outcome.ofExcept_eq_returns] at hone
  exact (execNotified_recurseDepth h).trans (execOne_frame hone).1

theorem execInline_congr
    {execute execute' : TransactionContext → ℕ → Outcome Failure TransactionContext}
    (h : c.recurseDepth < chain.maxInlineActionDepth.toNat → execute = execute') :
    execInline chain execute c t = execInline chain execute' c t := by
  unfold execInline
  by_cases hdepth : c.recurseDepth < chain.maxInlineActionDepth.toNat
  · rw [h hdepth]
  · simp only [hdepth, decide_false]
    rfl

theorem executeAction_levels (h : chain.maxInlineActionDepth.toNat ≤ depth + levels) :
    executeAction chain (levels + 1) depth = executeAction chain levels depth := by
  induction levels generalizing depth with
  | zero =>
    funext t ordinal
    refine Outcome.bind_congr fun ct hct => execInline_congr fun hlt => ?_
    rw [execReceivers_recurseDepth hct] at hlt
    omega
  | succ levels ih =>
    funext t ordinal
    exact Outcome.bind_congr fun ct _ => execInline_congr fun _ => ih (by omega)

/-- Account 1 answers action 7 with a notification of account 2, an inline action and a
context-free inline action. -/
def answeringChain (readOnly : Bool) : Chain where
  maxInlineActionDepth := 4
  readOnly := readOnly
  skipTrxChecks := false
  isAccount := fun _ _ => true
  checkInline := fun _ _ => .ok ()
  code := fun c _ => .ok (if c.receiver = 1 ∧ c.act.name = 7 then
    [.requireRecipient 2, .executeInline ⟨3, 8, [], []⟩,
      .executeContextFreeInline ⟨2, 9, [], []⟩] else [])
  actDigest := fun _ _ => 0

def freshContext : TransactionContext := ⟨[], [], 0, fun _ => some ⟨0, 0, 0, 0⟩⟩

def twoActions : Transaction where
  contextFreeActions := []
  actions := [⟨1, 7, [], []⟩, ⟨1, 7, [], []⟩]
  delay := 0
  applyContextFree := true
  length_contextFreeActions := by decide
  length_actions := by decide

/-- In a transaction that executes without an exception every trace is executed once and has
the one receipt. Its creator comes before it, a receiver has at most one receipt for an action,
and no execution is deeper than the maximal depth of inline actions. The receipts are numbered
consecutively in the order of execution, globally and for each receiver, unless the transaction
is read-only. -/
theorem actions_executed_once {chain : Chain} {trx : Transaction} {t t' : TransactionContext}
    (htraces : t.actionTraces = []) (hexecuted : t.executed = [])
    (h : trx.exec chain t = .returns t') :
    (∀ trace ∈ t'.actionTraces, ∃ e, trace.receipt = some e.receipt ∧
      t'.executed.filter (fun e => e.actionOrdinal = trace.actionOrdinal) = [e]) ∧
    t'.executed.length = t'.actionTraces.length ∧
    t'.actionTraces.map (·.actionOrdinal) = List.range' 1 t'.actionTraces.length ∧
    (∀ trace ∈ t'.actionTraces, trace.creatorActionOrdinal < trace.actionOrdinal) ∧
    (t'.executed.map fun e => (e.firstReceiverActionOrdinal, e.receipt.receiver)).Nodup ∧
    (∀ e ∈ t'.executed, e.recurseDepth ≤ chain.maxInlineActionDepth.toNat) ∧
    (chain.readOnly = false → t'.globalSequences.IsChain (fun a b => b = a + 1) ∧
      ∀ receiver, (t'.recvSequences receiver).IsChain fun a b => b = a + 1) ∧
    (chain.readOnly = true →
      ∀ e ∈ t'.executed, e.receipt.globalSequence = 0 ∧ e.receipt.recvSequence = 0) := by
  have ht : Tracked chain t' [] := exec_tracked htraces hexecuted h
  refine ⟨fun trace htrace => ht.executed_once htrace, ht.length_executed, ht.ordinals, ht.creators,
    ht.receivers, ht.depth, fun hread => ⟨(ht.sequenced.global hread).1, ?_⟩, ht.sequenced.zero⟩
  exact fun receiver => (ht.sequenced.recv hread receiver).1

theorem two_actions_executed_once : ∃ t',
    twoActions.exec (answeringChain false) freshContext = .returns t' ∧
      t'.executed.map (·.actionOrdinal) = [1, 3, 5, 4, 2, 6, 8, 7] ∧
      t'.globalSequences.IsChain (fun a b => b = a + 1) ∧
      ∀ receiver, (t'.recvSequences receiver).IsChain fun a b => b = a + 1 := by
  obtain ⟨t', h⟩ : ∃ t', twoActions.exec (answeringChain false) freshContext = .returns t' :=
    Outcome.isReturns_iff.mp (by decide +kernel)
  obtain ⟨-, -, -, -, -, -, hsequences, -⟩ := actions_executed_once rfl rfl h
  refine ⟨t', h, ?_, hsequences rfl⟩
  have hget : (twoActions.exec (answeringChain false) freshContext).getD freshContext = t' := by
    rw [h]
    rfl
  rw [← hget]
  decide +kernel

/-- A read-only transaction does not count: its receipts all have sequence number zero. -/
theorem read_only_not_consecutive : ∃ t',
    twoActions.exec (answeringChain true) freshContext = .returns t' ∧
      ¬ t'.globalSequences.IsChain (fun a b => b = a + 1) ∧
      ¬ (t'.recvSequences 1).IsChain (fun a b => b = a + 1) := by
  obtain ⟨t', h⟩ : ∃ t', twoActions.exec (answeringChain true) freshContext = .returns t' :=
    Outcome.isReturns_iff.mp (by decide +kernel)
  have hget : (twoActions.exec (answeringChain true) freshContext).getD freshContext = t' := by
    rw [h]
    rfl
  refine ⟨t', h, ?_⟩
  rw [← hget]
  decide +kernel

end FlonCore.Execution
