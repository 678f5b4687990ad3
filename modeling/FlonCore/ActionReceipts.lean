import FlonCore.ActionExecution
import FlonCore.Library.Jobs

/-!
# What a call of contract code and a receipt change

A call of contract code changes nothing or schedules one trace, whose ordinal
it adds to one of the three lists of its context. A receipt goes to the trace
of the context and counts the global sequence and that of its receiver, except
in a read-only transaction.
-/

namespace FlonCore.Execution
open Library List
open TransactionContext

variable {chain : Chain} {c c' : ApplyContext} {t t' : TransactionContext}

theorem getActionTrace_eq_ok {ordinal : ℕ} {trace : ActionTrace} :
    t.getActionTrace ordinal = .ok trace ↔
      0 < ordinal ∧ t.actionTraces[ordinal - 1]? = some trace := by
  unfold getActionTrace
  by_cases h : 0 < ordinal
  · cases t.actionTraces[ordinal - 1]? <;> simp [h]
  · simp [h]

def TransactionContext.nextOrdinal (t : TransactionContext) : ℕ :=
  u32 (t.actionTraces.length + 1)

/-- The context `c'` is `c` with an ordinal added: as that of a receiver not yet notified, or as
that of an inline action. -/
inductive Scheduled (c : ApplyContext) (ordinal : ℕ) : ApplyContext → Prop
  | notified (act : Action) (recipient : AccountName) (fresh : c.hasRecipient recipient = false) :
    Scheduled c ordinal { c with
      act := act
      notified := c.notified ++ [(recipient, ordinal)] }
  | inlineAction (act : Action) : Scheduled c ordinal { c with
      act := act
      inlineActions := c.inlineActions ++ [ordinal] }
  | cfaInlineAction (act : Action) : Scheduled c ordinal { c with
      act := act
      cfaInlineActions := c.cfaInlineActions ++ [ordinal] }

def Calls (c : ApplyContext) (t : TransactionContext) (c' : ApplyContext)
    (t' : TransactionContext) : Prop :=
  (c' = c ∧ t' = t) ∨
    (∃ act receiver contextFree, t' = (t.scheduleAction act receiver contextFree
      c.actionOrdinal c.firstReceiverActionOrdinal).2) ∧ Scheduled c t.nextOrdinal c'

theorem reread_eq_ok (h : c.reread t = .ok c') : ∃ act, c' = { c with act := act } := by
  obtain ⟨trace, -, h⟩ := bind_eq_ok.mp h
  exact ⟨trace.act, (Except.ok.inj h).symm⟩

theorem requireRecipient_calls {recipient : AccountName}
    (h : c.requireRecipient t recipient = .ok (c', t')) : Calls c t c' t' := by
  unfold ApplyContext.requireRecipient at h
  by_cases hhas : c.hasRecipient recipient = true
  · rw [if_pos hhas] at h
    cases h
    exact .inl ⟨rfl, rfl⟩
  · rw [if_neg hhas] at h
    obtain ⟨⟨ordinal, mid⟩, hcopy, h⟩ := bind_eq_ok.mp h
    obtain ⟨provided, -, hcopy⟩ := bind_eq_ok.mp hcopy
    obtain ⟨after, hafter, h⟩ := bind_eq_ok.mp h
    obtain ⟨act, rfl⟩ := reread_eq_ok hafter
    cases h
    cases hcopy
    exact .inr ⟨⟨_, _, _, rfl⟩, .notified act recipient (Bool.eq_false_of_not_eq_true hhas)⟩

theorem executeInline_calls {a : Action} (h : c.executeInline chain t a = .ok (c', t')) :
    Calls c t c' t' := by
  iterate 2 obtain ⟨-, h⟩ := seq_eq_ok.mp h
  obtain ⟨after, hafter, h⟩ := bind_eq_ok.mp h
  obtain ⟨act, rfl⟩ := reread_eq_ok hafter
  cases h
  exact .inr ⟨⟨_, _, _, rfl⟩, .inlineAction act⟩

theorem executeContextFreeInline_calls {a : Action}
    (h : c.executeContextFreeInline chain t a = .ok (c', t')) : Calls c t c' t' := by
  iterate 2 obtain ⟨-, h⟩ := seq_eq_ok.mp h
  obtain ⟨after, hafter, h⟩ := bind_eq_ok.mp h
  obtain ⟨act, rfl⟩ := reread_eq_ok hafter
  cases h
  exact .inr ⟨⟨_, _, _, rfl⟩, .cfaInlineAction act⟩

theorem run_calls {call : ContractCall} (h : call.run chain (c, t) = .ok (c', t')) :
    Calls c t c' t' := by
  cases call with
  | requireRecipient recipient => exact requireRecipient_calls h
  | executeInline a => exact executeInline_calls h
  | executeContextFreeInline a => exact executeContextFreeInline_calls h

theorem runCode_induction {P : ApplyContext → TransactionContext → Prop}
    (hstep : ∀ c t c' t', P c t → Calls c t c' t' → P c' t') (hP : P c t)
    (h : runCode chain (c, t) = .ok (c', t')) : P c' t' := by
  unfold runCode at h
  split at h
  · cases h
    exact hP
  · obtain ⟨calls, -, h⟩ := bind_eq_ok.mp h
    have hrun := @foldlM_eq_ok_induction _ _ _ (ContractCall.run chain) (fun _ ct => P ct.1 ct.2)
      (fun _ _ _ _ hP hcall => hstep _ _ _ _ hP (run_calls hcall)) calls [] _ _ hP h
    exact hrun

namespace TransactionContext

variable (t)

def recvSequenceOf (receiver : AccountName) : UInt64 :=
  ((t.metadata receiver).map AccountMetadata.recvSequence).getD 0

def globalSequences : List UInt64 :=
  t.executed.map fun e => e.receipt.globalSequence

def recvSequences (receiver : AccountName) : List UInt64 :=
  (t.executed.filter fun e => e.receipt.receiver = receiver).map fun e => e.receipt.recvSequence

end TransactionContext

structure SameCounts (t t' : TransactionContext) : Prop where
  actionTraces : t'.actionTraces = t.actionTraces
  executed : t'.executed = t.executed
  globalActionSequence : t'.globalActionSequence = t.globalActionSequence
  recvSequenceOf : t'.recvSequenceOf = t.recvSequenceOf

theorem SameCounts.trans {t t' t'' : TransactionContext} (h : SameCounts t t')
    (h' : SameCounts t' t'') : SameCounts t t'' :=
  ⟨h'.1.trans h.1, h'.2.trans h.2, h'.3.trans h.3, h'.4.trans h.4⟩

theorem nextAuthSequence_same {actor : AccountName} {sequence : UInt64}
    (h : t.nextAuthSequence actor = .ok (sequence, t')) : SameCounts t t' := by
  obtain ⟨account, haccount, h⟩ := bind_eq_ok.mp h
  rw [getRow_eq_ok] at haccount
  cases h
  refine ⟨rfl, rfl, rfl, funext fun a => ?_⟩
  by_cases ha : a = actor
  · subst ha
    simp [recvSequenceOf, haccount]
  · simp [recvSequenceOf, ha]

theorem authSequences_same {auths : List PermissionLevel}
    {acc acc' : List (AccountName × UInt64) × TransactionContext}
    (h : auths.foldlM authSequences acc = .ok acc') : SameCounts acc.2 acc'.2 := by
  refine @foldlM_eq_ok_induction _ _ _ authSequences (fun _ s => SameCounts acc.2 s.2) ?_
    auths [] acc acc' ⟨rfl, rfl, rfl, rfl⟩ h
  intro seen auth s s' hs hstep
  obtain ⟨⟨sequence, mid⟩, hnext, hstep⟩ := bind_eq_ok.mp hstep
  cases hstep
  exact hs.trans (nextAuthSequence_same hnext)

structure Counted (chain : Chain) (receiver : AccountName) (t : TransactionContext)
    (globalSequence recvSequence : UInt64) (t' : TransactionContext) : Prop where
  global : chain.readOnly = false → globalSequence = t.globalActionSequence + 1 ∧
    t'.globalActionSequence = t.globalActionSequence + 1
  recv : chain.readOnly = false → recvSequence = t.recvSequenceOf receiver + 1 ∧
    t'.recvSequenceOf = Function.update t.recvSequenceOf receiver (t.recvSequenceOf receiver + 1)
  zero : chain.readOnly = true → globalSequence = 0 ∧ recvSequence = 0

structure Receipted (chain : Chain) (c : ApplyContext) (t : TransactionContext)
    (receipt : ActionReceipt) (t' : TransactionContext) : Prop where
  pos : 0 < c.actionOrdinal
  le : c.actionOrdinal ≤ t.actionTraces.length
  receiver : receipt.receiver = c.receiver
  actionTraces : t'.actionTraces = t.actionTraces.modify (c.actionOrdinal - 1) fun trace =>
    { trace with receipt := some receipt }
  executed : t'.executed = t.executed ++
    [⟨c.actionOrdinal, c.firstReceiverActionOrdinal, c.recurseDepth, receipt⟩]
  counted : Counted chain c.receiver t receipt.globalSequence receipt.recvSequence t'

theorem Receipted.map_actionTraces {β : Type} {receipt : ActionReceipt} {g : ActionTrace → β}
    (h : Receipted chain c t receipt t')
    (hg : ∀ trace, g { trace with receipt := some receipt } = g trace) :
    t'.actionTraces.map g = t.actionTraces.map g := by
  refine ext_getElem? fun i => ?_
  rw [h.actionTraces, getElem?_map, getElem?_map, getElem?_modify]
  cases t.actionTraces[i]? with
  | none => rfl
  | some trace =>
    by_cases hi : c.actionOrdinal - 1 = i
    · simp [hi, hg]
    · simp [hi]

theorem nextSequences_spec {receiver : AccountName} {globalSequence recvSequence : UInt64}
    {account : AccountMetadata} {mid : TransactionContext}
    (hglobal : t.nextGlobalSequence chain.readOnly = (globalSequence, mid))
    (haccount : mid.metadata receiver = some account)
    (hrecv : mid.nextRecvSequence chain.readOnly receiver account = (recvSequence, t')) :
    t'.actionTraces = t.actionTraces ∧ t'.executed = t.executed ∧
      Counted chain receiver t globalSequence recvSequence t' := by
  cases hread : chain.readOnly with
  | true =>
    rw [hread] at hglobal hrecv
    cases hglobal
    cases hrecv
    exact ⟨rfl, rfl, by simp [hread], by simp [hread], fun _ => ⟨rfl, rfl⟩⟩
  | false =>
    rw [hread] at hglobal hrecv
    cases hglobal
    cases hrecv
    have hmeta : t.metadata receiver = some account := haccount
    have hcounter : t.recvSequenceOf receiver = account.recvSequence := by
      simp [recvSequenceOf, hmeta]
    refine ⟨rfl, rfl, fun _ => ⟨rfl, rfl⟩, fun _ => ⟨by rw [hcounter], funext fun a => ?_⟩,
      by simp [hread]⟩
    by_cases ha : a = receiver
    · subst ha
      simp [hmeta, recvSequenceOf]
    · simp [ha, recvSequenceOf]

theorem writeReceipt_spec (h : writeReceipt chain c t = .ok t') :
    ∃ receipt, Receipted chain c t receipt t' := by
  obtain ⟨trace, htrace, h⟩ := bind_eq_ok.mp h
  rw [getActionTrace_eq_ok] at htrace
  have hlt := (List.getElem?_eq_some_iff.mp htrace.2).1
  rcases hglobal : t.nextGlobalSequence chain.readOnly with ⟨globalSequence, mid⟩
  rw [hglobal] at h
  obtain ⟨account, haccount, h⟩ := bind_eq_ok.mp h
  rw [getRow_eq_ok] at haccount
  rcases hrecv : mid.nextRecvSequence chain.readOnly c.receiver account with ⟨recvSequence, after⟩
  rw [hrecv] at h
  obtain ⟨first, -, h⟩ := bind_eq_ok.mp h
  obtain ⟨⟨authSequence, last⟩, hlast, h⟩ := bind_eq_ok.mp h
  obtain ⟨htraces, hexecuted, hcounted⟩ := nextSequences_spec hglobal haccount hrecv
  have hsame : SameCounts after last := authSequences_same hlast
  cases h
  refine ⟨⟨c.receiver, chain.actDigest c t, globalSequence, recvSequence, authSequence,
    first.codeSequence.toUInt32, first.abiSequence.toUInt32⟩, htrace.1, by omega, rfl, ?_, ?_, ?_⟩
  · simp only [record, hsame.actionTraces, htraces]
  · simp only [record, hsame.executed, hexecuted]
  · refine ⟨fun hread => ?_, fun hread => ?_, hcounted.zero⟩
    · exact ⟨(hcounted.global hread).1, hsame.globalActionSequence.trans (hcounted.global hread).2⟩
    · exact ⟨(hcounted.recv hread).1, hsame.recvSequenceOf.trans (hcounted.recv hread).2⟩

end FlonCore.Execution
