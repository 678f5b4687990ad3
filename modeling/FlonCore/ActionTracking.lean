import FlonCore.ActionReceipts
import Mathlib.Data.UInt

/-!
# The traces a transaction still owes

At any moment of its execution a transaction has executed some of its traces,
each with one receipt, and owes the others. Scheduling a trace adds it to those
that are owed, a receipt takes one off. Everything else that is known of traces
and receipts, their creators, receivers, depths and sequence numbers, is kept up
by these two steps.
-/

namespace FlonCore.Execution
open Library List
open TransactionContext
variable {chain : Chain} {c : ApplyContext} {t t' : TransactionContext}

structure Sequenced (chain : Chain) (t : TransactionContext) : Prop where
  global : chain.readOnly = false → Stamped t.globalSequences t.globalActionSequence
  recv : chain.readOnly = false → ∀ a, Stamped (t.recvSequences a) (t.recvSequenceOf a)
  zero : chain.readOnly = true →
    ∀ e ∈ t.executed, e.receipt.globalSequence = 0 ∧ e.receipt.recvSequence = 0

theorem Sequenced.receipt {receipt : ActionReceipt} (h : Sequenced chain t)
    (hr : Receipted chain c t receipt t') : Sequenced chain t' := by
  refine ⟨fun hread => ?_, fun hread a => ?_, fun hread e he => ?_⟩
  · obtain ⟨hstamp, hcounter⟩ := hr.counted.global hread
    have hnext := (h.global hread).stamp
    rw [globalSequences, hr.executed, map_append, hcounter]
    rwa [← hstamp] at hnext ⊢
  · obtain ⟨hstamp, hcounter⟩ := hr.counted.recv hread
    rw [recvSequences, hr.executed, filter_append, map_append, hcounter]
    by_cases ha : a = c.receiver
    · subst ha
      have hnext := (h.recv hread c.receiver).stamp
      simpa [hr.receiver, hstamp, recvSequences] using hnext
    · have hne : c.receiver ≠ a := fun he => ha he.symm
      simpa [hr.receiver, hne, ha, recvSequences] using h.recv hread a
  · rw [hr.executed, mem_append, mem_singleton] at he
    rcases he with he | rfl
    · exact h.zero hread e he
    · exact hr.counted.zero hread

structure Tracked (chain : Chain) (t : TransactionContext) (owed : List ℕ) : Prop where
  small : t.actionTraces.length < 2 ^ 32
  ordinals : t.actionTraces.map (·.actionOrdinal) = List.range' 1 t.actionTraces.length
  creators : ∀ trace ∈ t.actionTraces, trace.creatorActionOrdinal < trace.actionOrdinal
  balanced : Outstanding (t.executed.map (·.actionOrdinal)) owed t.actionTraces.length
  receipts : ∀ e ∈ t.executed, ∃ trace, t.actionTraces[e.actionOrdinal - 1]? = some trace ∧
    trace.receipt = some e.receipt
  firsts : ∀ e ∈ t.executed,
    e.firstReceiverActionOrdinal ∈ t.executed.map (·.actionOrdinal)
  receivers : (t.executed.map fun e =>
    (e.firstReceiverActionOrdinal, e.receipt.receiver)).Nodup
  depth : ∀ e ∈ t.executed, e.recurseDepth ≤ chain.maxInlineActionDepth.toNat
  sequenced : Sequenced chain t

namespace Tracked
variable {owed owed' : List ℕ}

theorem of_perm (h : Tracked chain t owed) (hp : owed'.Perm owed) : Tracked chain t owed' :=
  { h with balanced := h.balanced.of_perm hp }

theorem schedule {act : Action} {receiver : AccountName} {contextFree : Bool}
    {creator ancestor : ℕ} (h : Tracked chain t owed) (hcreator : creator ≤ t.actionTraces.length)
    (hsmall : t.actionTraces.length + 1 < 2 ^ 32) :
    Tracked chain (t.scheduleAction act receiver contextFree creator ancestor).2
      ((t.actionTraces.length + 1) :: owed) where
  small := by simpa [scheduleAction] using hsmall
  ordinals := by
    simp only [scheduleAction, map_append, map_cons, map_nil, length_append, length_singleton,
      h.ordinals, u32_of_lt hsmall, range'_concat]
    simp [add_comm]
  creators := by
    intro trace htrace
    simp only [scheduleAction, mem_append, mem_singleton] at htrace
    rcases htrace with htrace | rfl
    · exact h.creators trace htrace
    · rw [u32_of_lt hsmall]
      exact Nat.lt_succ_of_le hcreator
  balanced := by
    have hnext := h.balanced.create
    simpa [scheduleAction] using hnext
  receipts := by
    intro e he
    obtain ⟨trace, hget, hreceipt⟩ := h.receipts e he
    exact ⟨trace, getElem?_append_left (List.getElem?_eq_some_iff.mp hget).1 ▸ hget, hreceipt⟩
  firsts := h.firsts
  receivers := h.receivers
  depth := h.depth
  sequenced := ⟨h.sequenced.global, h.sequenced.recv, h.sequenced.zero⟩

theorem receipt {receipt : ActionReceipt} (h : Tracked chain t (c.actionOrdinal :: owed))
    (hr : Receipted chain c t receipt t')
    (hfirst : c.firstReceiverActionOrdinal ∈ t.executed.map (·.actionOrdinal) ∨
      c.firstReceiverActionOrdinal = c.actionOrdinal)
    (hfresh : ∀ e ∈ t.executed, e.firstReceiverActionOrdinal = c.firstReceiverActionOrdinal →
      e.receipt.receiver ≠ c.receiver)
    (hdepth : c.recurseDepth ≤ chain.maxInlineActionDepth.toNat) : Tracked chain t' owed := by
  have hlength : t'.actionTraces.length = t.actionTraces.length := by
    rw [hr.actionTraces, length_modify]
  have hordinals : t'.executed.map (·.actionOrdinal) =
      t.executed.map (·.actionOrdinal) ++ [c.actionOrdinal] := by
    rw [hr.executed, map_append, map_singleton]
  have hmem : ∀ e, e ∈ t'.executed ↔ e ∈ t.executed ∨ e =
      ⟨c.actionOrdinal, c.firstReceiverActionOrdinal, c.recurseDepth, receipt⟩ := by
    intro e
    rw [hr.executed, mem_append, mem_singleton]
  refine ⟨hlength ▸ h.small, ?_, ?_, ?_, ?_, ?_, ?_, ?_, h.sequenced.receipt hr⟩
  · rw [hlength, ← h.ordinals]
    exact hr.map_actionTraces fun trace => rfl
  · intro trace htrace
    have hpairs := hr.map_actionTraces (g := fun trace : ActionTrace =>
      (trace.creatorActionOrdinal, trace.actionOrdinal)) fun trace => rfl
    obtain ⟨old, hold, heq⟩ := mem_map.mp (hpairs ▸ mem_map_of_mem htrace)
    rw [Prod.mk.injEq] at heq
    rw [← heq.1, ← heq.2]
    exact h.creators old hold
  · rw [hordinals, hlength]
    exact h.balanced.execute
  · intro e he
    rcases (hmem e).mp he with he | rfl
    · -- Its trace is another one, which keeps its receipt.
      obtain ⟨trace, hget, hreceipt⟩ := h.receipts e he
      have hdone : e.actionOrdinal ∈ t.executed.map (·.actionOrdinal) := mem_map_of_mem he
      have hne : e.actionOrdinal ≠ c.actionOrdinal := fun heq =>
        h.balanced.not_mem_done (heq ▸ hdone)
      have hpos := h.balanced.mem_done hdone
      have hindex : c.actionOrdinal - 1 ≠ e.actionOrdinal - 1 := by
        have := hr.pos
        omega
      refine ⟨trace, ?_, hreceipt⟩
      rw [hr.actionTraces, getElem?_modify_ne _ _ hindex, hget]
    · have hlt : c.actionOrdinal - 1 < t.actionTraces.length := by
        have := hr.pos
        have := hr.le
        omega
      refine ⟨{ t.actionTraces[c.actionOrdinal - 1] with receipt := some receipt }, ?_, rfl⟩
      rw [hr.actionTraces, getElem?_modify_eq, getElem?_eq_getElem hlt]
      rfl
  · intro e he
    rw [hordinals, mem_append, mem_singleton]
    rcases (hmem e).mp he with he | rfl
    · exact .inl (h.firsts e he)
    · exact hfirst
  · rw [hr.executed, map_append, map_singleton]
    refine nodup_append.mpr ⟨h.receivers, nodup_singleton _, ?_⟩
    intro p hp q hq
    obtain ⟨e, he, rfl⟩ := mem_map.mp hp
    rw [mem_singleton.mp hq, hr.receiver]
    intro heq
    exact hfresh e he (congrArg Prod.fst heq) (congrArg Prod.snd heq)
  · intro e he
    rcases (hmem e).mp he with he | rfl
    · exact h.depth e he
    · exact hdepth

theorem length_executed (h : Tracked chain t []) : t.executed.length = t.actionTraces.length := by
  have hlength := h.balanced.of_nil.length_eq
  rwa [length_map, length_range'] at hlength

theorem executed_once {trace : ActionTrace} (h : Tracked chain t [])
    (htrace : trace ∈ t.actionTraces) : ∃ e, trace.receipt = some e.receipt ∧
      t.executed.filter (fun e => e.actionOrdinal = trace.actionOrdinal) = [e] := by
  have hperm := h.balanced.of_nil
  have hnodup := hperm.nodup_iff.mpr nodup_range'
  obtain ⟨k, hk⟩ := mem_iff_getElem?.mp htrace
  have hordinal : trace.actionOrdinal = 1 + k := by
    have hget : (t.actionTraces.map (·.actionOrdinal))[k]? = some trace.actionOrdinal := by
      rw [getElem?_map, hk, Option.map_some]
    rw [h.ordinals, List.getElem?_eq_some_iff] at hget
    obtain ⟨hlt, hget⟩ := hget
    rw [← hget, getElem_range', one_mul]
  have hmem : trace.actionOrdinal ∈ t.executed.map (·.actionOrdinal) := by
    rw [hperm.mem_iff, ← h.ordinals]
    exact mem_map_of_mem htrace
  obtain ⟨e, he, hsame⟩ := mem_map.mp hmem
  obtain ⟨trace', hget, hreceipt⟩ := h.receipts e he
  refine ⟨e, ?_, hsame ▸ filter_eq_singleton hnodup he⟩
  rw [hsame, hordinal, Nat.add_sub_cancel_left, hk] at hget
  cases hget
  exact hreceipt

end Tracked

end FlonCore.Execution
