import FlonCore.BlockHeaderState
import FlonCore.Library.Assoc
import FlonCore.Library.Streaks
import Mathlib.Data.List.Sort

/-!
# Producer statistics over a range of slots

Every slot of a range belongs to a producer, which produced a block in it, was allowed to
skip it, or missed it. The rows of a range count these for each producer, with the runs of
misses. A contract may compute them in chunks, so the rows of a range are determined by
the rows of its parts.
-/

namespace FlonCore
open Library List Option UInt32
open Streaks

structure ProducerSlotStatsV1 where
  producer : AccountName
  (expected produced missed idleSkipped longestMissedStreak leadingMissedStreak : UInt32)
  trailingMissedStreak : UInt32
deriving DecidableEq, Repr

structure SlotAccumulator where
  result : ProducerSlotStatsV1
  currentMissedStreak : UInt32
  seenMandatoryResult : Bool
deriving DecidableEq, Repr

/-- `std::max`. -/
def maxU32 (a b : UInt32) : UInt32 := if a < b then b else a

def entryAt (byProducer : List (AccountName × SlotAccumulator)) (p : AccountName) :
    SlotAccumulator :=
  let entry := (find byProducer p).getD ⟨⟨0, 0, 0, 0, 0, 0, 0, 0⟩, 0, false⟩
  { entry with result := { entry.result with producer := p } }

/-- The arguments of `calculate_producer_slot_stats_v2` other than the range. -/
structure SlotStatsQuery where
  (previousProducedSlot producedSlot idleIntervalSlots : UInt32)
  actualProducer : AccountName
  resolveSchedule : BlockTimestamp → ProducerAuthoritySchedule

namespace SlotStatsQuery
variable (q : SlotStatsQuery)

def mandatoryFrom : ℕ := q.previousProducedSlot.toNat + max q.idleIntervalSlots.toNat 1

/-- The producer of a slot, undefined where the schedule is empty. -/
def slotProducer (slot : ℕ) : Option AccountName := do
  let timestamp : BlockTimestamp := ⟨UInt32.ofNat slot⟩
  let resolved ← getScheduledProducer (q.resolveSchedule timestamp).producers timestamp
  return if slot = q.producedSlot.toNat then q.actualProducer else resolved.producerName

def countSlot (entry : SlotAccumulator) (slot : ℕ) : SlotAccumulator :=
  if slot = q.producedSlot.toNat then
    { result := { entry.result with
        expected := entry.result.expected + 1
        produced := entry.result.produced + 1 }
      seenMandatoryResult := true
      currentMissedStreak := 0 }
  else if slot < q.mandatoryFrom then
    { entry with result := { entry.result with idleSkipped := entry.result.idleSkipped + 1 } }
  else
    { entry with
      result := { entry.result with
        expected := entry.result.expected + 1
        missed := entry.result.missed + 1
        longestMissedStreak :=
          maxU32 entry.result.longestMissedStreak (entry.currentMissedStreak + 1)
        leadingMissedStreak :=
          if entry.seenMandatoryResult then entry.result.leadingMissedStreak
          else entry.result.leadingMissedStreak + 1 }
      currentMissedStreak := entry.currentMissedStreak + 1 }

def visitSlot (byProducer : List (AccountName × SlotAccumulator)) (slot : ℕ) :
    Option (List (AccountName × SlotAccumulator)) := do
  let slotProducer ← q.slotProducer slot
  return assign byProducer slotProducer (q.countSlot (entryAt byProducer slotProducer) slot)

def slotsBetween (fromSlot toSlot : UInt32) : List ℕ :=
  range' fromSlot.toNat (toSlot.toNat + 1 - fromSlot.toNat)

def calculateProducerSlotStatsV2 (fromSlot toSlot : UInt32) :
    Option (List ProducerSlotStatsV1) := do
  let byProducer ← (slotsBetween fromSlot toSlot).foldlM q.visitSlot []
  return (byProducer.insertionSort fun e f => e.1 ≤ f.1).map fun e =>
    { e.2.result with trailingMissedStreak := e.2.currentMissedStreak }

def mark (slot : ℕ) : Mark :=
  if slot = q.producedSlot.toNat then .hit
  else if slot < q.mandatoryFrom then .skip
  else .miss

def marksOf (p : AccountName) (slots : List ℕ) : List Mark :=
  (slots.filter fun slot => q.slotProducer slot = some p).map q.mark

end SlotStatsQuery

def entryFor (p : AccountName) (s : Streaks) : SlotAccumulator where
  result := ⟨p, UInt32.ofNat (s.hits + s.misses), UInt32.ofNat s.hits, UInt32.ofNat s.misses,
    UInt32.ofNat s.skips, UInt32.ofNat s.longest, UInt32.ofNat s.leading, 0⟩
  currentMissedStreak := UInt32.ofNat s.trailing
  seenMandatoryResult := 0 < s.hits

def rowFor (p : AccountName) (s : Streaks) : ProducerSlotStatsV1 :=
  { (entryFor p s).result with trailingMissedStreak := (entryFor p s).currentMissedStreak }

open SlotStatsQuery

variable {q : SlotStatsQuery} {p : AccountName} {slot : ℕ}

theorem toNat_ofNat_u32 {n : ℕ} (h : n < 2 ^ 32) : (UInt32.ofNat n).toNat = n :=
  toNat_ofNat_of_lt' h

theorem maxU32_ofNat {m n : ℕ} (hm : m < 2 ^ 32) (hn : n < 2 ^ 32) :
    maxU32 (UInt32.ofNat m) (UInt32.ofNat n) = UInt32.ofNat (max m n) := by
  have hlt : UInt32.ofNat m < UInt32.ofNat n ↔ m < n := by
    rw [lt_iff_toNat_lt, toNat_ofNat_u32 hm, toNat_ofNat_u32 hn]
  unfold maxU32
  split_ifs with h
  · rw [max_eq_right (hlt.mp h).le]
  · rw [max_eq_left (not_lt.mp (hlt.not.mp h))]

theorem countSlot_entryFor {s : Streaks} (hlongest : (s.push (q.mark slot)).longest < 2 ^ 32) :
    q.countSlot (entryFor p s) slot = entryFor p (s.push (q.mark slot)) := by
  unfold countSlot
  unfold mark at hlongest ⊢
  by_cases hproduced : slot = q.producedSlot.toNat
  · rw [if_pos hproduced, if_pos hproduced]
    simp [entryFor, push, ofNat_add, add_right_comm]
  rw [if_neg hproduced] at hlongest ⊢
  rw [if_neg hproduced]
  by_cases hidle : slot < q.mandatoryFrom
  · rw [if_pos hidle, if_pos hidle]
    simp only [entryFor, push, ofNat_add]
    rfl
  · rw [if_neg hidle] at hlongest ⊢
    rw [if_neg hidle]
    have hmax := maxU32_ofNat ((le_max_left _ _).trans_lt hlongest)
      ((le_max_right _ _).trans_lt hlongest)
    have hleading : (if decide (0 < s.hits) then UInt32.ofNat s.leading
        else UInt32.ofNat s.leading + 1) =
        UInt32.ofNat (if 0 < s.hits then s.leading else s.leading + 1) := by
      by_cases hs : 0 < s.hits <;> simp [hs, ofNat_add]
    simp only [entryFor, push, ← hmax, ← hleading, ofNat_add, ← Nat.add_assoc]
    rfl

variable {a n : ℕ}

theorem marksOf_append (slots later : List ℕ) :
    q.marksOf p (slots ++ later) = q.marksOf p slots ++ q.marksOf p later := by
  simp [marksOf]

theorem marksOf_singleton (slot : ℕ) :
    q.marksOf p [slot] = if q.slotProducer slot = some p then [q.mark slot] else [] := by
  unfold marksOf
  split_ifs with h <;> simp [h]

theorem mark_zero_ne_miss : q.mark 0 ≠ .miss := by
  have hpos : 0 < q.mandatoryFrom := by
    unfold mandatoryFrom
    omega
  unfold mark
  split_ifs <;> decide

theorem exists_mark_ne (k : Mark) : ∃ slot < 2 ^ 32, q.mark slot ≠ k := by
  have hproduced : q.mark q.producedSlot.toNat = .hit := if_pos rfl
  cases k with
  | hit =>
    by_cases hzero : q.producedSlot.toNat = 0
    · refine ⟨1, by norm_num, ?_⟩
      unfold mark
      rw [if_neg (by omega)]
      split_ifs <;> decide
    · refine ⟨0, by norm_num, ?_⟩
      unfold mark
      rw [if_neg (Ne.symm hzero)]
      split_ifs <;> decide
  | miss => exact ⟨0, by norm_num, mark_zero_ne_miss⟩
  | skip => exact ⟨_, q.producedSlot.toNat_lt, by rw [hproduced]; decide⟩

theorem count_marksOf_lt (h : a + n ≤ 2 ^ 32) (k : Mark) :
    (q.marksOf p (range' a n)).count k < 2 ^ 32 := by
  have hle : (q.marksOf p (range' a n)).count k ≤
      (range' a n).countP fun slot => q.mark slot == k := by
    unfold marksOf
    rw [count_eq_countP, countP_map]
    exact filter_sublist.countP_le
  have hlength : (range' a n).length = n := length_range'
  rcases Nat.lt_or_ge n (2 ^ 32) with hn | hn
  · exact (hle.trans countP_le_length).trans_lt (by omega)
  · obtain ⟨slot, hslot, hmark⟩ := exists_mark_ne k
    refine hle.trans_lt (lt_of_lt_of_le (countP_lt_length_iff.mpr ⟨slot, ?_, ?_⟩) (by omega))
    · rw [mem_range'_1]
      omega
    · simpa using hmark

theorem misses_lt (h : a + n ≤ 2 ^ 32) :
    (ofMarks (q.marksOf p (range' a n))).misses < 2 ^ 32 := by
  rw [(counts_eq _).2.1]
  exact count_marksOf_lt h .miss

structure SlotsVisited (q : SlotStatsQuery) (slots : List ℕ)
    (byProducer : List (AccountName × SlotAccumulator)) : Prop where
  nodup : (keysOf byProducer).Nodup
  find_eq : ∀ p, find byProducer p = if p ∈ slots.filterMap q.slotProducer then
    some (entryFor p (ofMarks (q.marksOf p slots))) else none

theorem marksOf_eq_nil {slots : List ℕ} (h : p ∉ slots.filterMap q.slotProducer) :
    q.marksOf p slots = [] := by
  unfold marksOf
  rw [map_eq_nil_iff, filter_eq_nil_iff]
  intro slot hslot hp
  exact h (mem_filterMap.mpr ⟨slot, hslot, by simpa using hp⟩)

variable {byProducer : List (AccountName × SlotAccumulator)}

theorem SlotsVisited.visitSlot
    (h : SlotsVisited q (range' a n) byProducer) (hn : a + (n + 1) ≤ 2 ^ 32)
    {owner : AccountName} (howner : q.slotProducer (a + n) = some owner) :
    ∃ byProducer', q.visitSlot byProducer (a + n) = some byProducer' ∧
      SlotsVisited q (range' a (n + 1)) byProducer' := by
  have hmarks : ∀ p, q.marksOf p (range' a (n + 1)) = q.marksOf p (range' a n) ++
      if some owner = some p then [q.mark (a + n)] else [] := by
    intro p
    rw [range'_1_concat, marksOf_append, marksOf_singleton, howner]
  have hpush : ofMarks (q.marksOf owner (range' a (n + 1))) =
      (ofMarks (q.marksOf owner (range' a n))).push (q.mark (a + n)) := by
    rw [hmarks, if_pos rfl, ofMarks_concat]
  have hlongest : ((ofMarks (q.marksOf owner (range' a n))).push
      (q.mark (a + n))).longest < 2 ^ 32 := by
    rw [← hpush]
    exact (runs_le _).1.trans_lt (misses_lt hn)
  have hentry : entryAt byProducer owner =
      entryFor owner (ofMarks (q.marksOf owner (range' a n))) := by
    rw [entryAt, h.find_eq owner]
    split_ifs with hmem
    · rfl
    · rw [marksOf_eq_nil hmem]
      rfl
  refine ⟨assign byProducer owner
    (entryFor owner (ofMarks (q.marksOf owner (range' a (n + 1))))), ?_,
    nodup_assign h.nodup _ _, fun p => ?_⟩
  · rw [SlotStatsQuery.visitSlot, howner, bind_eq_bind, bind_some, hentry,
      countSlot_entryFor hlongest, hpush]
    rfl
  · have hmem : p ∈ (range' a (n + 1)).filterMap q.slotProducer ↔
        p ∈ (range' a n).filterMap q.slotProducer ∨ p = owner := by
      rw [range'_1_concat, filterMap_append, mem_append]
      simp [howner]
    rw [find_assign, h.find_eq p]
    by_cases hp : p = owner
    · rw [if_pos hp, if_pos (hmem.mpr (.inr hp)), hp]
    · have hother : q.marksOf p (range' a (n + 1)) = q.marksOf p (range' a n) := by
        rw [hmarks, if_neg fun he => hp (Option.some.inj he).symm, append_nil]
      rw [if_neg hp, hother]
      simp only [hmem, hp, or_false]

theorem isSome_foldlM_visitSlot (slots : List ℕ)
    (byProducer : List (AccountName × SlotAccumulator)) :
    (slots.foldlM q.visitSlot byProducer).isSome ↔
      ∀ slot ∈ slots, (q.slotProducer slot).isSome := by
  induction slots generalizing byProducer with
  | nil => simp
  | cons slot slots ih =>
    cases howner : q.slotProducer slot with
    | none => simp [visitSlot, howner]
    | some owner => simp [visitSlot, howner, ih]

theorem foldlM_visitSlot_range (hn : a + n ≤ 2 ^ 32)
    (hdefined : ∀ slot ∈ range' a n, (q.slotProducer slot).isSome) :
    ∃ byProducer, (range' a n).foldlM q.visitSlot [] = some byProducer ∧
      SlotsVisited q (range' a n) byProducer := by
  induction n with
  | zero => exact ⟨[], rfl, nodup_nil, fun p => rfl⟩
  | succ n ih =>
    rw [range'_1_concat] at hdefined
    rw [forall_mem_append, forall_mem_singleton] at hdefined
    obtain ⟨byProducer, hrun, hvisited⟩ := ih (by omega) hdefined.1
    obtain ⟨owner, howner⟩ := isSome_iff_exists.mp hdefined.2
    obtain ⟨byProducer', hvisit, hvisited'⟩ := hvisited.visitSlot hn howner
    refine ⟨byProducer', ?_, hvisited'⟩
    rw [range'_1_concat, foldlM_append, hrun]
    simp [hvisit]

structure RowsOf (q : SlotStatsQuery) (slots : List ℕ) (rows : List ProducerSlotStatsV1) :
    Prop where
  sorted : rows.Pairwise fun r s => r.producer < s.producer
  mem_iff : ∀ row, row ∈ rows ↔ row.producer ∈ slots.filterMap q.slotProducer ∧
    row = rowFor row.producer (ofMarks (q.marksOf row.producer slots))

variable {slots : List ℕ} {rows : List ProducerSlotStatsV1} {fromSlot toSlot : UInt32}

theorem SlotsVisited.rowsOf (h : SlotsVisited q slots byProducer) :
    RowsOf q slots ((byProducer.insertionSort fun e f => e.1 ≤ f.1).map fun e =>
      { e.2.result with trailingMissedStreak := e.2.currentMissedStreak }) := by
  have hmem : ∀ e ∈ byProducer, e.1 ∈ slots.filterMap q.slotProducer ∧
      e.2 = entryFor e.1 (ofMarks (q.marksOf e.1 slots)) := by
    intro e he
    have hfind := (find_eq_some h.nodup).mpr he
    rw [h.find_eq] at hfind
    split_ifs at hfind with hp
    exact ⟨hp, (Option.some.inj hfind).symm⟩
  refine ⟨?_, fun row => ?_⟩
  · have : Std.Total fun e f : AccountName × SlotAccumulator => e.1 ≤ f.1 :=
      ⟨fun e f => UInt64.le_total e.1 f.1⟩
    have : IsTrans _ fun e f : AccountName × SlotAccumulator => e.1 ≤ f.1 :=
      ⟨fun _ _ _ => UInt64.le_trans⟩
    have hsorted := List.pairwise_insertionSort
      (fun e f : AccountName × SlotAccumulator => e.1 ≤ f.1) byProducer
    have hnodup : (keysOf (byProducer.insertionSort fun e f => e.1 ≤ f.1)).Nodup :=
      (((List.perm_insertionSort _ byProducer).map Prod.fst).nodup_iff).mpr h.nodup
    rw [keysOf, List.Nodup, List.pairwise_map] at hnodup
    rw [List.pairwise_map]
    refine (hsorted.and hnodup).imp_of_mem fun {e f} he hf hef => ?_
    rw [List.mem_insertionSort] at he hf
    rw [(hmem e he).2, (hmem f hf).2]
    exact UInt64.lt_of_le_of_ne hef.1 hef.2
  · rw [List.mem_map]
    constructor
    · rintro ⟨e, he, rfl⟩
      rw [List.mem_insertionSort] at he
      obtain ⟨hp, hentry⟩ := hmem e he
      rw [hentry]
      exact ⟨hp, rfl⟩
    · rintro ⟨hp, hrow⟩
      refine ⟨(row.producer, entryFor row.producer
        (ofMarks (q.marksOf row.producer slots))), ?_, hrow.symm⟩
      rw [List.mem_insertionSort, ← find_eq_some h.nodup, h.find_eq, if_pos hp]

theorem slotsBetween_bound : fromSlot.toNat + (toSlot.toNat + 1 - fromSlot.toNat) ≤ 2 ^ 32 := by
  have hfrom := fromSlot.toNat_lt
  have hto := toSlot.toNat_lt
  omega

theorem isSome_calculate_iff :
    (q.calculateProducerSlotStatsV2 fromSlot toSlot).isSome ↔
      ∀ slot ∈ slotsBetween fromSlot toSlot, (q.slotProducer slot).isSome := by
  rw [← isSome_foldlM_visitSlot _ [], calculateProducerSlotStatsV2, bind_eq_bind, isSome_bind]
  simp

theorem rowsOf_calculate (h : q.calculateProducerSlotStatsV2 fromSlot toSlot = some rows) :
    RowsOf q (slotsBetween fromSlot toSlot) rows := by
  have hdefined := isSome_calculate_iff.mp (isSome_of_eq_some h)
  obtain ⟨byProducer, hrun, hvisited⟩ := foldlM_visitSlot_range slotsBetween_bound hdefined
  rw [calculateProducerSlotStatsV2, slotsBetween, hrun] at h
  cases h
  exact hvisited.rowsOf

theorem toNat_succ_of_lt {mid : UInt32} (hmid : mid < toSlot) :
    (mid + 1).toNat = mid.toNat + 1 := by
  rw [lt_iff_toNat_lt] at hmid
  have hto := toSlot.toNat_lt
  exact Nat.mod_eq_of_lt (by change mid.toNat + 1 < 2 ^ 32; omega)

theorem slotsBetween_append {mid : UInt32} (hfrom : fromSlot ≤ mid) (hmid : mid < toSlot) :
    slotsBetween fromSlot toSlot = slotsBetween fromSlot mid ++ slotsBetween (mid + 1) toSlot := by
  have hnext := toNat_succ_of_lt hmid
  rw [le_iff_toNat_le] at hfrom
  rw [lt_iff_toNat_lt] at hmid
  unfold slotsBetween
  rw [hnext, show mid.toNat + 1 = fromSlot.toNat + (mid.toNat + 1 - fromSlot.toNat) by omega,
    Nat.add_sub_cancel_left, range'_append_1]
  congr 1
  omega

end FlonCore
