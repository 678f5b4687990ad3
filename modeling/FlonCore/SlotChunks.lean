import FlonCore.SlotStats

/-!
# Slot statistics in chunks

The rows of a range are compared with the rows of its two parts. All counters are exact
except `expected`, which is back at zero when one producer is expected in every slot there
is.
-/

namespace FlonCore
open Library List UInt32
open ProducerSlotStatsV1 SlotStatsQuery Streaks

def rowOrZero (rows : List ProducerSlotStatsV1) (p : AccountName) : ProducerSlotStatsV1 :=
  (rows.find? fun r => r.producer = p).getD ⟨p, 0, 0, 0, 0, 0, 0, 0⟩

structure MergedRow (r₁ r₂ r : ProducerSlotStatsV1) : Prop where
  expected : r.expected = r₁.expected + r₂.expected
  produced : r.produced.toNat = r₁.produced.toNat + r₂.produced.toNat
  missed : r.missed.toNat = r₁.missed.toNat + r₂.missed.toNat
  idleSkipped : r.idleSkipped.toNat = r₁.idleSkipped.toNat + r₂.idleSkipped.toNat
  longest : r.longestMissedStreak.toNat =
    max (max r₁.longestMissedStreak.toNat r₂.longestMissedStreak.toNat)
      (r₁.trailingMissedStreak.toNat + r₂.leadingMissedStreak.toNat)
  leading : r.leadingMissedStreak.toNat = if 0 < r₁.produced then r₁.leadingMissedStreak.toNat
    else r₁.leadingMissedStreak.toNat + r₂.leadingMissedStreak.toNat
  trailing : r.trailingMissedStreak.toNat = if 0 < r₂.produced then r₂.trailingMissedStreak.toNat
    else r₁.trailingMissedStreak.toNat + r₂.trailingMissedStreak.toNat

variable {q : SlotStatsQuery} {p : AccountName} {slots : List ℕ}
  {rows : List ProducerSlotStatsV1} {fromSlot toSlot : UInt32} {a n : ℕ}

theorem RowsOf.rowOrZero_eq (h : RowsOf q slots rows) (p : AccountName) :
    rowOrZero rows p = rowFor p (ofMarks (q.marksOf p slots)) := by
  unfold rowOrZero
  cases hfind : rows.find? fun r => r.producer = p with
  | some row =>
    obtain rfl : row.producer = p := by simpa using find?_some hfind
    exact ((h.mem_iff row).mp (mem_of_find?_eq_some hfind)).2
  | none =>
    have hp : p ∉ slots.filterMap q.slotProducer := by
      intro hp
      rw [find?_eq_none] at hfind
      exact hfind _ ((h.mem_iff (rowFor p (ofMarks (q.marksOf p slots)))).mpr ⟨hp, rfl⟩)
        (by simp [rowFor, entryFor])
    rw [marksOf_eq_nil hp]
    rfl

/-- The fields of a row are the counts. Only `expected` can reach the size of its word. -/
structure RowCounts (row : ProducerSlotStatsV1) (s : Streaks) : Prop where
  expected : row.expected.toNat = (s.hits + s.misses) % 2 ^ 32
  produced : row.produced.toNat = s.hits
  missed : row.missed.toNat = s.misses
  idleSkipped : row.idleSkipped.toNat = s.skips
  longest : row.longestMissedStreak.toNat = s.longest
  leading : row.leadingMissedStreak.toNat = s.leading
  trailing : row.trailingMissedStreak.toNat = s.trailing

theorem rowCounts_rowFor (h : a + n ≤ 2 ^ 32) :
    RowCounts (rowFor p (ofMarks (q.marksOf p (range' a n))))
      (ofMarks (q.marksOf p (range' a n))) := by
  obtain ⟨hhits, hmisses, hskips⟩ := counts_eq (q.marksOf p (range' a n))
  obtain ⟨hlongest, hleading, htrailing⟩ := runs_le (q.marksOf p (range' a n))
  have hm := misses_lt (q := q) (p := p) h
  exact ⟨toNat_ofNat', toNat_ofNat_u32 (hhits ▸ count_marksOf_lt h .hit), toNat_ofNat_u32 hm,
    toNat_ofNat_u32 (hskips ▸ count_marksOf_lt h .skip), toNat_ofNat_u32 (hlongest.trans_lt hm),
    toNat_ofNat_u32 (hleading.trans_lt hm), toNat_ofNat_u32 (htrailing.trans_lt hm)⟩

theorem RowCounts.merge {r₁ r₂ r : ProducerSlotStatsV1} {s₁ s₂ : Streaks} (h₁ : RowCounts r₁ s₁)
    (h₂ : RowCounts r₂ s₂) (h : RowCounts r (s₁.merge s₂)) : MergedRow r₁ r₂ r := by
  have hfirst : 0 < r₁.produced ↔ 0 < s₁.hits := by
    rw [lt_iff_toNat_lt, h₁.produced]
    rfl
  have hsecond : 0 < r₂.produced ↔ 0 < s₂.hits := by
    rw [lt_iff_toNat_lt, h₂.produced]
    rfl
  refine ⟨?_, ?_, ?_, ?_, ?_, ?_, ?_⟩
  · rw [← UInt32.toNat_inj, UInt32.toNat_add, h.expected, h₁.expected, h₂.expected, ← Nat.add_mod]
    congr 1
    change s₁.hits + s₂.hits + (s₁.misses + s₂.misses) = _
    omega
  · rw [h.produced, h₁.produced, h₂.produced]
    rfl
  · rw [h.missed, h₁.missed, h₂.missed]
    rfl
  · rw [h.idleSkipped, h₁.idleSkipped, h₂.idleSkipped]
    rfl
  · rw [h.longest, h₁.longest, h₂.longest, h₁.trailing, h₂.leading]
    rfl
  · simp only [hfirst]
    rw [h.leading, h₁.leading, h₂.leading]
    rfl
  · simp only [hsecond]
    rw [h.trailing, h₁.trailing, h₂.trailing]
    rfl

theorem RowsOf.mem_producers (h : RowsOf q slots rows) :
    p ∈ rows.map producer ↔ p ∈ slots.filterMap q.slotProducer := by
  rw [mem_map]
  constructor
  · rintro ⟨row, hrow, rfl⟩
    exact ((h.mem_iff row).mp hrow).1
  · exact fun hp => ⟨_, (h.mem_iff (rowFor p (ofMarks (q.marksOf p slots)))).mpr ⟨hp, rfl⟩, rfl⟩

theorem length_marksOf (p : AccountName) (slots : List ℕ) :
    (q.marksOf p slots).length = (slots.filterMap q.slotProducer).count p := by
  rw [marksOf, length_map, ← countP_eq_length_filter, count_eq_countP, countP_filterMap]
  refine countP_congr fun slot _ => ?_
  cases q.slotProducer slot with
  | none => simp
  | some owner => simp

variable {row : ProducerSlotStatsV1}

theorem expected_eq_of_lt (hn : n < 2 ^ 32)
    (hrow : RowCounts row (ofMarks (q.marksOf p (range' a n)))) :
    row.expected.toNat = row.produced.toNat + row.missed.toNat ∧
      row.expected.toNat + row.idleSkipped.toNat =
        ((range' a n).filterMap q.slotProducer).count p := by
  have hlength := length_eq (q.marksOf p (range' a n))
  have hle : (q.marksOf p (range' a n)).length ≤ n := by
    rw [marksOf, length_map]
    exact (length_filter_le _ _).trans_eq length_range'
  have hexpected := hrow.expected
  rw [Nat.mod_eq_of_lt (by omega)] at hexpected
  rw [hexpected, hrow.produced, hrow.missed, hrow.idleSkipped, ← length_marksOf, hlength]
  exact ⟨rfl, rfl⟩

theorem RowsOf.rowCounts (h : RowsOf q (range' a n) rows) (hn : a + n ≤ 2 ^ 32)
    (hrow : row ∈ rows) : RowCounts row (ofMarks (q.marksOf row.producer (range' a n))) := by
  have hcounts := rowCounts_rowFor (q := q) (p := row.producer) hn
  rwa [← ((h.mem_iff row).mp hrow).2] at hcounts

theorem rowCounts_calculate (h : q.calculateProducerSlotStatsV2 fromSlot toSlot = some rows)
    (p : AccountName) : RowCounts (rowOrZero rows p)
      (ofMarks (q.marksOf p (slotsBetween fromSlot toSlot))) := by
  rw [(rowsOf_calculate h).rowOrZero_eq]
  exact rowCounts_rowFor slotsBetween_bound

theorem RowsOf.sum_eq (h : RowsOf q (range' a n) rows) (ha : a + n ≤ 2 ^ 32)
    (hn : n < 2 ^ 32) (hdefined : ∀ slot ∈ range' a n, (q.slotProducer slot).isSome) :
    (rows.map fun row => row.expected.toNat + row.idleSkipped.toNat).sum = n := by
  set owners := (range' a n).filterMap q.slotProducer with howners
  have hnodup : (rows.map producer).Nodup :=
    pairwise_map.mpr (h.sorted.imp fun hlt => UInt64.ne_of_lt hlt)
  have hperm : (rows.map producer).Perm owners.dedup :=
    (perm_ext_iff_of_nodup hnodup owners.nodup_dedup).mpr fun p => by
      rw [h.mem_producers, mem_dedup]
  have hcount : rows.map (fun row => row.expected.toNat + row.idleSkipped.toNat) =
      (rows.map producer).map fun p => owners.count p := by
    rw [map_map]
    exact map_congr_left fun row hrow =>
      (expected_eq_of_lt hn (h.rowCounts ha hrow)).2
  calc (rows.map fun row => row.expected.toNat + row.idleSkipped.toNat).sum
      = (owners.dedup.map fun p => owners.count p).sum := by rw [hcount, (hperm.map _).sum_eq]
    _ = owners.length := sum_map_count_dedup_eq_length owners
    _ = n := by
      rw [howners, filterMap_length_eq_length.mpr hdefined, length_range']

/-- The rows of a range follow from the rows of its parts, and count every slot. Only the
counter `expected` can wrap, in the range of all slots. -/
theorem slot_stats_in_chunks (q : SlotStatsQuery) :
    (∀ fromSlot mid toSlot : UInt32, fromSlot ≤ mid → mid < toSlot →
      ((q.calculateProducerSlotStatsV2 fromSlot toSlot).isSome ↔
        (q.calculateProducerSlotStatsV2 fromSlot mid).isSome ∧
          (q.calculateProducerSlotStatsV2 (mid + 1) toSlot).isSome) ∧
      ∀ rows₁ rows₂ rows, q.calculateProducerSlotStatsV2 fromSlot mid = some rows₁ →
        q.calculateProducerSlotStatsV2 (mid + 1) toSlot = some rows₂ →
        q.calculateProducerSlotStatsV2 fromSlot toSlot = some rows →
        ∀ p, (p ∈ rows.map producer ↔
            p ∈ rows₁.map producer ∨
              p ∈ rows₂.map producer) ∧
          MergedRow (rowOrZero rows₁ p) (rowOrZero rows₂ p) (rowOrZero rows p) ∧
          (toSlot.toNat + 1 - fromSlot.toNat < 2 ^ 32 → (rowOrZero rows p).expected.toNat =
            (rowOrZero rows₁ p).expected.toNat + (rowOrZero rows₂ p).expected.toNat)) ∧
    ∀ fromSlot toSlot rows, q.calculateProducerSlotStatsV2 fromSlot toSlot = some rows →
      rows.Pairwise (fun r s => r.producer < s.producer) ∧
      (∀ row ∈ rows, row.expected = row.produced + row.missed) ∧
      (toSlot.toNat + 1 - fromSlot.toNat < 2 ^ 32 →
        (∀ row ∈ rows, row.expected.toNat = row.produced.toNat + row.missed.toNat) ∧
        (rows.map fun row => row.expected.toNat + row.idleSkipped.toNat).sum =
          toSlot.toNat + 1 - fromSlot.toNat) := by
  refine ⟨fun fromSlot mid toSlot hfrom hmid => ⟨?_, ?_⟩, ?_⟩
  · rw [isSome_calculate_iff, isSome_calculate_iff, isSome_calculate_iff,
      slotsBetween_append hfrom hmid, forall_mem_append]
  · intro rows₁ rows₂ rows h₁ h₂ h p
    have happend := slotsBetween_append hfrom hmid
    have hcounts₁ := rowCounts_calculate h₁ p
    have hcounts₂ := rowCounts_calculate h₂ p
    have hcounts := rowCounts_calculate h p
    have hmerged : MergedRow (rowOrZero rows₁ p) (rowOrZero rows₂ p) (rowOrZero rows p) := by
      have hwhole := hcounts
      rw [happend, marksOf_append, ofMarks_append] at hwhole
      exact hcounts₁.merge hcounts₂ hwhole
    refine ⟨?_, hmerged, fun hlt => ?_⟩
    · rw [(rowsOf_calculate h₁).mem_producers, (rowsOf_calculate h₂).mem_producers,
        (rowsOf_calculate h).mem_producers, happend, filterMap_append, mem_append]
    · have hnext := toNat_succ_of_lt hmid
      have hto := toSlot.toNat_lt
      rw [lt_iff_toNat_lt] at hmid
      rw [(expected_eq_of_lt hlt hcounts).1, (expected_eq_of_lt (by omega) hcounts₁).1,
        (expected_eq_of_lt (by omega) hcounts₂).1, hmerged.produced, hmerged.missed]
      omega
  · intro fromSlot toSlot rows h
    have hrows := rowsOf_calculate h
    have hdefined := isSome_calculate_iff.mp (Option.isSome_of_eq_some h)
    refine ⟨hrows.sorted, fun row hrow => ?_, fun hlt => ⟨fun row hrow => ?_, ?_⟩⟩
    · have hcounts := hrows.rowCounts slotsBetween_bound hrow
      rw [← UInt32.toNat_inj, UInt32.toNat_add, hcounts.expected, hcounts.produced, hcounts.missed]
    · exact (expected_eq_of_lt hlt (hrows.rowCounts slotsBetween_bound hrow)).1
    · exact hrows.sum_eq slotsBetween_bound hlt hdefined

example : (mk 100 130 24 1 fun _ => ⟨1, [⟨1, ⟨1, []⟩⟩]⟩
    ).calculateProducerSlotStatsV2 101 130 = some [⟨1, 7, 1, 6, 23, 6, 6, 0⟩] := by
  decide +kernel

def soleProducer : SlotStatsQuery :=
  ⟨0, 0, 1, 1, fun _ => ⟨1, [⟨1, ⟨1, []⟩⟩]⟩⟩

theorem soleProducer_slotProducer (slot : ℕ) : soleProducer.slotProducer slot = some 1 := by
  have hindex : (UInt32.ofNat slot).toNat % (1 * 12) / 12 = 0 :=
    Nat.div_eq_of_lt (Nat.mod_lt _ (by norm_num))
  simp only [slotProducer, soleProducer, getScheduledProducer, cons_ne_nil,
    if_false, length_singleton, hindex]
  simp

theorem soleProducer_counts (n : ℕ) {s : Streaks}
    (hs : s = ofMarks (soleProducer.marksOf 1 (range' 0 n))) :
    s.hits + s.misses = n ∧ s.skips = 0 := by
  have hskip : ∀ slot, soleProducer.mark slot ≠ .skip := by
    intro slot
    have hfrom : soleProducer.mandatoryFrom = 1 := rfl
    have hproduced : soleProducer.producedSlot.toNat = 0 := rfl
    rw [mark, hfrom, hproduced]
    split_ifs with hzero hlt
    · decide
    · omega
    · decide
  have hlength : (soleProducer.marksOf 1 (range' 0 n)).length = n := by
    unfold marksOf
    rw [length_map, filter_eq_self.mpr fun slot _ => by
      rw [soleProducer_slotProducer]; rfl]
    exact length_range'
  have hskips := (counts_eq (soleProducer.marksOf 1 (range' 0 n))).2.2
  rw [count_eq_zero.mpr fun hmem => by
    obtain ⟨slot, -, hslot⟩ := mem_map.mp hmem
    exact hskip slot hslot] at hskips
  rw [length_eq, hskips] at hlength
  rw [hs]
  exact ⟨hlength, hskips⟩

theorem slotsBetween_all : slotsBetween 0 0xFFFFFFFF = range' 0 (2 ^ 32) := by
  have hcount : (0xFFFFFFFF : UInt32).toNat + 1 - (0 : UInt32).toNat = 2 ^ 32 := rfl
  rfl

/-- In the range of all slots the one producer is expected every time, and the counter is
back at zero. -/
theorem all_slots_wrap : ∃ rows,
    soleProducer.calculateProducerSlotStatsV2 0 0xFFFFFFFF = some rows ∧
    (∃ row ∈ rows, row.expected.toNat ≠ row.produced.toNat + row.missed.toNat) ∧
    (rows.map fun row => row.expected.toNat + row.idleSkipped.toNat).sum ≠
      (0xFFFFFFFF : UInt32).toNat + 1 - (0 : UInt32).toNat := by
  have hdefined : (soleProducer.calculateProducerSlotStatsV2 0 0xFFFFFFFF).isSome :=
    isSome_calculate_iff.mpr fun slot _ => by rw [soleProducer_slotProducer]; rfl
  obtain ⟨rows, hrows⟩ := Option.isSome_iff_exists.mp hdefined
  have hof := rowsOf_calculate hrows
  rw [slotsBetween_all] at hof
  have hone : ∀ row ∈ rows, row.producer = 1 := by
    intro row hrow
    obtain ⟨slot, -, hslot⟩ := mem_filterMap.mp ((hof.mem_iff row).mp hrow).1
    rw [soleProducer_slotProducer] at hslot
    exact (Option.some.inj hslot).symm
  have hcounts : ∀ row ∈ rows, row.expected.toNat = 0 ∧ row.idleSkipped.toNat = 0 ∧
      row.produced.toNat + row.missed.toNat = 2 ^ 32 := by
    intro row hrow
    have hcounts := hof.rowCounts (by norm_num) hrow
    rw [hone row hrow] at hcounts
    generalize hs : ofMarks (soleProducer.marksOf 1 (range' 0 (2 ^ 32))) = s at hcounts
    obtain ⟨hexpected, hskips⟩ := soleProducer_counts (2 ^ 32) hs.symm
    rw [hcounts.expected, hcounts.idleSkipped, hcounts.produced, hcounts.missed, hexpected]
    exact ⟨Nat.mod_self _, hskips, rfl⟩
  refine ⟨rows, hrows, ?_, ?_⟩
  · have hmem : (1 : AccountName) ∈ rows.map producer := by
      rw [hof.mem_producers, mem_filterMap]
      exact ⟨0, mem_range'_1.mpr (by norm_num), soleProducer_slotProducer 0⟩
    obtain ⟨row, hrow, -⟩ := mem_map.mp hmem
    obtain ⟨hzero, -, htotal⟩ := hcounts row hrow
    refine ⟨row, hrow, ?_⟩
    rw [hzero, htotal]
    norm_num
  · rw [sum_eq_zero]
    · decide
    · intro x hx
      obtain ⟨row, hrow, rfl⟩ := mem_map.mp hx
      obtain ⟨hzero, hidle, -⟩ := hcounts row hrow
      rw [hzero, hidle, Nat.zero_add]

end FlonCore
