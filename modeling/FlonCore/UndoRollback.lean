import FlonCore.UndoBatches

/-!
# Rolling back block by block

`Follows` relates the database to the states it was in right after each block of
the current branch. A rollback keeps up `RollingBack`: the database with the
batch being collected is the state after a block of the branch, and so is every
state that was written on the way.
-/

namespace FlonCore
open Library List
variable {K V : Type} [DecidableEq K]

namespace HistoryCodec

variable (c : HistoryCodec K V) (tracked : K → Prop)

structure Tracking : Prop where
  undoKey : ∀ n, ¬ tracked (c.undoKey n)
  cursorKey : tracked c.cursorKey

/-- The database and its states `maps` right after the blocks from `base` on, oldest first. -/
structure Follows (base : ℕ) (maps : List (HistoryDb K V)) (db : HistoryDb K V) : Prop where
  nonempty : 0 < maps.length
  bound : base + maps.length ≤ 2 ^ 32
  visible : ∀ i m, i + 1 = maps.length → maps[i]? = some m →
    ∀ k, tracked k → find db k = find m k
  records : ∀ i m m', maps[i]? = some m → maps[i + 1]? = some m' →
    ∃ u, RecordFor c tracked db m (base + i + 1) u ∧ (∀ n, c.undoKey n ∉ u.keys) ∧
      ∀ k, tracked k → k ∉ u.keys → find m' k = find m k
  above : ∀ n, base + maps.length ≤ n → find db (c.undoKey n) = none
  cursors : ∀ i m, maps[i]? = some m → find m c.cursorKey = some (c.numText (base + i))

/-- A state of the database that a rollback from `db` may reach: the one after block
`base + j`, with the undo records up to that block. -/
structure AtBlock (base : ℕ)
    (maps : List (HistoryDb K V)) (db : HistoryDb K V) (j : ℕ) (e : HistoryDb K V) : Prop where
  visible : ∀ m, maps[j]? = some m → ∀ k, tracked k → find e k = find m k
  above : ∀ n, base + j < n → find e (c.undoKey n) = none
  below : ∀ n, n ≤ base + j → find e (c.undoKey n) = find db (c.undoKey n)

variable {c : HistoryCodec K V} {tracked : K → Prop} {base : ℕ} {maps : List (HistoryDb K V)}
  {db : HistoryDb K V}

theorem Follows.cursor (h : Follows c tracked base maps db) (ht : c.Tracking tracked) :
    find db c.cursorKey = some (c.numText (base + (maps.length - 1))) := by
  have hpos := h.nonempty
  obtain ⟨m, hm⟩ : ∃ m, maps[maps.length - 1]? = some m :=
    ⟨_, getElem?_eq_getElem (by omega)⟩
  rw [h.visible _ m (by omega) hm _ ht.cursorKey, h.cursors _ _ hm]

theorem Follows.atBlock (h : Follows c tracked base maps db) :
    AtBlock c tracked base maps db (maps.length - 1) db := by
  have hpos := h.nonempty
  refine ⟨fun m hm => h.visible _ m (by omega) hm, fun n hn => h.above n (by omega), fun _ _ => rfl⟩

variable {j : ℕ}

theorem AtBlock.follows {e : HistoryDb K V} (he : AtBlock c tracked base maps db j e)
    (h : Follows c tracked base maps db) (hj : j < maps.length) :
    Follows c tracked base (maps.take (j + 1)) e := by
  have hlength : (maps.take (j + 1)).length = j + 1 := by
    rw [length_take]
    omega
  have hbound := h.bound
  have hget : ∀ {i : ℕ} {m : HistoryDb K V}, (maps.take (j + 1))[i]? = some m →
      i < j + 1 ∧ maps[i]? = some m := by
    intro i m hm
    rw [getElem?_take] at hm
    split_ifs at hm with hi
    exact ⟨hi, hm⟩
  refine ⟨by omega, by omega, ?_, ?_, fun n hn => he.above n (by omega), ?_⟩
  · intro i m hi hm
    obtain rfl : i = j := by omega
    exact he.visible m (hget hm).2
  · intro i m m' hm hm'
    obtain ⟨hi, hm'⟩ := hget hm'
    obtain ⟨u, ⟨⟨v, hv, hunpack⟩, hrecords⟩, hrest⟩ := h.records i m m' (hget hm).2 hm'
    refine ⟨u, ⟨⟨v, ?_, hunpack⟩, hrecords⟩, hrest⟩
    rw [he.below _ (by omega), hv]
  · exact fun i m hm => h.cursors i m (hget hm).2

theorem AtBlock.undo {e : HistoryDb K V} {u : Undo K V} {m m' : HistoryDb K V}
    (he : AtBlock c tracked base maps db (j + 1) e) (ht : c.Tracking tracked)
    (hm : maps[j]? = some m) (hm' : maps[j + 1]? = some m')
    (hrecords : ∀ k, tracked k → u.RecordsAt m k) (hkeys : ∀ n, c.undoKey n ∉ u.keys)
    (hkept : ∀ k, tracked k → k ∉ u.keys → find m' k = find m k) :
    AtBlock c tracked base maps db j
      (applyBatch e (u.writes ++ [.delete (c.undoKey (base + j + 1))])) := by
  have hdelete : ∀ k, find (applyBatch e (u.writes ++ [.delete (c.undoKey (base + j + 1))])) k =
      if k = c.undoKey (base + j + 1) then none else find (applyBatch e u.writes) k := by
    intro k
    rw [applyBatch_append]
    exact find_applyWrite _ (.delete (c.undoKey (base + j + 1))) k
  have hundo : ∀ n, find (applyBatch e u.writes) (c.undoKey n) = find e (c.undoKey n) := by
    intro n
    refine find_applyBatch_of_not_mem ?_
    rw [u.map_key_writes]
    exact hkeys n
  refine ⟨?_, ?_, ?_⟩
  · intro m'' hm'' k hk
    cases hm.symm.trans hm''
    rw [hdelete, if_neg fun heq => ht.undoKey _ (heq ▸ hk), (hrecords k hk).find_applyBatch]
    split_ifs with hmem
    · rfl
    · rw [he.visible m' hm' k hk, hkept k hk hmem]
  · intro n hn
    rw [hdelete]
    split_ifs with heq
    · rfl
    · have hne : n ≠ base + j + 1 := fun h => heq (by rw [h])
      rw [hundo, he.above n (by omega)]
  · intro n hn
    rw [hdelete, if_neg fun heq => ?_, hundo, he.below n (by omega)]
    have hn' := c.undoKey_injective heq
    omega

structure RollingBack (c : HistoryCodec K V) (tracked : K → Prop) (base : ℕ)
    (maps : List (HistoryDb K V)) (db : HistoryDb K V) (j : ℕ) (s : RollbackState K V) : Prop where
  collected : AtBlock c tracked base maps db j (applyBatch s.db s.batch)
  unread : ∀ n, n ≤ base + j → find s.db (c.undoKey n) = find db (c.undoKey n)
  idle : s.groupBlocks = 0 → s.batch = []
  durable : ∀ e ∈ s.durable, ∃ j', j ≤ j' ∧ j' < maps.length ∧
    AtBlock c tracked base maps db j' e
  current : s.durable.head? = some s.db

variable {s : RollbackState K V}

theorem RollingBack.flush (hj : j < maps.length)
    (h : RollingBack c tracked base maps db j s) :
    RollingBack c tracked base maps db j (flushGroup s) ∧ (flushGroup s).batch = [] := by
  unfold flushGroup
  split_ifs with hzero
  · exact ⟨h, h.idle hzero⟩
  · refine ⟨⟨h.collected, h.collected.below, fun _ => rfl, ?_, rfl⟩, rfl⟩
    exact forall_mem_cons.mpr ⟨⟨j, le_rfl, hj, h.collected⟩, h.durable⟩

theorem RollingBack.step
    (h : RollingBack c tracked base maps db (j + 1) s) (hf : Follows c tracked base maps db)
    (ht : c.Tracking tracked) (hj : j + 1 < maps.length) :
    ∃ s', c.undoBlockStep s (base + j + 1) = some s' ∧
      RollingBack c tracked base maps db j s' := by
  obtain ⟨m, hm⟩ : ∃ m, maps[j]? = some m := ⟨_, getElem?_eq_getElem (by omega)⟩
  obtain ⟨m', hm'⟩ : ∃ m', maps[j + 1]? = some m' := ⟨_, getElem?_eq_getElem hj⟩
  obtain ⟨u, ⟨⟨v, hv, hunpack⟩, hrecords⟩, hkeys, hkept⟩ := hf.records j m m' hm hm'
  have hread : find s.db (c.undoKey (base + j + 1)) = some v := by
    rw [h.unread _ (by omega), hv]
  obtain ⟨t, heq, hrolling⟩ : ∃ t, t = (if c.groupFull s (c.valueSize v) then flushGroup s else s) ∧
      RollingBack c tracked base maps db (j + 1) t := by
    refine ⟨_, rfl, ?_⟩
    split_ifs
    · exact (h.flush hj).1
    · exact h
  have hstep : c.undoBlockStep s (base + j + 1) = some { t with
      batch := t.batch ++ (u.writes ++ [.delete (c.undoKey (base + j + 1))])
      groupBlocks := t.groupBlocks + 1 } := by
    simp [undoBlockStep, hread, hunpack, heq]
  refine ⟨_, hstep, ?_, ?_, fun hzero => absurd hzero (Nat.succ_ne_zero _), ?_, hrolling.current⟩
  · rw [applyBatch_append]
    exact hrolling.collected.undo ht hm hm' hrecords hkeys hkept
  · exact fun n hn => hrolling.unread n (by omega)
  · intro e he
    obtain ⟨j', hle, hlt, hat⟩ := hrolling.durable e he
    exact ⟨j', by omega, hlt, hat⟩

theorem RollingBack.loop {i n : ℕ}
    (h : RollingBack c tracked base maps db (i + n) s) (hf : Follows c tracked base maps db)
    (ht : c.Tracking tracked) (hlt : i + n < maps.length) :
    ∃ s', c.undoBlocks (base + i) n s = (true, s') ∧
      RollingBack c tracked base maps db i s' ∧ s'.batch = [] := by
  induction n generalizing s with
  | zero =>
    obtain ⟨hflush, hempty⟩ := h.flush hlt
    exact ⟨_, rfl, hflush, hempty⟩
  | succ n ih =>
    obtain ⟨mid, hstep, hmid⟩ := RollingBack.step (j := i + n) h hf ht (by omega)
    obtain ⟨s', hloop, hs'⟩ := ih hmid (by omega)
    refine ⟨s', ?_, hs'⟩
    rw [undoBlocks, Nat.add_assoc base i n, hstep]
    exact hloop

/-- A rollback to a block of the branch succeeds. It ends in the state after that block, and
on the way the database is only ever in states after blocks of the branch. -/
theorem Follows.rollback (h : Follows c tracked base maps db) (ht : c.Tracking tracked) {i : ℕ}
    (hi : i < maps.length) :
    ∃ final earlier, c.rollbackWithUndo db (base + i) = (true, final :: earlier) ∧
      AtBlock c tracked base maps db i final ∧
      ∀ e ∈ final :: earlier, ∃ j, i ≤ j ∧ j < maps.length ∧
        AtBlock c tracked base maps db j e := by
  have hbound := h.bound
  have hcursor := h.cursor ht
  have hstart : RollingBack c tracked base maps db (i + (maps.length - 1 - i))
      ⟨db, [], 0, [db]⟩ := by
    rw [Nat.add_sub_of_le (by omega)]
    refine ⟨h.atBlock, fun _ _ => rfl, fun _ => rfl, ?_, rfl⟩
    intro e he
    rw [mem_singleton.mp he]
    exact ⟨_, le_rfl, by omega, h.atBlock⟩
  obtain ⟨s, hloop, hs, hempty⟩ := hstart.loop h ht (by omega)
  obtain ⟨m, hm⟩ : ∃ m, maps[i]? = some m := ⟨_, getElem?_eq_getElem hi⟩
  have hat : AtBlock c tracked base maps db i s.db := by
    have hcollected := hs.collected
    rwa [hempty, applyBatch_nil] at hcollected
  have hend : find s.db c.cursorKey = some (c.numText (base + i)) := by
    rw [hat.visible m hm _ ht.cursorKey, h.cursors _ _ hm]
  obtain ⟨earlier, hdurable⟩ : ∃ earlier, s.durable = s.db :: earlier := by
    have hcurrent := hs.current
    cases hd : s.durable with
    | nil => simp [hd] at hcurrent
    | cons e earlier => exact ⟨earlier, by simpa [hd] using hcurrent⟩
  refine ⟨s.db, earlier, ?_, hat, hdurable ▸ hs.durable⟩
  have hcount : u32 (base + (maps.length - 1)) = base + (maps.length - 1) :=
    Nat.mod_eq_of_lt (by omega)
  have hsub : base + (maps.length - 1) - (base + i) = maps.length - 1 - i := by omega
  simp only [rollbackWithUndo, hcursor, Option.bind_some, c.stoul_numText, hcount, hsub, hloop,
    hend, hdurable]
  rw [if_neg (by omega)]
  simp

end HistoryCodec
end FlonCore
