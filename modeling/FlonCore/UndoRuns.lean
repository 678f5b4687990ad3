import FlonCore.HistoryRows
import FlonCore.UndoRollback

/-!
# Runs of the undo log

A run starts right after some block, commits one batch per block and rolls back in
between; a rollback may also stop at any of the states it has written. The states
after the blocks of the current branch are kept beside the database, and the
database follows them through every run.
-/

namespace FlonCore
open Library List

theorem getElem?_concat_eq_some {α : Type} {l : List α} {a b : α} {i : ℕ}
    (h : (l ++ [a])[i]? = some b) : l[i]? = some b ∨ i = l.length ∧ a = b := by
  rw [getElem?_append] at h
  split_ifs at h with hi
  · exact .inl h
  · have hzero : i - l.length = 0 := by
      by_contra hne
      obtain ⟨n, hn⟩ := Nat.exists_eq_succ_of_ne_zero hne
      simp [hn] at h
    rw [hzero] at h
    exact .inr ⟨by omega, by simpa using h⟩

namespace HistoryCodec
variable {K V : Type} [DecidableEq K] {c : HistoryCodec K V} {tracked : K → Prop} {base : ℕ}
  {maps : List (HistoryDb K V)} {db db' : HistoryDb K V}

theorem follows_start (hbound : base < 2 ^ 32)
    (hcursor : find db c.cursorKey = some (c.numText base))
    (habove : ∀ n, base < n → find db (c.undoKey n) = none) : Follows c tracked base [db] db := by
  refine ⟨by simp, by simpa using hbound, ?_, ?_, ?_, ?_⟩
  · intro i m hi hm k _
    obtain rfl : i = 0 := by simpa using hi
    obtain rfl : db = m := by simpa using hm
    rfl
  · intro i m m' _ hm'
    simp at hm'
  · exact fun n hn => habove n (by simpa using hn)
  · intro i m hm
    cases i with
    | zero =>
      obtain rfl : db = m := by simpa using hm
      exact hcursor
    | succ i => simp at hm

theorem Follows.commit {writes : List (K × V)} {deletes : List K}
    (h : Follows c tracked base maps db)
    (hc : Committed c tracked db (base + maps.length) writes deletes db')
    (hcursor : (c.cursorKey, c.numText (base + maps.length)) ∈ writes)
    (hundo : ∀ n, c.undoKey n ∉ batchKeys writes deletes) (hbound : base + maps.length < 2 ^ 32)
    (ht : c.Tracking tracked) : Follows c tracked base (maps ++ [db']) db' := by
  have hkeep : ∀ n, n ≠ base + maps.length → find db' (c.undoKey n) = find db (c.undoKey n) :=
    fun n hn => hc.kept _ (fun heq => hn (c.undoKey_injective heq)) (hundo n)
  refine ⟨by simp, by simp; omega, ?_, ?_, ?_, ?_⟩
  · intro i m hi hm k _
    obtain rfl : db' = m := by
      rcases getElem?_concat_eq_some hm with hm | ⟨-, rfl⟩
      · obtain ⟨hlt, -⟩ := List.getElem?_eq_some_iff.mp hm
        simp at hi
        omega
      · rfl
    rfl
  · intro i m m' hm hm'
    rcases getElem?_concat_eq_some hm' with hm' | ⟨hi, rfl⟩
    · -- an older block: its record is still there
      obtain ⟨hlt, -⟩ := List.getElem?_eq_some_iff.mp hm'
      have hm : maps[i]? = some m := by
        rwa [getElem?_append_left (by omega)] at hm
      obtain ⟨u, ⟨⟨v, hv, hunpack⟩, hrecords⟩, hrest⟩ := h.records i m m' hm hm'
      refine ⟨u, ⟨⟨v, ?_, hunpack⟩, hrecords⟩, hrest⟩
      rw [hkeep _ (by omega), hv]
    · -- the new block
      have hm : maps[i]? = some m := by
        rwa [getElem?_append_left (by omega)] at hm
      obtain ⟨u, ⟨hstored, hrecords⟩, hkeys⟩ := hc.record
      have hvisible := h.visible i m hi hm
      refine ⟨u, ⟨?_, ?_⟩, ?_, ?_⟩
      · rwa [Nat.add_assoc, hi]
      · intro k hk
        obtain ⟨hrestore, herase⟩ := hrecords k hk
        exact ⟨fun v hv => hvisible k hk ▸ hrestore v hv, fun hv => hvisible k hk ▸ herase hv⟩
      · exact fun n hn => hundo n ((hkeys _).mp hn)
      · intro k hk hnot
        rw [← hvisible k hk]
        exact hc.kept k (fun heq => ht.undoKey _ (heq ▸ hk)) fun hmem => hnot ((hkeys k).mpr hmem)
  · intro n hn
    simp only [length_append, length_singleton] at hn
    rw [hkeep n (by omega), h.above n (by omega)]
  · intro i m hm
    rcases getElem?_concat_eq_some hm with hm | ⟨rfl, rfl⟩
    · exact h.cursors i m hm
    · exact hc.written _ hcursor

theorem Follows.advance {j : ℕ} (h : Follows c tracked base maps db) (hj : j < maps.length)
    (hsame : ∀ k, tracked k → find db' k = find db k)
    (hundo : ∀ n, base + j < n → find db' (c.undoKey n) = find db (c.undoKey n)) :
    Follows c tracked (base + j) (maps.drop j) db' := by
  have hlength : (maps.drop j).length = maps.length - j := length_drop
  have hbound := h.bound
  refine ⟨by omega, by omega, ?_, ?_, ?_, ?_⟩
  · intro i m hi hm k hk
    rw [getElem?_drop] at hm
    rw [hsame k hk]
    exact h.visible (j + i) m (by omega) hm k hk
  · intro i m m' hm hm'
    rw [getElem?_drop] at hm hm'
    obtain ⟨u, ⟨⟨v, hv, hunpack⟩, hrecords⟩, hrest⟩ := h.records (j + i) m m' hm hm'
    refine ⟨u, ⟨⟨v, ?_, ?_⟩, hrecords⟩, hrest⟩
    · rw [hundo _ (by omega), ← hv]
      congr 2
      omega
    · rw [hunpack]
      congr 2
      omega
  · intro n hn
    rw [hundo n (by omega), h.above n (by omega)]
  · intro i m hm
    rw [getElem?_drop] at hm
    rw [h.cursors (j + i) m hm, Nat.add_assoc]

variable (c)

/-- A batch of a block: it moves the cursor, its public keys are new, and it leaves the undo
keys to the log. -/
structure BlockBatch (db : HistoryDb K V) (blockNum : ℕ)
    (writes : List (K × V)) (deletes : List K) : Prop where
  cursor : (c.cursorKey, c.numText blockNum) ∈ writes
  public_new : ∀ e ∈ writes, c.isInternal e.1 = false → find db e.1 = none
  undo_free : ∀ n, c.undoKey n ∉ batchKeys writes deletes

/-- The runs from block `base` on, with the states right after the blocks of the current
branch, oldest first. The process may stop during a rollback: the run then goes on from any
state `e` the rollback has written. -/
inductive Runs (c : HistoryCodec K V) (base : ℕ) : HistoryDb K V → List (HistoryDb K V) → Prop
  | start {db : HistoryDb K V} (hbound : base < 2 ^ 32)
      (hcursor : find db c.cursorKey = some (c.numText base))
      (habove : ∀ n, base < n → find db (c.undoKey n) = none) : Runs c base db [db]
  | commit {db db' : HistoryDb K V} {maps : List (HistoryDb K V)} {writes : List (K × V)}
      {deletes : List K} {maxBytes : ℕ} (h : Runs c base db maps)
      (hbound : base + maps.length < 2 ^ 32)
      (hbatch : BlockBatch c db (base + maps.length) writes deletes)
      (hwrite : c.batchWriteWithUndo db (base + maps.length) writes deletes maxBytes = some db') :
      Runs c base db' (maps ++ [db'])
  | rollback {db e : HistoryDb K V} {maps : List (HistoryDb K V)} {p q : ℕ}
      (h : Runs c base db maps) (hp : base ≤ p) (he : e ∈ (c.rollbackWithUndo db p).2)
      (hcursor : find e c.cursorKey = some (c.numText q)) : Runs c base e (maps.take (q + 1 - base))

def NotUndoKey (k : K) : Prop := ∀ n, k ≠ c.undoKey n

omit [DecidableEq K] in
theorem tracking_notUndoKey : c.Tracking c.NotUndoKey :=
  ⟨fun n h => h n rfl, c.cursorKey_ne⟩

variable {c}

theorem Follows.rollback_beyond (h : Follows c tracked base maps db) (ht : c.Tracking tracked)
    {p : ℕ} (hp : base + maps.length ≤ p) : c.rollbackWithUndo db p = (false, [db]) := by
  have hpos := h.nonempty
  have hbound := h.bound
  have hcount : u32 (base + (maps.length - 1)) = base + (maps.length - 1) :=
    Nat.mod_eq_of_lt (by omega)
  simp only [rollbackWithUndo, h.cursor ht, Option.bind_some, c.stoul_numText, hcount]
  exact if_pos (by omega)

theorem Follows.of_mem_rollback (h : Follows c tracked base maps db) (ht : c.Tracking tracked)
    {p q : ℕ} (hp : base ≤ p) {e : HistoryDb K V} (he : e ∈ (c.rollbackWithUndo db p).2)
    (hcursor : find e c.cursorKey = some (c.numText q)) :
    Follows c tracked base (maps.take (q + 1 - base)) e := by
  have hinj : ∀ {n : ℕ}, find e c.cursorKey = some (c.numText n) → q = n := by
    intro n hn
    have heq := congrArg c.stoul (Option.some.inj (hcursor.symm.trans hn))
    simpa [c.stoul_numText] using heq
  by_cases hlt : p < base + maps.length
  · obtain ⟨final, earlier, hrun, -, hstates⟩ := h.rollback ht (i := p - base) (by omega)
    rw [Nat.add_sub_of_le hp] at hrun
    rw [hrun] at he
    obtain ⟨j, -, hj, hat⟩ := hstates e he
    obtain ⟨m, hm⟩ : ∃ m, maps[j]? = some m := ⟨_, getElem?_eq_getElem hj⟩
    obtain rfl : q = base + j := by
      apply hinj
      rw [hat.visible m hm _ ht.cursorKey, h.cursors j m hm]
    have hindex : base + j + 1 - base = j + 1 := by omega
    rw [hindex]
    exact hat.follows h hj
  · rw [h.rollback_beyond ht (by omega)] at he
    obtain rfl : e = db := by simpa using he
    obtain rfl := hinj (h.cursor ht)
    rwa [take_of_length_le (by omega)]

theorem Runs.follows (h : Runs c base db maps) : Follows c c.NotUndoKey base maps db := by
  induction h with
  | start hbound hcursor habove => exact follows_start hbound hcursor habove
  | commit _ hbound hbatch hwrite ih =>
    have hcommitted : Committed c c.NotUndoKey _ _ _ _ _ :=
      batchWriteWithUndo_committed hwrite fun e he _ hinternal _ =>
        hbatch.public_new e he hinternal
    exact ih.commit hcommitted hbatch.cursor hbatch.undo_free hbound c.tracking_notUndoKey
  | rollback _ hp he hcursor ih =>
    exact ih.of_mem_rollback c.tracking_notUndoKey hp he hcursor

/-- The database is as right after block `q`, and the records above that block are gone. -/
structure RightAfter (c : HistoryCodec K V) (base : ℕ) (maps : List (HistoryDb K V)) (q : ℕ)
    (e : HistoryDb K V) : Prop where
  map : ∃ m, maps[q - base]? = some m ∧ ∀ k, c.NotUndoKey k → find e k = find m k
  cursor : find e c.cursorKey = some (c.numText q)
  above : ∀ n, q < n → find e (c.undoKey n) = none

theorem AtBlock.rightAfter {j : ℕ} {e : HistoryDb K V}
    (hat : AtBlock c c.NotUndoKey base maps db j e) (h : Follows c c.NotUndoKey base maps db)
    (hj : j < maps.length) : RightAfter c base maps (base + j) e := by
  obtain ⟨m, hm⟩ : ∃ m, maps[j]? = some m := ⟨_, getElem?_eq_getElem hj⟩
  refine ⟨⟨m, ?_, hat.visible m hm⟩, ?_, hat.above⟩
  · rwa [Nat.add_sub_cancel_left]
  · rw [hat.visible m hm _ c.cursorKey_ne, h.cursors j m hm]

theorem rollback_restores_exactly (h : Runs c base db maps) {p : ℕ} (hp : base ≤ p) :
    ((c.rollbackWithUndo db p).1 = true ↔ p < base + maps.length) ∧
    ((c.rollbackWithUndo db p).1 = true →
      ∃ final, (c.rollbackWithUndo db p).2.head? = some final ∧ RightAfter c base maps p final) ∧
    (p < base + maps.length → ∀ e ∈ (c.rollbackWithUndo db p).2,
      ∃ q, p ≤ q ∧ q < base + maps.length ∧ RightAfter c base maps q e ∧
        (c.rollbackWithUndo e p).1 = true) := by
  have hfollows := h.follows
  have ht := c.tracking_notUndoKey
  by_cases hlt : p < base + maps.length
  · obtain ⟨final, earlier, hrun, hfinal, hstates⟩ :=
      hfollows.rollback ht (i := p - base) (by omega)
    rw [Nat.add_sub_of_le hp] at hrun
    have hafter := hfinal.rightAfter hfollows (by omega)
    rw [Nat.add_sub_of_le hp] at hafter
    rw [hrun]
    refine ⟨by simp [hlt], fun _ => ⟨final, rfl, hafter⟩, fun _ e he => ?_⟩
    obtain ⟨j, hij, hj, hat⟩ := hstates e he
    refine ⟨base + j, by omega, by omega, hat.rightAfter hfollows hj, ?_⟩
    -- the second rollback runs on the branch up to block `base + j`
    have hlength : p - base < (maps.take (j + 1)).length := by
      rw [length_take]
      omega
    obtain ⟨_, _, hagain, -⟩ := (hat.follows hfollows hj).rollback ht hlength
    rw [Nat.add_sub_of_le hp] at hagain
    rw [hagain]
  · rw [hfollows.rollback_beyond ht (by omega)]
    exact ⟨by simpa using hlt, by simp, fun hcon => absurd hcon hlt⟩

end HistoryCodec

section Forgery
open HistoryCodec

def plainSizes : HistorySizes := ⟨fun _ => 100, List.length⟩

def baselineDb : HistoryDb HistoryKey HistoryValue := [(.lastAcceptedBlockNum, .number 0)]

def plainWrites (blockNum : ℕ) : List (HistoryKey × HistoryValue) :=
  [(.lastAcceptedBlockNum, .number blockNum), (.action blockNum, .text "action")]

def forgingWrites : List (HistoryKey × HistoryValue) :=
  [(.lastAcceptedBlockNum, .number 2),
    (.undo 1, .undo 1 [(.lastAcceptedBlockNum, .number 0)] [])]

theorem rollback_restores_two_blocks :
    ∃ db maps final, Runs (historyCodec plainSizes) 0 db maps ∧ maps.length = 3 ∧
      ((historyCodec plainSizes).rollbackWithUndo db 1).1 = true ∧
      ((historyCodec plainSizes).rollbackWithUndo db 1).2.head? = some final ∧
      RightAfter (historyCodec plainSizes) 0 maps 1 final := by
  have hstart : Runs (historyCodec plainSizes) 0 baselineDb [baselineDb] :=
    .start (by decide) rfl fun n hn => rfl
  have hbatch : ∀ n db, find db (.action n) = none →
      BlockBatch (historyCodec plainSizes) db n (plainWrites n) [] := by
    intro n db hnew
    refine ⟨by simp [plainWrites, historyCodec], ?_, ?_⟩
    · rintro e he hinternal
      simp only [plainWrites, mem_cons, not_mem_nil, or_false] at he
      rcases he with rfl | rfl
      · cases hinternal
      · exact hnew
    · simp [batchKeys, plainWrites, historyCodec]
  obtain ⟨db₁, hwrite₁⟩ : ∃ db₁, (historyCodec plainSizes).batchWriteWithUndo baselineDb 1
      (plainWrites 1) [] 0 = some db₁ ∧ find db₁ (.action 2) = none := ⟨_, rfl, rfl⟩
  obtain ⟨db₂, hwrite₂⟩ : ∃ db₂, (historyCodec plainSizes).batchWriteWithUndo db₁ 2
      (plainWrites 2) [] 0 = some db₂ := by
    cases hwrite₁.1
    exact ⟨_, rfl⟩
  have hone := hstart.commit (by decide) (hbatch 1 _ rfl) hwrite₁.1
  have htwo := hone.commit (by simp) (hbatch 2 _ hwrite₁.2) hwrite₂
  obtain ⟨hiff, hfinal, -⟩ := rollback_restores_exactly htwo (p := 1) (by decide)
  obtain ⟨final, hhead, hafter⟩ := hfinal (hiff.mpr (by simp))
  exact ⟨_, _, final, htwo, rfl, hiff.mpr (by simp), hhead, hafter⟩

theorem forged_record_keeps_row :
    ∃ db₁ db₂ final,
      (historyCodec plainSizes).batchWriteWithUndo baselineDb 1 (plainWrites 1) [] 0 = some db₁ ∧
      (historyCodec plainSizes).batchWriteWithUndo db₁ 2 forgingWrites [] 0 = some db₂ ∧
      (∀ e ∈ forgingWrites, e.1.isInternal = true) ∧
      ((historyCodec plainSizes).rollbackWithUndo db₂ 0).1 = true ∧
      ((historyCodec plainSizes).rollbackWithUndo db₂ 0).2.head? = some final ∧
      find baselineDb (.action 1) = none ∧ (find final (.action 1)).isSome = true :=
  ⟨_, _, _, rfl, rfl, by simp [forgingWrites, HistoryKey.isInternal], rfl, rfl, rfl, rfl⟩

end Forgery
end FlonCore
