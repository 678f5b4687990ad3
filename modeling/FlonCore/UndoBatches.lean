import FlonCore.RocksdbManager

/-!
# What a batch with an undo record leaves behind

The record of a batch covers exactly the keys the batch writes, and for the keys
that are tracked it holds what the database had at them before. A public key is
only tracked if it was new or the batch has looked it up.
-/

namespace FlonCore
open Library List
variable {K V : Type} [DecidableEq K]

namespace HistoryCodec
variable {c : HistoryCodec K V} {db db' : HistoryDb K V} {blockNum : ℕ} {tracked : K → Prop}

structure CaptureInv (c : HistoryCodec K V) (db : HistoryDb K V) (blockNum : ℕ)
    (tracked : K → Prop) (s : Captured K V) : Prop where
  keys : ∀ k, k ∈ s.undo.keys ↔ k ∈ s.captured
  nodup : s.captured.Nodup
  own : c.undoKey blockNum ∉ s.captured
  records : ∀ k, tracked k → s.undo.RecordsAt db k

theorem captureInv_start : CaptureInv c db blockNum tracked ⟨[], [], []⟩ :=
  ⟨by simp [Undo.keys], nodup_nil, by simp, fun _ _ => ⟨by simp, by simp⟩⟩

section
variable {key : K} {s s' : Captured K V} (h : CaptureInv c db blockNum tracked s)
include h

theorem CaptureInv.erase (hnew : key ∉ s.captured) (hown : key ≠ c.undoKey blockNum)
    (hnone : tracked key → find db key = none) :
    CaptureInv c db blockNum tracked
      ⟨s.captured ++ [key], s.undo.restore, s.undo.erase ++ [key]⟩ where
  keys k := by
    have hk := h.keys k
    simp only [Undo.keys, mem_append, mem_singleton] at hk ⊢
    rw [← or_assoc, hk]
  nodup := by
    rw [nodup_append_comm, singleton_append]
    exact h.nodup.cons hnew
  own := by simpa using ⟨h.own, hown.symm⟩
  records k hk := by
    refine ⟨(h.records k hk).restore, fun hmem => ?_⟩
    rcases mem_append.mp hmem with hmem | hmem
    · exact (h.records k hk).erase hmem
    · rw [mem_singleton.mp hmem] at hk ⊢
      exact hnone hk

theorem CaptureInv.restore {previous : V} (hnew : key ∉ s.captured)
    (hown : key ≠ c.undoKey blockNum) (hfind : find db key = some previous) :
    CaptureInv c db blockNum tracked
      ⟨s.captured ++ [key], s.undo.restore ++ [(key, previous)], s.undo.erase⟩ where
  keys k := by
    have hk := h.keys k
    simp only [Undo.keys, map_append, map_singleton, mem_append, mem_singleton] at hk ⊢
    rw [or_right_comm, hk]
  nodup := by
    rw [nodup_append_comm, singleton_append]
    exact h.nodup.cons hnew
  own := by simpa using ⟨h.own, hown.symm⟩
  records k hk := by
    refine ⟨fun v hmem => ?_, (h.records k hk).erase⟩
    rcases mem_append.mp hmem with hmem | hmem
    · exact (h.records k hk).restore v hmem
    · cases mem_singleton.mp hmem
      exact hfind

theorem CaptureInv.step {appendOnly : Bool}
    (hstep : c.capturePrevious db blockNum s key appendOnly = some s')
    (hpublic : tracked key → appendOnly = true → c.isAccountRow key = false →
      find db key = none) :
    CaptureInv c db blockNum tracked s' ∧ s'.captured = s.captured ++ [key] ∧
      (appendOnly = true → c.isAccountRow key = true → find db key = none) := by
  unfold capturePrevious at hstep
  split_ifs at hstep with hmem hown happend hrow
  · cases hstep
    have hlookup : c.isAccountRow key = true → find db key = none := by
      intro haccount
      rw [haccount, Bool.true_and, Bool.not_eq_true, Option.isSome_eq_false_iff] at hrow
      exact Option.isNone_iff_eq_none.mp hrow
    refine ⟨h.erase hmem hown fun ht => ?_, rfl, fun _ => hlookup⟩
    cases haccount : c.isAccountRow key with
    | true => exact hlookup haccount
    | false => exact hpublic ht happend haccount
  · split at hstep
    · rename_i previous hfind
      cases hstep
      exact ⟨h.restore hmem hown hfind, rfl, fun ha => absurd ha happend⟩
    · rename_i hfind
      cases hstep
      exact ⟨h.erase hmem hown fun _ => hfind, rfl, fun ha => absurd ha happend⟩

theorem CaptureInv.writes {writes : List (K × V)}
    (hloop : writes.foldlM (fun s e => c.capturePrevious db blockNum s e.1
      (!c.isInternal e.1)) s = some s')
    (hpublic : ∀ e ∈ writes, tracked e.1 → c.isInternal e.1 = false →
      c.isAccountRow e.1 = false → find db e.1 = none) :
    CaptureInv c db blockNum tracked s' ∧ s'.captured = s.captured ++ writes.map Prod.fst ∧
      ∀ e ∈ writes, c.isAccountRow e.1 = true → find db e.1 = none := by
  induction writes generalizing s with
  | nil =>
    cases hloop
    exact ⟨h, by simp, by simp⟩
  | cons e writes ih =>
    rw [foldlM_cons, Option.bind_eq_bind, Option.bind_eq_some_iff] at hloop
    obtain ⟨mid, hstep, hrest⟩ := hloop
    rw [forall_mem_cons] at hpublic
    obtain ⟨hmid, hcaptured, haccount⟩ := h.step hstep fun ht ha =>
      hpublic.1 ht (by simpa using ha)
    obtain ⟨hend, hcaptured', haccounts⟩ := ih hmid hrest hpublic.2
    refine ⟨hend, by rw [hcaptured', hcaptured]; simp, forall_mem_cons.mpr ⟨?_, haccounts⟩⟩
    intro hrow
    exact haccount (by rw [c.accountRow_public _ hrow]; rfl) hrow

theorem CaptureInv.deletes {deletes : List K}
    (hloop : deletes.foldlM (fun s key => c.capturePrevious db blockNum s key false) s =
      some s') : CaptureInv c db blockNum tracked s' ∧ s'.captured = s.captured ++ deletes := by
  induction deletes generalizing s with
  | nil =>
    cases hloop
    exact ⟨h, by simp⟩
  | cons key deletes ih =>
    rw [foldlM_cons, Option.bind_eq_bind, Option.bind_eq_some_iff] at hloop
    obtain ⟨mid, hstep, hrest⟩ := hloop
    obtain ⟨hmid, hcaptured, -⟩ := h.step hstep nofun
    obtain ⟨hend, hcaptured'⟩ := ih hmid hrest
    exact ⟨hend, by rw [hcaptured', hcaptured]; simp⟩

end

def batchKeys (writes : List (K × V)) (deletes : List K) : List K :=
  writes.map Prod.fst ++ deletes

/-- The record of block `n` leads from the database back to an earlier state of it. -/
structure RecordFor (c : HistoryCodec K V) (tracked : K → Prop) (db before : HistoryDb K V)
    (n : ℕ) (u : Undo K V) : Prop where
  stored : ∃ v, find db (c.undoKey n) = some v ∧ c.unpackUndo v = some ⟨n, u⟩
  records : ∀ k, tracked k → u.RecordsAt before k

structure Committed (c : HistoryCodec K V) (tracked : K → Prop) (db : HistoryDb K V)
    (blockNum : ℕ) (writes : List (K × V)) (deletes : List K) (db' : HistoryDb K V) : Prop where
  nodup : (batchKeys writes deletes).Nodup
  own : c.undoKey blockNum ∉ batchKeys writes deletes
  record : ∃ u, RecordFor c tracked db' db blockNum u ∧
    ∀ k, k ∈ u.keys ↔ k ∈ batchKeys writes deletes
  written : ∀ e ∈ writes, find db' e.1 = some e.2
  kept : ∀ k, k ≠ c.undoKey blockNum → k ∉ batchKeys writes deletes → find db' k = find db k
  accounts_new : ∀ e ∈ writes, c.isAccountRow e.1 = true → find db e.1 = none

omit [DecidableEq K] in
theorem map_key_blockWrites (writes : List (K × V)) (deletes : List K) :
    (blockWrites writes deletes).map StoreWrite.key = batchKeys writes deletes := by
  simp [blockWrites, batchKeys, StoreWrite.key, Function.comp_def]

theorem batchWriteWithUndo_committed {writes : List (K × V)} {deletes : List K} {maxBytes : ℕ}
    (h : c.batchWriteWithUndo db blockNum writes deletes maxBytes = some db')
    (hpublic : ∀ e ∈ writes, tracked e.1 → c.isInternal e.1 = false →
      c.isAccountRow e.1 = false → find db e.1 = none) :
    Committed c tracked db blockNum writes deletes db' := by
  unfold batchWriteWithUndo at h
  split_ifs at h with hexists
  obtain ⟨s, hcapture, h⟩ := Option.bind_eq_some_iff.mp h
  obtain ⟨undoValue, hpack, h⟩ := Option.bind_eq_some_iff.mp h
  split_ifs at h
  cases h
  rw [captureAll, Option.bind_eq_bind, Option.bind_eq_some_iff] at hcapture
  obtain ⟨mid, hwrites, hdeletes⟩ := hcapture
  obtain ⟨hmid, hcaptured, haccounts⟩ := captureInv_start.writes hwrites hpublic
  obtain ⟨hend, hcaptured'⟩ := hmid.deletes hdeletes
  have hkeys : s.captured = batchKeys writes deletes := by
    rw [hcaptured', hcaptured]
    rfl
  have hnodup := hkeys ▸ hend.nodup
  have hown := hkeys ▸ hend.own
  have hrest : ∀ k, k ≠ c.undoKey blockNum →
      find (applyBatch db (.put (c.undoKey blockNum) undoValue :: blockWrites writes deletes)) k =
        find (applyBatch db (blockWrites writes deletes)) k := by
    intro k hk
    rw [applyBatch_cons]
    refine find_applyBatch_congr ?_
    rw [find_applyWrite]
    exact if_neg hk
  refine ⟨hnodup, hown, ⟨s.undo, ⟨⟨undoValue, ?_, c.unpack_pack _ _ hpack⟩, hend.records⟩,
    fun k => by rw [hend.keys, hkeys]⟩, ?_, ?_, haccounts⟩
  · rw [applyBatch_cons, find_applyBatch_of_not_mem (by rwa [map_key_blockWrites]), find_applyWrite]
    exact if_pos rfl
  · intro e he
    have hmem : e.1 ∈ batchKeys writes deletes :=
      mem_append_left _ (mem_map_of_mem he)
    have hput : StoreWrite.put e.1 e.2 ∈ blockWrites writes deletes :=
      mem_append_left _ (mem_map_of_mem he)
    exact find_applyBatch_of_mem (by rwa [map_key_blockWrites]) hput
  · intro k hk hmem
    rw [hrest k hk]
    exact find_applyBatch_of_not_mem (by rwa [map_key_blockWrites])

end HistoryCodec
end FlonCore
