import FlonCore.Library.Assoc

/-!
# Stores with atomic batches and undo records

A store is a finite map that changes by batches of puts and deletes; within a
batch later writes win. An undo record holds, for some keys, what a store has at
them. Writing the record back to a store that differs at these keys only gives
the recorded store, and one batch may carry the records of several changes.
-/

namespace FlonCore.Library
open List
variable {κ α : Type*}

inductive StoreWrite (κ α : Type*)
  | put (k : κ) (v : α)
  | delete (k : κ)

namespace StoreWrite

def key : StoreWrite κ α → κ
  | put k _ => k
  | delete k => k

def value : StoreWrite κ α → Option α
  | put _ v => some v
  | delete _ => none

end StoreWrite

structure Undo (κ α : Type*) where
  restore : List (κ × α)
  erase : List κ

open StoreWrite

namespace Undo

def keys (u : Undo κ α) : List κ := u.restore.map Prod.fst ++ u.erase

def writes (u : Undo κ α) : List (StoreWrite κ α) :=
  u.restore.map (fun e => .put e.1 e.2) ++ u.erase.map .delete

theorem map_key_writes (u : Undo κ α) : u.writes.map key = u.keys := by
  simp [writes, keys, key, Function.comp_def]

end Undo

variable [DecidableEq κ]

def applyWrite (m : List (κ × α)) (w : StoreWrite κ α) : List (κ × α) :=
  match w with
  | .put k v => assign m k v
  | .delete k => eraseKey m k

def applyBatch (m : List (κ × α)) (batch : List (StoreWrite κ α)) : List (κ × α) :=
  batch.foldl applyWrite m

variable {m m' : List (κ × α)} {batch : List (StoreWrite κ α)} {k : κ}

@[simp] theorem applyBatch_nil : applyBatch m [] = m := rfl

@[simp] theorem applyBatch_cons (w : StoreWrite κ α) :
    applyBatch m (w :: batch) = applyBatch (applyWrite m w) batch := rfl

theorem applyBatch_append (batch' : List (StoreWrite κ α)) :
    applyBatch m (batch ++ batch') = applyBatch (applyBatch m batch) batch' :=
  foldl_append

theorem find_applyWrite (m : List (κ × α)) (w : StoreWrite κ α) (k : κ) :
    find (applyWrite m w) k = if k = w.key then w.value else find m k := by
  cases w with
  | put k' v => exact find_assign m k' k v
  | delete k' => exact find_eraseKey m k' k

theorem find_applyBatch_congr (h : find m k = find m' k) :
    find (applyBatch m batch) k = find (applyBatch m' batch) k := by
  induction batch generalizing m m' with
  | nil => exact h
  | cons w batch ih =>
    refine ih ?_
    rw [find_applyWrite, find_applyWrite, h]

theorem find_applyBatch_of_not_mem (h : k ∉ batch.map key) :
    find (applyBatch m batch) k = find m k := by
  induction batch generalizing m with
  | nil => rfl
  | cons w batch ih =>
    rw [map_cons, mem_cons, not_or] at h
    rw [applyBatch_cons, ih h.2, find_applyWrite, if_neg h.1]

theorem find_applyBatch_of_agrees {s : List (κ × α)}
    (h : ∀ w ∈ batch, w.key = k → w.value = find s k) :
    find (applyBatch m batch) k =
      if k ∈ batch.map key then find s k else find m k := by
  induction batch generalizing m with
  | nil => simp
  | cons w batch ih =>
    rw [forall_mem_cons] at h
    rw [applyBatch_cons, ih h.2, find_applyWrite, map_cons]
    by_cases hmem : k ∈ batch.map key
    · rw [if_pos hmem, if_pos (mem_cons_of_mem _ hmem)]
    · rw [if_neg hmem]
      by_cases hk : k = w.key
      · rw [if_pos hk, if_pos (hk ▸ mem_cons_self), h.1 hk.symm]
      · rw [if_neg hk, if_neg (by simp [hk, hmem])]

theorem find_applyBatch_of_mem (h : (batch.map key).Nodup) {w : StoreWrite κ α}
    (hw : w ∈ batch) : find (applyBatch m batch) w.key = w.value := by
  induction batch generalizing m with
  | nil => cases hw
  | cons x batch ih =>
    rw [map_cons, nodup_cons] at h
    rcases mem_cons.mp hw with rfl | hw
    · rw [applyBatch_cons, find_applyBatch_of_not_mem h.1, find_applyWrite, if_pos rfl]
    · exact ih h.2 hw

structure Undo.RecordsAt (u : Undo κ α) (s : List (κ × α)) (k : κ) : Prop where
  restore : ∀ v, (k, v) ∈ u.restore → find s k = some v
  erase : k ∈ u.erase → find s k = none

theorem Undo.RecordsAt.find_applyBatch {u : Undo κ α} {s : List (κ × α)}
    (h : u.RecordsAt s k) (m : List (κ × α)) :
    find (applyBatch m u.writes) k = if k ∈ u.keys then find s k else find m k := by
  rw [← u.map_key_writes]
  refine find_applyBatch_of_agrees ?_
  intro w hw hk
  rcases mem_append.mp hw with hw | hw
  · obtain ⟨e, he, rfl⟩ := mem_map.mp hw
    exact (h.restore e.2 (hk ▸ he)).symm
  · obtain ⟨k', hk', rfl⟩ := mem_map.mp hw
    exact (h.erase (hk ▸ hk')).symm

end FlonCore.Library
