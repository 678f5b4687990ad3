import Mathlib.Data.List.Nodup

/-!
# Sets with at most one element per key

An ordered set whose comparison looks at a key only: an element is inserted
unless one with its key is there already, so the first one with a key stays.
-/

namespace FlonCore.Library
open List
variable {α κ : Type*} {key : α → κ}

structure KeyedSet (key : α → κ) where
  entries : List α
  keys_nodup : (entries.map key).Nodup

namespace KeyedSet

def keys (s : KeyedSet key) : List κ := s.entries.map key

def empty : KeyedSet key := ⟨[], by simp⟩

@[simp] theorem entries_empty : (empty : KeyedSet key).entries = [] := rfl

@[simp] theorem keys_empty : (empty : KeyedSet key).keys = [] := rfl

variable {l : List α}

theorem nodup_append (h : (l.map key).Nodup) {x : α} (hx : key x ∉ l.map key) :
    ((l ++ [x]).map key).Nodup := by
  rw [map_append, map_singleton, nodup_append_comm, singleton_append]
  exact h.cons hx

variable [DecidableEq κ]

def insert (s : KeyedSet key) (x : α) : KeyedSet key :=
  if h : key x ∈ s.entries.map key then s else ⟨s.entries ++ [x], nodup_append s.keys_nodup h⟩

def insertAll (s : KeyedSet key) (l : List α) : KeyedSet key := l.foldl insert s

@[simp] theorem insertAll_nil (s : KeyedSet key) : s.insertAll [] = s := rfl

@[simp] theorem insertAll_cons (s : KeyedSet key) (x : α) (l : List α) :
    s.insertAll (x :: l) = (s.insert x).insertAll l := rfl

variable {s : KeyedSet key}

theorem mem_insert {x y : α} :
    y ∈ (s.insert x).entries ↔ y ∈ s.entries ∨ (y = x ∧ key x ∉ s.keys) := by
  unfold insert
  split_ifs with h
  · simp [keys, h]
  · simp [keys, h]

theorem mem_keys_insert {x : α} {k : κ} : k ∈ (s.insert x).keys ↔ k ∈ s.keys ∨ k = key x := by
  unfold insert
  split_ifs with h
  · refine ⟨.inl, ?_⟩
    rintro (hk | rfl)
    · exact hk
    · exact h
  · simp [keys]

theorem mem_keys_insertAll {k : κ} : k ∈ (s.insertAll l).keys ↔ k ∈ s.keys ∨ k ∈ l.map key := by
  induction l generalizing s with
  | nil => simp
  | cons x l ih => rw [insertAll_cons, ih, mem_keys_insert, map_cons, mem_cons, or_assoc]

theorem mem_insertAll (hl : (l.map key).Nodup) {y : α} :
    y ∈ (s.insertAll l).entries ↔ y ∈ s.entries ∨ (y ∈ l ∧ key y ∉ s.keys) := by
  induction l generalizing s with
  | nil => simp
  | cons x l ih =>
    rw [map_cons, nodup_cons] at hl
    rw [insertAll_cons, ih hl.2, mem_insert, mem_keys_insert, mem_cons]
    have hne : y ∈ l → key y ≠ key x := by
      intro hy heq
      exact hl.1 (heq ▸ mem_map_of_mem hy)
    constructor
    · rintro ((hy | ⟨rfl, hx⟩) | ⟨hy, hk⟩)
      · exact .inl hy
      · exact .inr ⟨.inl rfl, hx⟩
      · exact .inr ⟨.inr hy, fun h => hk (.inl h)⟩
    · rintro (hy | ⟨rfl | hy, hk⟩)
      · exact .inl (.inl hy)
      · exact .inl (.inr ⟨rfl, hk⟩)
      · exact .inr ⟨hy, fun h => h.elim hk (hne hy)⟩

end KeyedSet
end FlonCore.Library
