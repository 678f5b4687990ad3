import Mathlib.Data.List.Basic
import Mathlib.Tactic

/-!
# Streaks of misses

A sequence of hits, misses and skips is counted from left to right, together with its
longest, its leading and its trailing run of misses. A skip does not end a run. The
counts of a sequence are determined by the counts of its two halves.
-/

namespace FlonCore.Library

open List
inductive Mark
  | hit
  | miss
  | skip
deriving DecidableEq, Repr

@[ext] structure Streaks where
  (hits misses skips longest leading trailing : ℕ)
deriving DecidableEq, Repr

namespace Streaks

def zero : Streaks := ⟨0, 0, 0, 0, 0, 0⟩

def push (s : Streaks) : Mark → Streaks
  | .hit => { s with hits := s.hits + 1, trailing := 0 }
  | .skip => { s with skips := s.skips + 1 }
  | .miss => { s with
      misses := s.misses + 1
      trailing := s.trailing + 1
      longest := max s.longest (s.trailing + 1)
      leading := if 0 < s.hits then s.leading else s.leading + 1 }

variable (marks : List Mark)

def ofMarks : Streaks := marks.foldl push zero

def merge (s t : Streaks) : Streaks where
  hits := s.hits + t.hits
  misses := s.misses + t.misses
  skips := s.skips + t.skips
  longest := max (max s.longest t.longest) (s.trailing + t.leading)
  leading := if 0 < s.hits then s.leading else s.leading + t.leading
  trailing := if 0 < t.hits then t.trailing else s.trailing + t.trailing

theorem ofMarks_concat (m : Mark) : ofMarks (marks ++ [m]) = (ofMarks marks).push m := by
  rw [ofMarks, foldl_append]
  rfl

theorem leading_eq_trailing (h : (ofMarks marks).hits = 0) :
    (ofMarks marks).leading = (ofMarks marks).trailing := by
  induction marks using List.reverseRecOn with
  | nil => rfl
  | append_singleton marks m ih =>
    rw [ofMarks_concat] at h ⊢
    cases m with
    | hit => cases h
    | skip => exact ih h
    | miss =>
      change (ofMarks marks).hits = 0 at h
      simp [push, h, ih h]

theorem trailing_le_longest : (ofMarks marks).trailing ≤ (ofMarks marks).longest := by
  induction marks using List.reverseRecOn with
  | nil => exact le_rfl
  | append_singleton marks m ih =>
    rw [ofMarks_concat]
    cases m with
    | hit => exact Nat.zero_le _
    | skip => exact ih
    | miss => exact le_max_right _ _

theorem merge_zero {s : Streaks} (h : s.trailing ≤ s.longest) : s.merge zero = s := by
  refine Streaks.ext rfl rfl rfl ?_ ?_ rfl
  · change max (max s.longest 0) (s.trailing + 0) = s.longest
    omega
  · exact ite_self _

theorem merge_push {s t : Streaks} (h : t.hits = 0 → t.leading = t.trailing) (m : Mark) :
    s.merge (t.push m) = (s.merge t).push m := by
  cases m with
  | hit =>
    refine Streaks.ext (Nat.add_assoc _ _ _).symm rfl rfl rfl rfl ?_
    change (if 0 < t.hits + 1 then 0 else s.trailing + 0) = 0
    exact if_pos t.hits.succ_pos
  | skip => exact Streaks.ext rfl rfl (Nat.add_assoc _ _ _).symm rfl rfl rfl
  | miss =>
    refine Streaks.ext rfl (Nat.add_assoc _ _ _).symm rfl ?_ ?_ ?_
    · change max (max s.longest (max t.longest (t.trailing + 1)))
          (s.trailing + if 0 < t.hits then t.leading else t.leading + 1) =
        max (max (max s.longest t.longest) (s.trailing + t.leading))
          ((if 0 < t.hits then t.trailing else s.trailing + t.trailing) + 1)
      split_ifs with ht
      · omega
      · have hone := h (by omega)
        omega
    · change (if 0 < s.hits then s.leading
          else s.leading + if 0 < t.hits then t.leading else t.leading + 1) =
        if 0 < s.hits + t.hits then if 0 < s.hits then s.leading else s.leading + t.leading
          else (if 0 < s.hits then s.leading else s.leading + t.leading) + 1
      split_ifs <;> omega
    · change (if 0 < t.hits then t.trailing + 1 else s.trailing + (t.trailing + 1)) =
        (if 0 < t.hits then t.trailing else s.trailing + t.trailing) + 1
      split_ifs <;> omega

theorem ofMarks_append (marks later : List Mark) :
    ofMarks (marks ++ later) = (ofMarks marks).merge (ofMarks later) := by
  induction later using List.reverseRecOn with
  | nil =>
    rw [append_nil]
    exact (merge_zero (trailing_le_longest marks)).symm
  | append_singleton later m ih =>
    rw [← append_assoc, ofMarks_concat, ofMarks_concat, ih, merge_push (leading_eq_trailing later)]

theorem length_eq :
    marks.length = (ofMarks marks).hits + (ofMarks marks).misses + (ofMarks marks).skips := by
  induction marks using List.reverseRecOn with
  | nil => rfl
  | append_singleton marks m ih =>
    rw [ofMarks_concat, length_append, length_singleton, ih]
    cases m <;> simp only [push] <;> omega

theorem counts_eq :
    (ofMarks marks).hits = marks.count .hit ∧ (ofMarks marks).misses = marks.count .miss ∧
      (ofMarks marks).skips = marks.count .skip := by
  induction marks using List.reverseRecOn with
  | nil => exact ⟨rfl, rfl, rfl⟩
  | append_singleton marks m ih =>
    obtain ⟨hhits, hmisses, hskips⟩ := ih
    rw [ofMarks_concat, count_append, count_append, count_append, ← hhits, ← hmisses, ← hskips]
    cases m <;> exact ⟨rfl, rfl, rfl⟩

theorem runs_le : (ofMarks marks).longest ≤ (ofMarks marks).misses ∧
      (ofMarks marks).leading ≤ (ofMarks marks).misses ∧
      (ofMarks marks).trailing ≤ (ofMarks marks).misses := by
  induction marks using List.reverseRecOn with
  | nil => decide
  | append_singleton marks m ih =>
    obtain ⟨hlongest, hleading, htrailing⟩ := ih
    rw [ofMarks_concat]
    cases m with
    | hit => exact ⟨hlongest, hleading, Nat.zero_le _⟩
    | skip => exact ⟨hlongest, hleading, htrailing⟩
    | miss =>
      simp only [push]
      refine ⟨by omega, ?_, by omega⟩
      split_ifs <;> omega

end Streaks
end FlonCore.Library
