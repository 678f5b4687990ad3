import Mathlib.Data.List.TakeWhile
import Mathlib.Tactic

/-!
# Sets as sorted vectors

A set kept as a strictly increasing vector. An iterator is the part of the
vector from its position on, and the lower bound of a value is the first
position that holds nothing less. A search may resume at a lower bound for any
value that is not less.
-/

namespace FlonCore.Library

open List
structure FlatSet (α : Type*) [LT α] where
  toList : List α
  sorted : toList.Pairwise (· < ·)

variable {α : Type*} [LT α] {l rest : List α} {a b c : α}

instance : Membership α (FlatSet α) := ⟨fun s a => a ∈ s.toList⟩

section Extents
variable [LE α] [Std.IsLinearOrder α] [Std.LawfulOrderLT α]

theorem head_le (hl : l.Pairwise (· < ·)) (hne : l ≠ []) (ha : a ∈ l) : l.head hne ≤ a := by
  cases l with
  | nil => cases ha
  | cons b l =>
    obtain rfl | ha := mem_cons.mp ha
    · exact Std.le_refl _
    · exact Std.le_of_lt ((pairwise_cons.mp hl).1 a ha)

theorem le_getLast (hl : l.Pairwise (· < ·)) (hne : l ≠ []) (ha : a ∈ l) : a ≤ l.getLast hne := by
  rw [← dropLast_append_getLast hne] at hl ha
  obtain ha | ha := mem_append.mp ha
  · exact Std.le_of_lt ((pairwise_append.mp hl).2.2 a ha _ (mem_singleton_self _))
  · rw [mem_singleton.mp ha]
    exact Std.le_refl _

end Extents

section LowerBound
variable [DecidableLT α]

/-- `std::lower_bound` on the part of a vector from an iterator on. -/
def lowerBound (l : List α) (a : α) : List α := l.dropWhile (· < a)

theorem sorted_lowerBound (h : l.Pairwise (· < ·)) (a : α) : (lowerBound l a).Pairwise (· < ·) :=
  h.sublist (dropWhile_sublist _)

theorem not_lt_of_lowerBound (h : lowerBound l a = b :: rest) : ¬ b < a := by
  have hhead := head?_dropWhile_not (fun x => decide (x < a)) l
  rw [← lowerBound, h] at hhead
  simpa using hhead

variable [LE α] [Std.IsLinearOrder α] [Std.LawfulOrderLT α]

theorem mem_lowerBound (hc : a ≤ c) : c ∈ lowerBound l a ↔ c ∈ l := by
  refine ⟨fun h => (dropWhile_sublist _).subset h, fun h => ?_⟩
  rw [← takeWhile_append_dropWhile (p := fun x => decide (x < a)) (l := l)] at h
  obtain h | h := mem_append.mp h
  · have hlt : c < a := by simpa using mem_takeWhile_imp h
    exact absurd hc (Std.not_le.mpr hlt)
  · exact h

theorem mem_iff_of_lowerBound (hl : l.Pairwise (· < ·)) (h : lowerBound l a = b :: rest) :
    a ∈ l ↔ b = a := by
  have hsorted := sorted_lowerBound hl a
  rw [← mem_lowerBound (Std.le_refl a), h, mem_cons]
  rw [h, pairwise_cons] at hsorted
  constructor
  · rintro (hab | hmem)
    · exact hab.symm
    · exact absurd (hsorted.1 a hmem) (not_lt_of_lowerBound h)
  · intro hba
    exact Or.inl hba.symm

end LowerBound
end FlonCore.Library
