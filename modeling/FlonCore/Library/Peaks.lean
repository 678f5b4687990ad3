import Mathlib.Tactic

/-!
# Peaks of a list

A list is paired off level by level with a binary operation; an element left over
at a level is a peak. There is one peak for every one bit of the length, the
largest first. Appending an element to the list is a binary carry through the
peaks, and a list cut at a power of two has the peaks of both parts.
-/

namespace FlonCore.Library
open List
variable {D : Type*} (combine : D → D → D)

/-- The next level: an element without a partner is left out. -/
def pairs : List D → List D
  | a :: b :: rest => combine a b :: pairs rest
  | _ => []

def lastOdd : List D → List D
  | [] => []
  | [a] => [a]
  | _ :: _ :: rest => lastOdd rest

@[simp] theorem length_pairs (l : List D) : (pairs combine l).length = l.length / 2 := by
  induction l using lastOdd.induct with
  | case1 => simp [pairs]
  | case2 a => simp [pairs]
  | case3 a b rest ih =>
    simp only [pairs, length_cons, ih]
    omega

theorem length_lastOdd (l : List D) : (lastOdd l).length = l.length % 2 := by
  induction l using lastOdd.induct with
  | case1 => rfl
  | case2 a => rfl
  | case3 a b rest ih =>
    simp only [lastOdd, length_cons, ih]
    omega

variable {l : List D}

theorem pairs_append (h : l.length % 2 = 0) (l' : List D) :
    pairs combine (l ++ l') = pairs combine l ++ pairs combine l' := by
  induction l using lastOdd.induct with
  | case1 => simp [pairs]
  | case2 a => simp at h
  | case3 a b rest ih =>
    have hrest : rest.length % 2 = 0 := by
      simp only [length_cons] at h
      omega
    simp [pairs, ih hrest]

theorem lastOdd_append (h : l.length % 2 = 0) (l' : List D) : lastOdd (l ++ l') = lastOdd l' := by
  induction l using lastOdd.induct with
  | case1 => rfl
  | case2 a => simp at h
  | case3 a b rest ih =>
    have hrest : rest.length % 2 = 0 := by
      simp only [length_cons] at h
      omega
    simp [lastOdd, ih hrest]

theorem exists_concat_of_odd (h : l.length % 2 = 1) :
    ∃ l' t, l = l' ++ [t] ∧ l'.length % 2 = 0 := by
  cases l using List.reverseRecOn with
  | nil => simp at h
  | append_singleton l' t =>
    rw [length_append, length_singleton] at h
    exact ⟨l', t, rfl, by omega⟩

theorem lastOdd_of_even (h : l.length % 2 = 0) : lastOdd l = [] := by
  rw [← length_eq_zero_iff, length_lastOdd, h]

def peaks (l : List D) : List D :=
  if l.length ≤ 1 then l else peaks (pairs combine l) ++ lastOdd l
termination_by l.length
decreasing_by
  rw [length_pairs]
  omega

theorem peaks_eq (l : List D) : peaks combine l = peaks combine (pairs combine l) ++ lastOdd l := by
  cases l with
  | nil => simp [peaks, pairs, lastOdd]
  | cons a rest =>
    cases rest with
    | nil => simp [peaks, pairs, lastOdd]
    | cons b rest =>
      conv_lhs => rw [peaks]
      simp

theorem peaks_nil : peaks combine [] = [] := by
  simp [peaks]

theorem peaks_singleton (a : D) : peaks combine [a] = [a] := by
  simp [peaks]

theorem peaks_of_even (h : l.length % 2 = 0) :
    peaks combine l = peaks combine (pairs combine l) := by
  rw [peaks_eq, lastOdd_of_even h, append_nil]

theorem peaks_ne_nil (h : l ≠ []) : peaks combine l ≠ [] := by
  induction hn : l.length using Nat.strong_induction_on generalizing l with
  | _ n ih =>
    have hpos := length_pos_iff.mpr h
    rw [peaks_eq]
    by_cases hodd : l.length % 2 = 0
    · have hpairs : pairs combine l ≠ [] := by
        rw [← length_pos_iff, length_pairs]
        omega
      exact append_ne_nil_of_left_ne_nil
        (ih (l.length / 2) (by omega) hpairs (length_pairs combine l)) _
    · refine append_ne_nil_of_right_ne_nil _ ?_
      rw [← length_pos_iff, length_lastOdd]
      omega

section Carry
variable {combine}

theorem peaks_concat_of_even {l : List D} (h : l.length % 2 = 0) (d : D) :
    peaks combine (l ++ [d]) = peaks combine l ++ [d] := by
  rw [peaks_eq, pairs_append combine h, lastOdd_append h, peaks_of_even combine h]
  simp [pairs, lastOdd]

theorem peaks_concat_concat {l : List D} (h : l.length % 2 = 0) (a d : D) :
    peaks combine (l ++ [a, d]) = peaks combine (pairs combine l ++ [combine a d]) := by
  rw [peaks_of_even combine (by simp [h]), pairs_append combine h]
  rfl

end Carry

variable {k : ℕ}

theorem length_peaks (h : l.length < 2 ^ k) :
    (peaks combine l).length = (List.range k).countP l.length.testBit := by
  induction k generalizing l with
  | zero =>
    obtain rfl : l = [] := by simpa using h
    simp [peaks_nil]
  | succ k ih =>
    have hhalf : (pairs combine l).length < 2 ^ k := by
      rw [length_pairs]
      omega
    rw [peaks_eq, length_append, ih hhalf, length_lastOdd, range_succ_eq_map,
      countP_cons, countP_map, length_pairs]
    have hshift : l.length.testBit ∘ Nat.succ = (l.length / 2).testBit := by
      funext i
      simp [Nat.testBit_succ]
    have hzero : (if l.length.testBit 0 = true then 1 else 0) = l.length % 2 := by
      split_ifs with hbit <;> simp at hbit <;> omega
    rw [hshift, hzero]

theorem peaks_append {l l' : List D} (h : l.length = 2 ^ k) (h' : l'.length < 2 ^ k) :
    peaks combine (l ++ l') = peaks combine l ++ peaks combine l' := by
  induction k generalizing l l' with
  | zero =>
    obtain rfl : l' = [] := by simpa using h'
    simp [peaks_nil]
  | succ k ih =>
    have heven : l.length % 2 = 0 := by omega
    have hl : (pairs combine l).length = 2 ^ k := by rw [length_pairs]; omega
    have hl' : (pairs combine l').length < 2 ^ k := by rw [length_pairs]; omega
    rw [peaks_eq, pairs_append combine heven, lastOdd_append heven, ih hl hl',
      peaks_of_even combine heven, append_assoc, ← peaks_eq combine l']

theorem peaks_append_self {l l' : List D} (h : l.length = 2 ^ k) (h' : l'.length = 2 ^ k) :
    ∃ a b, peaks combine l = [a] ∧ peaks combine l' = [b] ∧
      peaks combine (l ++ l') = [combine a b] := by
  induction k generalizing l l' with
  | zero =>
    obtain ⟨a, rfl⟩ := length_eq_one_iff.mp h
    obtain ⟨b, rfl⟩ := length_eq_one_iff.mp h'
    refine ⟨a, b, peaks_singleton combine a, peaks_singleton combine b, ?_⟩
    rw [peaks_of_even combine (by simp)]
    simp [pairs, peaks_singleton]
  | succ k ih =>
    have heven : l.length % 2 = 0 := by omega
    have heven' : l'.length % 2 = 0 := by omega
    have hl : (pairs combine l).length = 2 ^ k := by rw [length_pairs]; omega
    have hl' : (pairs combine l').length = 2 ^ k := by rw [length_pairs]; omega
    obtain ⟨a, b, ha, hb, hab⟩ := ih hl hl'
    refine ⟨a, b, ?_, ?_, ?_⟩
    · rw [peaks_of_even combine heven, ha]
    · rw [peaks_of_even combine heven', hb]
    · rw [peaks_of_even combine (by simp; omega), pairs_append combine heven, hab]

end FlonCore.Library
