import Mathlib.Algebra.BigOperators.Group.Finset.Basic
import Mathlib.Algebra.Order.BigOperators.Group.Finset
import Mathlib.Tactic

/-!
# Weighted quorums

A group of voters reaches a threshold when the weights of its members add up to
it. Two groups that reach a threshold above half of the total weight intersect.
-/

namespace FlonCore.Library

open Finset
variable {ι : Type*} [Fintype ι] (weight : ι → ℕ)

open Classical in
noncomputable def weightOf (p : ι → Prop) : ℕ := ∑ i with p i, weight i

variable {p p' : ι → Prop}

theorem weightOf_mono (h : ∀ i, p i → p' i) : weightOf weight p ≤ weightOf weight p' := by
  refine sum_le_sum_of_subset ?_
  intro i hi
  simp only [mem_filter, mem_univ, true_and] at hi ⊢
  exact h i hi

theorem weightOf_le_total (p : ι → Prop) : weightOf weight p ≤ ∑ i, weight i := by
  exact sum_le_sum_of_subset (subset_univ _)

theorem weightOf_or (h : ∀ i, p i → ¬ p' i) :
    weightOf weight (fun i => p i ∨ p' i) = weightOf weight p + weightOf weight p' := by
  classical
  have hd : Disjoint (Finset.univ.filter p) (Finset.univ.filter p') := by
    rw [disjoint_filter]
    intro i _ hi
    exact h i hi
  unfold weightOf
  rw [← sum_union hd]
  congr 1
  ext i
  simp

theorem weightOf_eq_sum (p : ι → Prop) [DecidablePred p] :
    weightOf weight p = ∑ i, if p i then weight i else 0 := by
  unfold weightOf
  rw [sum_filter]
  exact sum_congr rfl fun i _ => by congr

theorem weightOf_positive (p : ι → Prop) :
    weightOf weight (fun i => p i ∧ 0 < weight i) = weightOf weight p := by
  classical
  rw [weightOf_eq_sum, weightOf_eq_sum]
  refine sum_congr rfl fun i _ => ?_
  by_cases hi : 0 < weight i
  · simp [hi]
  · simp [Nat.eq_zero_of_not_pos hi]

theorem exists_common_voter {threshold : ℕ}
    (hmajority : ∑ i, weight i < 2 * threshold) (hp : threshold ≤ weightOf weight p)
    (hp' : threshold ≤ weightOf weight p') : ∃ i, p i ∧ p' i := by
  by_contra hnone
  push Not at hnone
  have hle := weightOf_le_total weight fun i => p i ∨ p' i
  rw [weightOf_or weight hnone] at hle
  omega

end FlonCore.Library
