import Mathlib.Data.List.GetD
import Mathlib.Data.List.Sort
import Mathlib.Tactic

/-!
# Order statistics of a list

The element at a position of the sorted list, characterised by counting: it is at
least `v` exactly if no more elements are below `v` than there are positions before
it. Sorting itself never has to be computed.
-/

namespace FlonCore.Library
open List
variable {α : Type*} [LinearOrder α]

def orderStatistic (l : List α) (i : ℕ) (default : α) : α :=
  (l.insertionSort (· ≤ ·)).getD i default

variable {i : ℕ} {l : List α}

theorem orderStatistic_mem (hi : i < l.length) (default : α) : orderStatistic l i default ∈ l := by
  have hlength : i < (l.insertionSort (· ≤ ·)).length := by rwa [length_insertionSort]
  rw [orderStatistic, getD_eq_getElem _ _ hlength]
  exact (perm_insertionSort _ l).mem_iff.mp (getElem_mem hlength)

theorem le_getD_iff_countP (hl : l.Pairwise (· ≤ ·)) (hi : i < l.length)
    (v default : α) : v ≤ l.getD i default ↔ l.countP (· < v) ≤ i := by
  induction l generalizing i with
  | nil => exact absurd hi (Nat.not_lt_zero i)
  | cons a l ih =>
    obtain ⟨hhead, htail⟩ := pairwise_cons.mp hl
    by_cases ha : a < v
    · rw [countP_cons_of_pos (by simpa using ha)]
      cases i with
      | zero => simpa using ha
      | succ i =>
        rw [getD_cons_succ, ih htail (Nat.lt_of_succ_lt_succ hi)]
        omega
    · -- the head is at least `v`, and so is everything after it
      have hall : ∀ b ∈ a :: l, v ≤ b := by
        rw [forall_mem_cons]
        exact ⟨not_lt.mp ha, fun b hb => (not_lt.mp ha).trans (hhead b hb)⟩
      have hcount : (a :: l).countP (· < v) = 0 := by
        rw [countP_eq_zero]
        exact fun b hb => by simpa using hall b hb
      rw [hcount, getD_eq_getElem _ _ hi]
      exact iff_of_true (hall _ (getElem_mem hi)) (Nat.zero_le i)

theorem le_orderStatistic_iff (hi : i < l.length) (v default : α) :
    v ≤ orderStatistic l i default ↔ l.countP (· < v) ≤ i := by
  rw [orderStatistic, le_getD_iff_countP (pairwise_insertionSort _ l)
    (by rwa [length_insertionSort]), (perm_insertionSort _ l).countP_eq]

end FlonCore.Library
