import Mathlib.Algebra.BigOperators.Group.Finset.Basic
import Mathlib.Algebra.Order.BigOperators.Group.Finset
import Mathlib.Tactic

/-!
# Sums over a family of entries

A ledger keeps an entry for every member of a finite family and may keep their total
beside them. One entry changes at a time, or two change against each other.
-/

namespace FlonCore.Library
open Finset Function
variable {ι : Type*} [Fintype ι]

theorem sum_update [DecidableEq ι] {β : ι → Type*} (f : (i : ι) → β i) (i : ι) (b : β i)
    (w : (i : ι) → β i → ℤ) :
    ∑ j, w j (update f i b j) = ∑ j, w j (f j) - w i (f i) + w i b := by
  have hrest : ∑ j ∈ Finset.univ.erase i, w j (update f i b j) =
      ∑ j ∈ Finset.univ.erase i, w j (f j) := by
    refine sum_congr rfl fun j hj => ?_
    rw [Function.update_of_ne (ne_of_mem_erase hj)]
  rw [← add_sum_erase _ _ (mem_univ i), hrest,
    ← add_sum_erase _ (fun j => w j (f j)) (mem_univ i), Function.update_self]
  ring

theorem sum_eq_of_transfer [DecidableEq ι] {f g : ι → ℤ} {i j : ι} {x : ℤ} (hne : i ≠ j)
    (hi : g i = f i - x) (hj : g j = f j + x) (hrest : ∀ a, a ≠ i → a ≠ j → g a = f a) :
    ∑ a, g a = ∑ a, f a := by
  have hmem : j ∈ Finset.univ.erase i := by simp [hne.symm]
  have hsum : ∑ a ∈ (Finset.univ.erase i).erase j, g a =
      ∑ a ∈ (Finset.univ.erase i).erase j, f a := by
    refine sum_congr rfl fun a ha => ?_
    rw [mem_erase, mem_erase] at ha
    exact hrest a ha.2.1 ha.1
  rw [← add_sum_erase _ g (mem_univ i), ← add_sum_erase _ g hmem,
    ← add_sum_erase _ f (mem_univ i), ← add_sum_erase _ f hmem, hsum, hi, hj]
  ring

def Tallies (total : ℕ) (entries : ι → ℕ) : Prop := total = ∑ i, entries i

variable {total total' : ℕ} {entries entries' : ι → ℕ} {i : ι}

theorem tallies_zero : Tallies 0 fun _ : ι => 0 := by simp [Tallies]

theorem Tallies.change [DecidableEq ι] (h : Tallies total entries) {x : ℤ}
    (htotal : (total' : ℤ) = total + x) (hi : (entries' i : ℤ) = entries i + x)
    (hrest : ∀ j, j ≠ i → entries' j = entries j) : Tallies total' entries' := by
  have hsum : ∑ j ∈ Finset.univ.erase i, entries' j = ∑ j ∈ Finset.univ.erase i, entries j :=
    sum_congr rfl fun j hj => hrest j (ne_of_mem_erase hj)
  have hold : total = entries i + ∑ j ∈ Finset.univ.erase i, entries j :=
    h.trans (add_sum_erase _ entries (mem_univ i)).symm
  have hnew := add_sum_erase _ entries' (mem_univ i)
  unfold Tallies
  omega

theorem Tallies.entry_le (h : Tallies total entries) (i : ι) : entries i ≤ total := by
  rw [h]
  exact single_le_sum (fun j _ => Nat.zero_le (entries j)) (mem_univ i)

end FlonCore.Library
