import Mathlib.Data.List.Basic
import Mathlib.Tactic

/-!
# Lists numbered consecutively modulo a word size

A sliding window keeps entries with consecutive numbers, drops a batch at the
front and appends one entry at the back. Numbers live in `ℕ` below the word
size `m`; subtraction is the wrapping one of a fixed-width machine word. An
entry is found by subtracting the window's first number from the one sought.
-/

namespace FlonCore.Library

open List
/-- Subtraction of two words below `m`, wrapping around as a machine word does. -/
@[irreducible] def wrapSub (m a b : ℕ) : ℕ := (a + m - b) % m

theorem wrapSub_of_le {m a b : ℕ} (hb : b ≤ a) (ha : a < m) : wrapSub m a b = a - b := by
  unfold wrapSub
  have he : a + m - b = (a - b) + m := by omega
  rw [he, Nat.add_mod_right, Nat.mod_eq_of_lt (by omega)]

theorem wrapSub_zero_left {m b : ℕ} (hb : 0 < b) (hm : b ≤ m) : wrapSub m 0 b = m - b := by
  unfold wrapSub
  rw [Nat.zero_add, Nat.mod_eq_of_lt (by omega)]

/-- The entry at index `i` carries the number `start + i`, reduced modulo `m`. -/
def Numbered {α : Type*} (m : ℕ) (num : α → ℕ) (start : ℕ) (l : List α) : Prop :=
  ∀ i x, l[i]? = some x → num x = (start + i) % m

namespace Numbered
variable {α : Type*} {m : ℕ} {num : α → ℕ} {start : ℕ} {l : List α}

theorem nil : Numbered m num start ([] : List α) := by
  intro i x hx
  simp at hx

theorem singleton {x : α} (hx : num x = start % m) : Numbered m num start [x] := by
  intro i y hy
  cases i with
  | zero =>
    simp only [getElem?_cons_zero, Option.some.injEq] at hy
    simpa [← hy] using hx
  | succ i => simp at hy

theorem drop (h : Numbered m num start l) (k : ℕ) : Numbered m num (start + k) (l.drop k) := by
  intro i x hx
  rw [getElem?_drop] at hx
  have he := h (k + i) x hx
  rwa [← Nat.add_assoc] at he

theorem append_one (h : Numbered m num start l) {x : α}
    (hx : num x = (start + l.length) % m) : Numbered m num start (l ++ [x]) := by
  intro i y hy
  rw [getElem?_append] at hy
  split_ifs at hy with hi
  · exact h i y hy
  · obtain ⟨hlt, hy'⟩ := List.getElem?_eq_some_iff.mp hy
    have he : i = l.length := by simp at hlt; omega
    subst he
    simp only [Nat.sub_self, getElem_cons_zero] at hy'
    rwa [← hy']

theorem lookup (h : Numbered m num start l) {n : ℕ} (hs : start ≤ n)
    (hn : n < start + l.length) (hm : n < m) : ∃ x, l[wrapSub m n start]? = some x ∧ num x = n := by
  rw [wrapSub_of_le hs hm]
  have hi : n - start < l.length := by omega
  refine ⟨l[n - start], getElem?_eq_getElem hi, ?_⟩
  have he := h (n - start) _ (getElem?_eq_getElem hi)
  rwa [show start + (n - start) = n by omega, Nat.mod_eq_of_lt hm] at he

theorem lookup_none {n : ℕ} (hn : start + l.length ≤ n) (hm : n < m) :
    l[wrapSub m n start]? = none := by
  rw [wrapSub_of_le (by omega) hm]
  exact getElem?_eq_none (by omega)

theorem adjacent (h : Numbered m num start l) {i : ℕ} {a b : α}
    (ha : l[i]? = some a) (hb : l[i + 1]? = some b) : (num a + 1) % m = num b := by
  rw [h i a ha, h (i + 1) b hb, Nat.mod_add_mod, Nat.add_assoc]

end Numbered

variable {α : Type*} {l : List α} {R : α → α → Prop}

theorem pairwise_getElem? (h : l.Pairwise R)
    {i j : ℕ} (hij : i < j) {a b : α} (ha : l[i]? = some a) (hb : l[j]? = some b) : R a b := by
  obtain ⟨hi, rfl⟩ := List.getElem?_eq_some_iff.mp ha
  obtain ⟨hj, rfl⟩ := List.getElem?_eq_some_iff.mp hb
  exact pairwise_iff_getElem.mp h i j hi hj hij

theorem pairwise_of_split
    (h : ∀ pre a post, l = pre ++ a :: post → ∀ b ∈ post, R a b) : l.Pairwise R := by
  induction l with
  | nil => exact .nil
  | cons a l ih =>
    refine .cons (h [] a l rfl) (ih fun pre b post hl => h (a :: pre) b post ?_)
    rw [hl, cons_append]

theorem pairwise_append_one (h : l.Pairwise R)
    {x : α} (hx : ∀ a ∈ l, R a x) : (l ++ [x]).Pairwise R := by
  refine pairwise_append.mpr ⟨h, pairwise_singleton R x, ?_⟩
  intro a ha b hb
  rw [mem_singleton] at hb
  exact hb ▸ hx a ha

theorem getElem?_drop_append_one {k i : ℕ} {x y : α}
    (h : (l.drop k ++ [x])[i]? = some y) : l[k + i]? = some y ∨ (i = l.length - k ∧ y = x) := by
  rw [getElem?_append, length_drop] at h
  split_ifs at h with hlt
  · exact .inl (by rwa [getElem?_drop] at h)
  · obtain ⟨hi, hy⟩ := List.getElem?_eq_some_iff.mp h
    simp only [length_singleton] at hi
    simp only [getElem_singleton] at hy
    exact .inr ⟨by omega, hy.symm⟩

end FlonCore.Library
