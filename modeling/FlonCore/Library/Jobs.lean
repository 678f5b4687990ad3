import Mathlib.Data.List.Chain
import Mathlib.Tactic

/-!
# Jobs numbered as they are created, and counters

Jobs get the numbers `1, 2, …` in the order of their creation and may be carried
out in any other order. What is done and what is pending is together every job
created so far, so that a worklist that ends empty has done each job once. A
counter that every event advances by one stamps the events consecutively.
-/

namespace FlonCore.Library

open List
/-- The jobs done and pending are the jobs `1, …, n`, each once. -/
def Outstanding (done pending : List ℕ) (n : ℕ) : Prop := (done ++ pending).Perm (range' 1 n)

namespace Outstanding
variable {done pending : List ℕ} {n job : ℕ}

theorem of_perm {pending' : List ℕ} (h : Outstanding done pending n) (hp : pending'.Perm pending) :
    Outstanding done pending' n :=
  (hp.append_left done).trans h

theorem create (h : Outstanding done pending n) :
    Outstanding done ((n + 1) :: pending) (n + 1) := by
  have hrange : range' 1 (n + 1) = range' 1 n ++ [n + 1] := by
    rw [range'_concat, one_mul, add_comm]
  unfold Outstanding
  rw [hrange]
  exact perm_middle.trans ((List.Perm.cons _ h).trans (perm_append_singleton _ _).symm)

theorem execute (h : Outstanding done (job :: pending) n) :
    Outstanding (done ++ [job]) pending n := by
  unfold Outstanding
  rwa [append_assoc, singleton_append]

theorem nodup (h : Outstanding done pending n) : (done ++ pending).Nodup :=
  h.nodup_iff.mpr nodup_range'

theorem mem_pending (h : Outstanding done pending n) (hjob : job ∈ pending) :
    0 < job ∧ job ≤ n := by
  have hmem := h.mem_iff.mp (mem_append_right done hjob)
  rw [mem_range'_1] at hmem
  omega

theorem mem_done (h : Outstanding done pending n) (hjob : job ∈ done) : 0 < job ∧ job ≤ n := by
  have hmem := h.mem_iff.mp (mem_append_left pending hjob)
  rw [mem_range'_1] at hmem
  omega

theorem not_mem_done (h : Outstanding done (job :: pending) n) : job ∉ done := by
  intro hdone
  exact (nodup_append.mp h.nodup).2.2 job hdone job (by simp) rfl

theorem of_nil (h : Outstanding done [] n) : done.Perm (range' 1 n) := by
  unfold Outstanding at h
  rwa [append_nil] at h

end Outstanding

theorem filter_eq_singleton {α : Type*} {l : List α} {f : α → ℕ} {a : α} (h : (l.map f).Nodup)
    (ha : a ∈ l) : l.filter (fun b => f b = f a) = [a] := by
  induction l with
  | nil => exact absurd ha not_mem_nil
  | cons b l ih =>
    rw [map_cons, nodup_cons] at h
    rcases mem_cons.mp ha with rfl | ha
    · rw [filter_cons_of_pos (by simp), filter_eq_nil_iff.mpr]
      intro b hb hsame
      exact h.1 (of_decide_eq_true hsame ▸ mem_map_of_mem hb)
    · have hne : f b ≠ f a := fun hsame => h.1 (hsame ▸ mem_map_of_mem ha)
      rw [filter_cons_of_neg (by simpa using hne)]
      exact ih h.2 ha

/-- The stamps `l` are consecutive and end with the counter. -/
def Stamped {α : Type*} [Add α] [One α] (l : List α) (counter : α) : Prop :=
  l.IsChain (fun a b => b = a + 1) ∧ ∀ a ∈ l.getLast?, a = counter

namespace Stamped
variable {α : Type*} [Add α] [One α] {l : List α} {counter : α}

theorem nil : Stamped [] counter := ⟨isChain_nil, by simp⟩

theorem stamp (h : Stamped l counter) : Stamped (l ++ [counter + 1]) (counter + 1) := by
  refine ⟨isChain_append.mpr ⟨h.1, isChain_singleton _, ?_⟩, by simp⟩
  intro a ha b hb
  obtain rfl : counter + 1 = b := by simpa using hb
  rw [h.2 a ha]

end Stamped
end FlonCore.Library
