import Mathlib.Algebra.Order.BigOperators.Group.List
import Mathlib.Logic.Relation
import Mathlib.Tactic

/-!
# Threshold derivations

A node of a graph is derived if it is given, or if its rule is met: the rule's own
weight and the weights of its derived children reach a threshold. The graph may have
cycles, derivations are finite.
-/

namespace FlonCore.Library

open List Relation
structure ThresholdRule (ν : Type*) where
  (threshold own : ℕ)
  children : List (ν × ℕ)

structure ThresholdSystem (ν : Type*) where
  given : ν → Prop
  rule : ν → Option (ThresholdRule ν)

variable {ν : Type*}

namespace ThresholdRule
variable {r : ThresholdRule ν} {P Q : ν → Prop}

open Classical in
/-- The weight of a rule when the nodes that satisfy `P` count. -/
noncomputable def weight (r : ThresholdRule ν) (P : ν → Prop) : ℕ :=
  r.own + (r.children.map fun c => if P c.1 then c.2 else 0).sum

def Met (r : ThresholdRule ν) (P : ν → Prop) : Prop := r.threshold ≤ r.weight P

theorem Met.mono (h : r.Met P) (hPQ : ∀ c ∈ r.children, P c.1 → Q c.1) : r.Met Q := by
  refine h.trans (Nat.add_le_add_left (sum_le_sum fun c hc => ?_) _)
  by_cases hP : P c.1
  · rw [if_pos hP, if_pos (hPQ c hc hP)]
  · rw [if_neg hP]
    exact Nat.zero_le _

theorem sum_le_of_sublist {chosen children : List (ν × ℕ)} (hsub : chosen.Sublist children)
    (hP : ∀ c ∈ chosen, P c.1) [DecidablePred P] :
    (chosen.map Prod.snd).sum ≤ (children.map fun c => if P c.1 then c.2 else 0).sum := by
  have hchosen : chosen.map Prod.snd = chosen.map fun c => if P c.1 then c.2 else 0 :=
    map_congr_left fun c hc => (if_pos (hP c hc)).symm
  rw [hchosen]
  exact (hsub.map _).sum_le_sum fun _ _ => Nat.zero_le _

theorem sum_filter_eq (children : List (ν × ℕ)) [DecidablePred P] :
    ((children.filter fun c => P c.1).map Prod.snd).sum =
      (children.map fun c => if P c.1 then c.2 else 0).sum := by
  induction children with
  | nil => rfl
  | cons c rest ih =>
    by_cases hP : P c.1
    · simp [hP, ih]
    · simp [hP, ih]

end ThresholdRule

namespace ThresholdSystem
variable {S : ThresholdSystem ν} {p q : ν} {r : ThresholdRule ν} {n : ℕ}

inductive Derives (S : ThresholdSystem ν) : ν → Prop
  | given {p : ν} (h : S.given p) : Derives S p
  | rule {p : ν} {r : ThresholdRule ν} (chosen : List (ν × ℕ)) (h : S.rule p = some r)
      (hsub : chosen.Sublist r.children) (hchosen : ∀ c ∈ chosen, Derives S c.1)
      (hle : r.threshold ≤ r.own + (chosen.map Prod.snd).sum) : Derives S p

def DerivesIn (S : ThresholdSystem ν) : ℕ → ν → Prop
  | 0, p => S.given p
  | n + 1, p => S.given p ∨ ∃ r, S.rule p = some r ∧ r.Met (S.DerivesIn n)

theorem Derives.of_met (h : S.rule p = some r) (hmet : r.Met S.Derives) : S.Derives p := by
  classical
  refine .rule (r.children.filter fun c => S.Derives c.1) h filter_sublist ?_ ?_
  · intro c hc
    simpa using (mem_filter.mp hc).2
  · rw [ThresholdRule.sum_filter_eq]
    exact hmet

theorem derives_iff : S.Derives p ↔ S.given p ∨ ∃ r, S.rule p = some r ∧ r.Met S.Derives := by
  classical
  constructor
  · rintro (h | ⟨chosen, h, hsub, hchosen, hle⟩)
    · exact .inl h
    · refine .inr ⟨_, h, hle.trans (Nat.add_le_add_left ?_ _)⟩
      exact (ThresholdRule.sum_le_of_sublist hsub hchosen).trans_eq (by congr!)
  · rintro (h | ⟨r, h, hmet⟩)
    · exact .given h
    · exact .of_met h hmet

theorem Derives.map {S' : ThresholdSystem ν} (hgiven : ∀ p, S.given p → S'.given p)
    (hrule : ∀ p r, S.rule p = some r →
      ∃ r', S'.rule p = some r' ∧ ∀ P : ν → Prop, r.Met P → r'.Met P)
    (h : S.Derives p) : S'.Derives p := by
  classical
  induction h with
  | given h => exact .given (hgiven _ h)
  | rule chosen h hsub _ hle ih =>
    obtain ⟨r', hr', hmet⟩ := hrule _ _ h
    refine .of_met hr' (hmet _ (hle.trans (Nat.add_le_add_left ?_ _)))
    exact (ThresholdRule.sum_le_of_sublist hsub ih).trans_eq (by congr!)

theorem DerivesIn.derives (h : S.DerivesIn n p) : S.Derives p := by
  induction n generalizing p with
  | zero => exact .given h
  | succ n ih =>
    rcases h with h | ⟨r, hr, hmet⟩
    · exact .given h
    · exact .of_met hr (hmet.mono fun c _ hc => ih hc)

def Expands (S : ThresholdSystem ν) (p : ν) (r : ThresholdRule ν) : Prop :=
  ¬ S.given p ∧ S.rule p = some r

def Edge (S : ThresholdSystem ν) (p q : ν) : Prop :=
  ∃ r, S.Expands p r ∧ ∃ w, (q, w) ∈ r.children

/-- No chain of more than `n` rules starts at a node; in particular it is on no cycle. -/
def WithinDepth (S : ThresholdSystem ν) : ℕ → ν → Prop
  | 0, p => ∀ r, ¬ S.Expands p r
  | n + 1, p => ∀ q, S.Edge p q → S.WithinDepth n q

theorem WithinDepth.acc (h : S.WithinDepth n p) : Acc (fun q p => S.Edge p q) p := by
  induction n generalizing p with
  | zero => exact ⟨p, fun q ⟨r, hr, _⟩ => absurd hr (h r)⟩
  | succ n ih => exact ⟨p, fun q hq => ih (h q hq)⟩

theorem WithinDepth.not_loop_of_reach (h : S.WithinDepth n p)
    (hpq : ReflTransGen S.Edge p q) : ¬ TransGen S.Edge q q := by
  have hacc : Acc (fun q p => S.Edge p q) q := by
    induction hpq with
    | refl => exact h.acc
    | tail _ hedge ih => exact ih.inv hedge
  clear h hpq
  induction hacc with
  | intro p _ ih =>
    intro hloop
    obtain ⟨q, hpq, hqp⟩ := TransGen.head'_iff.mp hloop
    exact ih q hpq (.tail' hqp hpq)

theorem WithinDepth.not_loop (h : S.WithinDepth n p) : ¬ TransGen S.Edge p p :=
  h.not_loop_of_reach .refl

theorem WithinDepth.map {S' : ThresholdSystem ν}
    (hexpands : ∀ p r', S'.Expands p r' → ∃ r, S.Expands p r)
    (hedge : ∀ p q, S'.Edge p q → S.Edge p q) (h : S.WithinDepth n p) : S'.WithinDepth n p := by
  induction n generalizing p with
  | zero =>
    intro r' hr'
    obtain ⟨r, hr⟩ := hexpands p r' hr'
    exact h r hr
  | succ n ih => exact fun q hq => ih (h q (hedge p q hq))

theorem WithinDepth.derives_iff (h : S.WithinDepth n p) : S.Derives p ↔ S.DerivesIn n p := by
  refine ⟨fun hp => ?_, DerivesIn.derives⟩
  induction n generalizing p with
  | zero =>
    rcases ThresholdSystem.derives_iff.mp hp with hgiven | ⟨r, hr, -⟩
    · exact hgiven
    · by_contra hnot
      exact h r ⟨hnot, hr⟩
  | succ n ih =>
    by_cases hgiven : S.given p
    · exact .inl hgiven
    · rcases ThresholdSystem.derives_iff.mp hp with hgiven' | ⟨r, hr, hmet⟩
      · exact .inl hgiven'
      · exact .inr ⟨r, hr, hmet.mono fun c hc hder =>
          ih (h c.1 ⟨r, ⟨hgiven, hr⟩, c.2, hc⟩) hder⟩

end ThresholdSystem
end FlonCore.Library
