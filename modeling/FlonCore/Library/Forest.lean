import Mathlib.Data.List.Nodup
import Mathlib.Logic.Relation
import Mathlib.Tactic

/-!
# Forests stored as lists of nodes

A node names itself by a key and its parent by another. A list of nodes is a
forest when the keys are distinct and no node is its own ancestor. The library
has the breadth-first sweep over the nodes below a key, the removal of such a
subtree, the climb from a node to its oldest stored ancestor, and the pruning of
a forest to what lies below one node.
-/

namespace FlonCore.Library

open List Relation.ReflTransGen
section Sweep
variable {α : Type*} (succ : α → List α)

/-- Breadth-first traversal: a queue that grows at its end while it is read from its
front. The traversal fails when it is given too few steps. -/
def sweep : ℕ → List α → Option (List α)
  | _, [] => some []
  | 0, _ :: _ => none
  | fuel + 1, x :: queue => (sweep fuel (queue ++ succ x)).map (x :: ·)

def Leads : α → α → Prop := Relation.ReflTransGen fun a b => b ∈ succ a

theorem leads_iff {x y : α} : Leads succ x y ↔ y = x ∨ ∃ z ∈ succ x, Leads succ z y := by
  unfold Leads
  rw [cases_head_iff]
  exact or_congr_left eq_comm

theorem mem_sweep {fuel : ℕ} {queue out : List α} (h : sweep succ fuel queue = some out) (y : α) :
    y ∈ out ↔ ∃ x ∈ queue, Leads succ x y := by
  induction fuel generalizing queue out with
  | zero =>
    cases queue with
    | nil =>
      cases h
      simp
    | cons x queue => cases h
  | succ fuel ih =>
    cases queue with
    | nil =>
      cases h
      simp
    | cons x queue =>
      obtain ⟨out', hout, rfl⟩ := Option.map_eq_some_iff.mp h
      rw [mem_cons, ih hout]
      simp only [mem_append, mem_cons, or_and_right, exists_or, exists_eq_left]
      rw [leads_iff succ, or_assoc]
      exact or_congr_right or_comm

end Sweep

variable {α β : Type*} [DecidableEq α] (key parent : β → α)

def children (nodes : List β) (x : α) : List α := (nodes.filter fun b => parent b = x).map key

/-- `Descends nodes x y`: the nodes lead from `x` down to `y`, which may be `x` itself. -/
def Descends (nodes : List β) : α → α → Prop := Leads (children key parent nodes)

structure Forest (nodes : List β) : Prop where
  keys_nodup : (nodes.map key).Nodup
  ranked : ∃ rank : α → ℕ, ∀ b ∈ nodes, rank (parent b) < rank (key b)

section Descent
variable {key parent} {nodes nodes' : List β} {x y z : α} {b c : β}

theorem mem_children : y ∈ children key parent nodes x ↔
    ∃ b ∈ nodes, parent b = x ∧ key b = y := by
  simp [children, and_assoc]

@[refl] theorem Descends.refl (x : α) : Descends key parent nodes x x := Relation.ReflTransGen.refl

theorem Descends.child (h : Descends key parent nodes x (parent b)) (hb : b ∈ nodes) :
    Descends key parent nodes x (key b) :=
  Relation.ReflTransGen.tail h (mem_children.mpr ⟨b, hb, rfl, rfl⟩)

section
variable (h : Descends key parent nodes x y)
include h

theorem Descends.trans (h' : Descends key parent nodes y z) : Descends key parent nodes x z :=
  Relation.ReflTransGen.trans h h'

theorem Descends.cases :
    y = x ∨ ∃ b ∈ nodes, key b = y ∧ Descends key parent nodes x (parent b) := by
  rcases cases_tail h with rfl | ⟨z, hz, hmem⟩
  · exact .inl rfl
  · obtain ⟨b, hb, rfl, rfl⟩ := mem_children.mp hmem
    exact .inr ⟨b, hb, rfl, hz⟩

theorem Descends.mono (hsub : nodes ⊆ nodes') : Descends key parent nodes' x y := by
  induction h with
  | refl => exact Descends.refl x
  | tail _ hstep ih =>
    obtain ⟨b, hb, rfl, rfl⟩ := mem_children.mp hstep
    exact ih.child (hsub hb)

theorem Descends.rank_le {rank : α → ℕ} (hrank : ∀ b ∈ nodes, rank (parent b) < rank (key b)) :
    rank x ≤ rank y := by
  induction h with
  | refl => exact le_rfl
  | tail _ hstep ih =>
    obtain ⟨b, hb, rfl, rfl⟩ := mem_children.mp hstep
    exact ih.trans (hrank b hb).le

end

variable (h : Forest key parent nodes)
include h

omit [DecidableEq α] in
theorem Forest.eq_of_key (hb : b ∈ nodes) (hc : c ∈ nodes)
    (hkey : key b = key c) : b = c :=
  inj_on_of_nodup_map h.keys_nodup hb hc hkey

omit [DecidableEq α] in
theorem Forest.subset (hsub : nodes' ⊆ nodes) (hnodup : (nodes'.map key).Nodup) :
    Forest key parent nodes' := by
  obtain ⟨rank, hrank⟩ := h.ranked
  exact ⟨hnodup, rank, fun b hb => hrank b (hsub hb)⟩

omit [DecidableEq α] in
theorem Forest.sublist (hsub : nodes'.Sublist nodes) : Forest key parent nodes' :=
  h.subset hsub.subset (h.keys_nodup.sublist (hsub.map key))

theorem Forest.descends_parent (hb : b ∈ nodes) (hne : key b ≠ x)
    (hdesc : Descends key parent nodes x (key b)) :
    Descends key parent nodes x (parent b) := by
  rcases hdesc.cases with heq | ⟨c, hc, hkey, hpar⟩
  · exact absurd heq hne
  · rwa [h.eq_of_key hc hb hkey] at hpar

end Descent

section Termination

/-- Where a sweep from `start` stands: the keys `seen` have been read, those of `queue` wait. -/
structure Sweeping (nodes : List β) (rank : α → ℕ) (start : α) (seen queue : List α) : Prop where
  nodup : (seen ++ queue).Nodup
  below : ∀ y ∈ seen ++ queue, rank start ≤ rank y
  traced : ∀ b ∈ nodes, key b ∈ seen ++ queue → key b = start ∨ parent b ∈ seen

variable {key parent} {nodes : List β} {rank : α → ℕ} {start x : α} {seen queue : List α}

theorem length_unread (key parent : β → α) (nodes : List β) (hx : x ∉ seen) :
    (nodes.filter fun b => parent b ∉ seen).length =
      (nodes.filter fun b => parent b ∉ seen ++ [x]).length +
        (children key parent nodes x).length := by
  induction nodes with
  | nil => simp [children]
  | cons b nodes ih =>
    simp only [children, length_map, ← countP_eq_length_filter, countP_cons] at ih ⊢
    rw [ih]
    by_cases hb : parent b = x
    · simp [hb, hx, Nat.add_assoc]
    · by_cases hs : parent b ∈ seen
      · simp [hb, hs]
      · simp [hb, hs, Nat.add_right_comm]

variable (hrank : ∀ b ∈ nodes, rank (parent b) < rank (key b))
include hrank

omit [DecidableEq α] in
theorem Sweeping.fresh (h : Sweeping key parent nodes rank start seen (x :: queue)) {b : β}
    (hb : b ∈ nodes) (hx : parent b = x) : key b ∉ seen ++ x :: queue := by
  intro hmem
  rcases h.traced b hb hmem with hstart | hseen
  · have hlow := h.below x (by simp)
    have hup := hrank b hb
    rw [hx, hstart] at hup
    omega
  · rw [hx] at hseen
    exact (disjoint_of_nodup_append h.nodup) hseen mem_cons_self

variable (hnodup : (nodes.map key).Nodup)
include hnodup

theorem Sweeping.read (h : Sweeping key parent nodes rank start seen (x :: queue)) :
    Sweeping key parent nodes rank start (seen ++ [x]) (queue ++ children key parent nodes x) := by
  have hsplit : seen ++ [x] ++ (queue ++ children key parent nodes x) =
      (seen ++ x :: queue) ++ children key parent nodes x := by simp
  refine ⟨?_, ?_, ?_⟩
  · rw [hsplit]
    refine List.Nodup.append h.nodup (hnodup.sublist (filter_sublist.map key)) ?_
    intro y hy hchild
    obtain ⟨b, hb, hx, rfl⟩ := mem_children.mp hchild
    exact h.fresh hrank hb hx hy
  · intro y hy
    rw [hsplit, mem_append] at hy
    rcases hy with hy | hy
    · exact h.below y hy
    · obtain ⟨b, hb, rfl, rfl⟩ := mem_children.mp hy
      exact (h.below (parent b) (by simp)).trans (hrank b hb).le
  · intro b hb hmem
    rw [hsplit, mem_append] at hmem
    rcases hmem with hmem | hmem
    · exact (h.traced b hb hmem).imp_right (mem_append_left _)
    · obtain ⟨c, hc, rfl, hkey⟩ := mem_children.mp hmem
      rw [inj_on_of_nodup_map hnodup hc hb hkey]
      exact .inr (mem_append_right _ (mem_singleton_self _))

theorem Sweeping.ends {fuel : ℕ} (h : Sweeping key parent nodes rank start seen queue)
    (hfuel : queue.length + (nodes.filter fun b => parent b ∉ seen).length ≤ fuel) :
    ∃ out, sweep (children key parent nodes) fuel queue = some out := by
  induction fuel generalizing seen queue with
  | zero =>
    cases queue with
    | nil => exact ⟨[], rfl⟩
    | cons x queue => simp at hfuel
  | succ fuel ih =>
    cases queue with
    | nil => exact ⟨[], rfl⟩
    | cons x queue =>
      have hx : x ∉ seen := fun hmem =>
        disjoint_of_nodup_append h.nodup hmem mem_cons_self
      have hlen := length_unread key parent nodes hx
      obtain ⟨out, hout⟩ := ih (h.read hrank hnodup) (by
        simp only [length_append, length_cons] at hfuel ⊢
        omega)
      exact ⟨x :: out, by rw [sweep, hout]; rfl⟩

end Termination

section Removal
variable {key parent} {nodes nodes' : List β} {x : α}

def removeBelow (key parent : β → α) (nodes : List β) (x : α) : Option (List β) :=
  (sweep (children key parent nodes) (nodes.length + 1) [x]).map fun queue =>
    nodes.filter fun b => key b ∉ queue

theorem Forest.removeBelow_eq (h : Forest key parent nodes) (x : α) :
    ∃ nodes', removeBelow key parent nodes x = some nodes' ∧ nodes'.Sublist nodes ∧
      ∀ b, b ∈ nodes' ↔ b ∈ nodes ∧ ¬ Descends key parent nodes x (key b) := by
  obtain ⟨rank, hrank⟩ := h.ranked
  have hstart : Sweeping key parent nodes rank x [] [x] := by
    refine ⟨by simp, ?_, ?_⟩
    · intro y hy
      rw [mem_singleton.mp hy]
    · intro b _ hb
      exact .inl (mem_singleton.mp hb)
  have hfuel : [x].length + (nodes.filter fun b => parent b ∉ ([] : List α)).length ≤
      nodes.length + 1 := by
    have hle := length_filter_le (fun b => decide (parent b ∉ ([] : List α))) nodes
    simp only [length_singleton]
    omega
  obtain ⟨out, hout⟩ := hstart.ends hrank h.keys_nodup hfuel
  refine ⟨_, by rw [removeBelow, hout]; rfl, filter_sublist, fun b => ?_⟩
  rw [mem_filter, decide_eq_true_eq, mem_sweep _ hout]
  simp [Descends]

theorem Forest.removeAll_eq (h : Forest key parent nodes) (keys : List α) :
    ∃ nodes', keys.foldlM (removeBelow key parent) nodes = some nodes' ∧ nodes'.Sublist nodes ∧
      (∀ b ∈ nodes', parent b ∉ keys) ∧
      (∀ b ∈ nodes, (∀ a ∈ keys, ¬ Descends key parent nodes a (key b)) → b ∈ nodes') ∧
      ∀ b ∈ nodes', ∀ p ∈ nodes, key p = parent b → p ∈ nodes' := by
  induction keys generalizing nodes with
  | nil => exact ⟨nodes, rfl, List.Sublist.refl _, by simp, fun b hb _ => hb, fun _ _ p hp _ => hp⟩
  | cons a keys ih =>
    obtain ⟨rest, hrest, hsub, hmem⟩ := h.removeBelow_eq a
    obtain ⟨nodes', hfold, hsub', hcut, hkeep, hparent⟩ := ih (h.sublist hsub)
    refine ⟨nodes', by rw [foldlM_cons, hrest]; exact hfold, hsub'.trans hsub, ?_, ?_, ?_⟩
    · intro b hb
      rw [mem_cons, not_or]
      refine ⟨fun heq => ?_, hcut b hb⟩
      subst heq
      have hin := (hmem b).mp (hsub'.subset hb)
      exact hin.2 (Descends.child (Descends.refl _) hin.1)
    · intro b hb hnot
      refine hkeep b ((hmem b).mpr ⟨hb, hnot a mem_cons_self⟩) fun c hc hdesc => ?_
      exact hnot c (mem_cons_of_mem a hc) (hdesc.mono hsub.subset)
    · intro b hb p hp hkey
      refine hparent b hb p ((hmem p).mpr ⟨hp, fun hdesc => ?_⟩) hkey
      rw [hkey] at hdesc
      have hin := (hmem b).mp (hsub'.subset hb)
      exact hin.2 (hdesc.child hin.1)

end Removal

section Climb

def nodeAt (nodes : List β) (x : α) : Option β := nodes.find? fun b => key b = x

def climb (key parent : β → α) (nodes : List β) : ℕ → α → List β
  | 0, _ => []
  | fuel + 1, x =>
    match nodeAt key nodes x with
    | none => []
    | some b => b :: climb key parent nodes fuel (parent b)

def ancestry (key parent : β → α) (nodes : List β) (x : α) : List β :=
  climb key parent nodes (nodes.length + 1) x

variable {key parent} {nodes : List β} {x : α} {b : β} {fuel : ℕ}

theorem nodeAt_some (h : nodeAt key nodes x = some b) : b ∈ nodes ∧ key b = x :=
  ⟨mem_of_find?_eq_some h, by simpa using find?_some h⟩

theorem nodeAt_none : nodeAt key nodes x = none ↔ ∀ b ∈ nodes, key b ≠ x := by
  simp [nodeAt]

theorem nodeAt_eq (hnodup : (nodes.map key).Nodup) (hb : b ∈ nodes) :
    nodeAt key nodes (key b) = some b := by
  cases hfind : nodeAt key nodes (key b) with
  | none => exact absurd rfl (nodeAt_none.mp hfind b hb)
  | some c =>
    obtain ⟨hc, hkey⟩ := nodeAt_some hfind
    rw [inj_on_of_nodup_map hnodup hc hb hkey]

theorem Forest.of_level (hnodup : (nodes.map key).Nodup) (level : β → ℕ)
    (hlevel : ∀ b ∈ nodes, ∀ p ∈ nodes, key p = parent b → level p < level b) :
    Forest key parent nodes := by
  refine ⟨hnodup, fun x => ((nodeAt key nodes x).map fun b => level b + 1).getD 0, fun b hb => ?_⟩
  simp only [nodeAt_eq hnodup hb, Option.map_some, Option.getD_some]
  cases hfind : nodeAt key nodes (parent b) with
  | none => simp
  | some p =>
    obtain ⟨hp, hkey⟩ := nodeAt_some hfind
    have hlt := hlevel b hb p hp hkey
    simp only [Option.map_some, Option.getD_some]
    omega

theorem climb_subset : climb key parent nodes fuel x ⊆ nodes := by
  induction fuel generalizing x with
  | zero => simp [climb]
  | succ fuel ih =>
    rw [climb]
    cases hfind : nodeAt key nodes x with
    | none => simp
    | some b => exact cons_subset.mpr ⟨(nodeAt_some hfind).1, ih⟩

theorem climb_sorted {rank : α → ℕ} (hrank : ∀ b ∈ nodes, rank (parent b) < rank (key b)) :
    (climb key parent nodes fuel x).Pairwise (fun b c => rank (key c) < rank (key b)) ∧
      ∀ b ∈ climb key parent nodes fuel x, rank (key b) ≤ rank x := by
  induction fuel generalizing x with
  | zero => simp [climb]
  | succ fuel ih =>
    rw [climb]
    cases hfind : nodeAt key nodes x with
    | none => simp
    | some b =>
      obtain ⟨hb, rfl⟩ := nodeAt_some hfind
      obtain ⟨hsorted, hle⟩ := ih
      have hup := hrank b hb
      refine ⟨pairwise_cons.mpr ⟨fun c hc => (hle c hc).trans_lt hup, hsorted⟩, ?_⟩
      intro c hc
      rcases mem_cons.mp hc with rfl | hc
      · exact le_rfl
      · exact (hle c hc).trans hup.le

theorem climb_succ_of_length_lt (h : (climb key parent nodes fuel x).length < fuel) :
    climb key parent nodes (fuel + 1) x = climb key parent nodes fuel x := by
  induction fuel generalizing x with
  | zero => simp at h
  | succ fuel ih =>
    rw [climb, climb]
    cases hfind : nodeAt key nodes x with
    | none => rfl
    | some b =>
      simp only [climb, hfind, length_cons, Nat.add_lt_add_iff_right] at h
      exact congrArg _ (ih h)

variable (h : Forest key parent nodes)
include h

theorem Forest.climb_length_le :
    (climb key parent nodes fuel x).length ≤ nodes.length := by
  obtain ⟨rank, hrank⟩ := h.ranked
  have hnodup : (climb key parent nodes fuel x).Nodup := by
    refine (climb_sorted hrank).1.imp fun hlt heq => ?_
    rw [heq] at hlt
    omega
  exact (hnodup.subperm climb_subset).length_le

theorem Forest.ancestry_eq (x : α) :
    ancestry key parent nodes x = match nodeAt key nodes x with
      | none => []
      | some b => b :: ancestry key parent nodes (parent b) := by
  have hlt : (climb key parent nodes (nodes.length + 1) x).length < nodes.length + 1 :=
    Nat.lt_succ_of_le h.climb_length_le
  rw [ancestry, ← climb_succ_of_length_lt hlt, climb]
  rfl

theorem Forest.ancestry_cons (hb : b ∈ nodes) :
    ancestry key parent nodes (key b) = b :: ancestry key parent nodes (parent b) := by
  rw [h.ancestry_eq, nodeAt_eq h.keys_nodup hb]

omit [DecidableEq α] in
theorem Forest.parent_induction {P : β → Prop}
    (step : ∀ b ∈ nodes, (∀ p ∈ nodes, key p = parent b → P p) → P b) : ∀ b ∈ nodes, P b := by
  obtain ⟨rank, hrank⟩ := h.ranked
  suffices ∀ n, ∀ b ∈ nodes, rank (key b) < n → P b from
    fun b hb => this _ b hb (Nat.lt_succ_self _)
  intro n
  induction n with
  | zero => intro b _ hlt; omega
  | succ n ih =>
    intro b hb hlt
    refine step b hb fun p hp hkey => ih p hp ?_
    have hup := hrank b hb
    rw [hkey]
    omega

theorem Forest.mem_ancestry {c : β} : ∀ b ∈ nodes,
    (c ∈ ancestry key parent nodes (key b) ↔
      c ∈ nodes ∧ Descends key parent nodes (key c) (key b)) := by
  refine h.parent_induction fun b hb ih => ?_
  rw [h.ancestry_cons hb, mem_cons]
  constructor
  · rintro (rfl | hc)
    · exact ⟨hb, Descends.refl _⟩
    · cases hfind : nodeAt key nodes (parent b) with
      | none =>
        rw [h.ancestry_eq, hfind] at hc
        cases hc
      | some p =>
        obtain ⟨hp, hkey⟩ := nodeAt_some hfind
        have hmem := (ih p hp hkey).mp (by rwa [hkey])
        rw [hkey] at hmem
        exact ⟨hmem.1, hmem.2.child hb⟩
  · rintro ⟨hc, hdesc⟩
    by_cases heq : key b = key c
    · exact .inl (h.eq_of_key hc hb heq.symm)
    · have hpar := h.descends_parent hb heq hdesc
      rcases hpar.cases with hpc | ⟨p, hp, hkey, -⟩
      · rw [hpc]
        exact .inr (by rw [h.ancestry_cons hc]; exact mem_cons_self)
      · rw [← hkey] at hpar ⊢
        exact .inr ((ih p hp hkey).mpr ⟨hc, hpar⟩)

theorem Forest.ancestry_prefix {nodes' : List β} (h' : Forest key parent nodes')
    (hsub : nodes ⊆ nodes') : ∀ b ∈ nodes,
    ∃ rest, ancestry key parent nodes' (key b) = ancestry key parent nodes (key b) ++ rest := by
  refine h.parent_induction fun b hb ih => ?_
  rw [h.ancestry_cons hb, h'.ancestry_cons (hsub hb)]
  cases hfind : nodeAt key nodes (parent b) with
  | none =>
    refine ⟨ancestry key parent nodes' (parent b), ?_⟩
    rw [h.ancestry_eq (parent b), hfind]
    rfl
  | some p =>
    obtain ⟨hp, hkey⟩ := nodeAt_some hfind
    obtain ⟨rest, hrest⟩ := ih p hp hkey
    exact ⟨rest, by rw [← hkey, hrest, cons_append]⟩

end Climb

section Prune
variable {key parent} {nodes : List β} {r : α}

def Rooted (key parent : β → α) (nodes : List β) (r : α) : Prop :=
  ∀ b ∈ nodes, parent b = r ∨ ∃ p ∈ nodes, key p = parent b

theorem Forest.not_descends_without (h : Forest key parent nodes) {b q : β} {y : α}
    (hq : q ∈ nodes) (hqb : Descends key parent nodes (key q) (key b))
    (hdesc : Descends key parent (nodes.filter fun c => key c ≠ key b) (parent q) y) :
    ¬ Descends key parent nodes (key b) y := by
  obtain ⟨rank, hrank⟩ := h.ranked
  induction hdesc with
  | refl =>
    intro hle
    have hbq := hle.rank_le hrank
    have hqb := hqb.rank_le hrank
    have hup := hrank q hq
    omega
  | tail _ hstep ih =>
    obtain ⟨d, hd, rfl, rfl⟩ := mem_children.mp hstep
    obtain ⟨hd, hne⟩ := mem_filter.mp hd
    exact fun hbd => ih (h.descends_parent hd (by simpa using hne) hbd)

variable (hroot : Rooted key parent nodes r) (h : Forest key parent nodes)
include hroot h

theorem Rooted.descends : ∀ b ∈ nodes, Descends key parent nodes r (key b) := by
  refine h.parent_induction fun b hb ih => ?_
  rcases hroot b hb with hr | ⟨p, hp, hkey⟩
  · exact Descends.child (hr ▸ Descends.refl _) hb
  · exact Descends.child (hkey ▸ ih p hp hkey) hb

theorem Rooted.ancestry_getLast : ∀ b ∈ nodes,
    (∀ c ∈ nodes, key c ≠ r) →
    ((ancestry key parent nodes (key b)).map parent).getLast? = some r := by
  refine h.parent_induction fun b hb ih hr => ?_
  rw [h.ancestry_cons hb, map_cons]
  rcases hroot b hb with hbr | ⟨p, hp, hkey⟩
  · rw [h.ancestry_eq, hbr, nodeAt_none.mpr hr]
    rfl
  · have hlast := ih p hp hkey hr
    rw [← hkey, getLast?_cons, hlast]
    rfl

theorem Rooted.ancestry_eq {nodes' : List β} (h' : Forest key parent nodes') (hsub : nodes ⊆ nodes')
    (hr : ∀ c ∈ nodes', key c ≠ r) : ∀ b ∈ nodes,
    ancestry key parent nodes' (key b) = ancestry key parent nodes (key b) := by
  refine h.parent_induction fun b hb ih => ?_
  rw [h.ancestry_cons hb, h'.ancestry_cons (hsub hb)]
  rcases hroot b hb with hbr | ⟨p, hp, hkey⟩
  · rw [hbr, h.ancestry_eq, h'.ancestry_eq, nodeAt_none.mpr hr,
      nodeAt_none.mpr fun c hc => hr c (hsub hc)]
  · rw [← hkey, ih p hp hkey]

theorem Forest.prune_eq (hr : ∀ c ∈ nodes, key c ≠ r) {b : β} (hb : b ∈ nodes) :
    ∃ nodes', ((ancestry key parent nodes (key b)).map parent).foldlM (removeBelow key parent)
        (nodes.filter fun c => key c ≠ key b) = some nodes' ∧ nodes'.Sublist nodes ∧
      ∀ c, c ∈ nodes' ↔
        c ∈ nodes ∧ key c ≠ key b ∧ Descends key parent nodes (key b) (key c) := by
  have hother : ∀ c, c ∈ nodes.filter (fun c => key c ≠ key b) ↔ c ∈ nodes ∧ key c ≠ key b := by
    simp
  have hsub := filter_sublist (p := fun c => decide (key c ≠ key b)) (l := nodes)
  obtain ⟨nodes', hfold, hsub', hcut, hkeep, hparent⟩ :=
    (h.sublist hsub).removeAll_eq ((ancestry key parent nodes (key b)).map parent)
  have hrmem := mem_of_getLast? (hroot.ancestry_getLast h b hb hr)
  refine ⟨nodes', hfold, hsub'.trans hsub, fun c => ⟨fun hc => ?_, fun ⟨hc, hne, hdesc⟩ => ?_⟩⟩
  · obtain ⟨hmem, hne⟩ := (hother c).mp (hsub'.subset hc)
    refine ⟨hmem, hne, ?_⟩
    -- what is left hangs from `b` or from something left: nothing left hangs from the root
    refine h.parent_induction (P := fun c => c ∈ nodes' → Descends key parent nodes (key b) (key c))
      (fun c hc ih hleft => ?_) c hmem hc
    rcases hroot c hc with hcr | ⟨p, hp, hkey⟩
    · exact absurd (hcr ▸ hrmem) (hcut c hleft)
    · by_cases hpb : key p = key b
      · exact Descends.child (by rw [← hkey, hpb]) hc
      · have hpleft := hparent c hleft p ((hother p).mpr ⟨hp, hpb⟩) hkey
        exact Descends.child (hkey ▸ ih p hp hkey hpleft) hc
  · refine hkeep c ((hother c).mpr ⟨hc, hne⟩) fun a ha habove => ?_
    obtain ⟨q, hq, rfl⟩ := mem_map.mp ha
    obtain ⟨hqmem, hqb⟩ := (h.mem_ancestry b hb).mp hq
    exact h.not_descends_without hqmem hqb habove hdesc

end Prune

end FlonCore.Library
