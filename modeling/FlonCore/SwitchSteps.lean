import FlonCore.ForkSwitch

/-!
# The steps of a fork switch

A fork switch applies, pops and removes blocks. Two things are followed from the
database the switch starts with: how far the root has moved up the branch of the
head, and which blocks have been removed. `Steady` says where that leaves the
controller between two steps.
-/

namespace FlonCore
open Library ForkDatabase List
open ForkBlock hiding id
open ForkBlock renaming id → idOf
open Controller
open Descends
variable {B : Type} [ForkBlock B] {U : Set B} {db₀ : ForkDatabase B}

structure Trimmed (db₀ : ForkDatabase B) (dead : B → Prop) (r : B) (db : ForkDatabase B) :
    Prop where
  root_eq : db.root = some r
  root_holds : db₀.Holds r
  mem_iff : ∀ x, x ∈ db.index ↔
    x ∈ db₀.index ∧ idOf x ≠ idOf r ∧ db₀.Below (idOf r) x ∧ ¬ dead x

def DeadClosed (db₀ : ForkDatabase B) (dead : B → Prop) : Prop :=
  ∀ x y, dead x → db₀.Below (idOf x) y → dead y

structure Steady (U : Set B) (db₀ : ForkDatabase B) (dead : B → Prop) (r : B)
    (st : Controller B) : Prop where
  tree : st.forkdb.Tree U
  kept : Trimmed db₀ dead r st.forkdb
  head : st.forkdb.Holds st.chainHead
  revision : st.revision = blockNum st.chainHead

variable {db : ForkDatabase B} {dead : B → Prop} {r a x : B}

theorem deadClosed_false : DeadClosed db₀ fun _ => False := fun _ _ hfalse => hfalse.elim

section
variable (h : Trimmed db₀ dead r db)
include h

theorem Trimmed.subset : db.index ⊆ db₀.index :=
  fun x hx => ((h.mem_iff x).mp hx).1

theorem Trimmed.holds (hx : db.Holds x) : db₀.Holds x := by
  rcases hx with hx | hx
  · rw [Option.some.inj (hx.symm.trans h.root_eq)]
    exact h.root_holds
  · exact .inr (h.subset hx)

theorem Trimmed.root_below (hx : db.Holds x) : db₀.Below (idOf r) x := by
  rcases hx with hx | hx
  · rw [Option.some.inj (hx.symm.trans h.root_eq)]
    exact Descends.refl _
  · exact ((h.mem_iff x).mp hx).2.2.1

variable (hU : Genealogy U) (htree : db₀.Tree U)
include hU htree

theorem Trimmed.mem_of_below (ha : db.Holds a) (hx : x ∈ db₀.index) (hne : idOf x ≠ idOf a)
    (hax : db₀.Below (idOf a) x) (hlive : ¬ dead x) : x ∈ db.index := by
  refine (h.mem_iff x).mpr ⟨hx, fun hxr => ?_, (h.root_below ha).trans hax, hlive⟩
  have haU := htree.mem_of_holds (h.holds ha)
  have hlt := htree.num_lt_of_below hU haU x hx hax hne
  have hle : blockNum r ≤ blockNum a := by
    rcases ha with har | ha
    · rw [Option.some.inj (har.symm.trans h.root_eq)]
    · have hmem := (h.mem_iff a).mp ha
      exact (htree.num_lt_of_below hU (htree.mem_of_holds h.root_holds) a hmem.1 hmem.2.2.1
        hmem.2.1).le
  have hxr := htree.holds_inj hU (.inr hx) h.root_holds hxr
  rw [hxr] at hlt
  omega

variable (hdead : DeadClosed db₀ dead)
include hdead

theorem Trimmed.below_iff (ha : db.Holds a) : ∀ x ∈ db₀.index, x ∈ db.index →
    (db.Below (idOf a) x ↔ db₀.Below (idOf a) x) := by
  refine (htree.forest hU.lineage).parent_induction fun x hx ih hmem => ?_
  refine ⟨(mono · h.subset), fun hbelow => ?_⟩
  by_cases hxa : idOf x = idOf a
  · exact hxa ▸ Descends.refl _
  · have hpar := (htree.forest hU.lineage).descends_parent hx hxa hbelow
    rcases hpar.cases with heq | ⟨p, hp, hkey, -⟩
    · exact child (heq ▸ Descends.refl _) hmem
    · by_cases hpa : idOf p = idOf a
      · exact child (by rw [← hkey, hpa]) hmem
      · rw [← hkey] at hpar
        have hpx : db₀.Below (idOf p) x := child (hkey ▸ Descends.refl _) hx
        have hlive : ¬ dead p := fun hdp => ((h.mem_iff x).mp hmem).2.2.2 (hdead p x hdp hpx)
        have hpmem := h.mem_of_below hU htree ha hp hpa hpar hlive
        exact child (hkey ▸ (ih p hp hkey hpmem).mpr hpar) hmem

theorem Trimmed.advance (hdb : db.Tree U) (ha : a ∈ db.index) : ∃ db',
    db.advanceRoot (fun _ => true) (idOf a) = .returns db' ∧ db'.Tree U ∧
      Trimmed db₀ dead a db' := by
  obtain ⟨db', hadv, htree', hroot, hmem⟩ := hdb.advanceRoot hU.lineage (fun _ => true) ha rfl
  refine ⟨db', hadv, htree', hroot, .inr (h.subset ha), fun x => ?_⟩
  rw [hmem]
  constructor
  · rintro ⟨hx, hne, hbelow⟩
    have hx' := (h.mem_iff x).mp hx
    exact ⟨hx'.1, hne, (h.below_iff hU htree hdead (.inr ha) x hx'.1 hx).mp hbelow, hx'.2.2.2⟩
  · rintro ⟨hx, hne, hbelow, hlive⟩
    have hx' := h.mem_of_below hU htree (.inr ha) hx hne hbelow hlive
    exact ⟨hx', hne, (h.below_iff hU htree hdead (.inr ha) x hx hx').mpr hbelow⟩

end

theorem Trimmed.remove (hU : Genealogy U) (htree : db₀.Tree U)
    (h : Trimmed db₀ (fun _ => False) r db) (hdb : db.Tree U) (ha : a ∈ db.index) :
    ∃ db', db.remove (idOf a) = some db' ∧ db'.Tree U ∧
      Trimmed db₀ (db₀.Below (idOf a)) r db' ∧
      ∀ x, db.Holds x → ¬ db₀.Below (idOf a) x → db'.Holds x := by
  obtain ⟨db', hrem, htree', hroot, hmem⟩ := hdb.remove hU.lineage (idOf a)
  have hiff : ∀ x ∈ db.index, (db.Below (idOf a) x ↔ db₀.Below (idOf a) x) :=
    fun x hx => h.below_iff hU htree deadClosed_false (.inr ha) x (h.subset hx) hx
  refine ⟨db', hrem, htree', ⟨hroot.trans h.root_eq, h.root_holds, fun x => ?_⟩, ?_⟩
  · rw [hmem]
    constructor
    · rintro ⟨hx, hnot⟩
      obtain ⟨hx₀, hne, hbelow, -⟩ := (h.mem_iff x).mp hx
      exact ⟨hx₀, hne, hbelow, fun hdead => hnot ((hiff x hx).mpr hdead)⟩
    · rintro ⟨hx₀, hne, hbelow, hlive⟩
      have hx := (h.mem_iff x).mpr ⟨hx₀, hne, hbelow, not_false⟩
      exact ⟨hx, fun hdead => hlive ((hiff x hx).mp hdead)⟩
  · rintro x (hx | hx) hnot
    · exact .inl (hroot.trans hx)
    · exact .inr ((hmem x).mpr ⟨hx, fun hdead => hnot ((hiff x hx).mp hdead)⟩)

section Actions
variable {b : B} {st : Controller B} (env : SwitchEnv B)

theorem popTarget_eq_some {p : B} (h : st.popTarget = some p) :
    st.forkdb.Holds p ∧ idOf p = previous st.chainHead := by
  unfold popTarget at h
  split at h
  · rename_i prev hprev
    cases h
    exact ⟨.inr (nodeAt_some hprev).1, (nodeAt_some hprev).2⟩
  · obtain ⟨hroot, hid⟩ := Option.filter_eq_some_iff.mp h
    exact ⟨.inl hroot, by simpa using hid⟩

variable (h : Steady U db₀ dead r st)
include h

theorem Steady.of_trace (trace : List (B × ApplyResult)) :
    Steady U db₀ dead r { st with trace := trace } :=
  ⟨h.tree, h.kept, h.head, h.revision⟩

theorem Steady.head_mem (htree : db₀.Tree U) : st.chainHead ∈ U :=
  htree.mem_of_holds (h.kept.holds h.head)

variable (hU : Genealogy U)
include hU

theorem Steady.popTarget_eq (hmem : st.chainHead ∈ st.forkdb.index) :
    ∃ p, st.popTarget = some p := by
  obtain ⟨p, hp, hid, -⟩ := h.tree.exists_parent hU hmem
  unfold popTarget
  cases hblock : st.forkdb.getBlock (previous st.chainHead) with
  | some prev => exact ⟨prev, rfl⟩
  | none =>
    rcases hp with hroot | hp
    · exact ⟨p, by simp [hroot, hid]⟩
    · exact absurd hid (nodeAt_none.mp hblock p hp)

variable (htree : db₀.Tree U)
include htree

theorem Steady.logIrreversible (hdead : DeadClosed db₀ dead) (lib : Option BlockId) :
    ∃ forkdb r', st.logIrreversible lib = .returns { st with forkdb := forkdb } ∧
      Steady U db₀ dead r' { st with forkdb := forkdb } ∧ (r' = r ∨ r' ∈ db₀.index) := by
  cases lib with
  | none => exact ⟨st.forkdb, r, rfl, h, .inl rfl⟩
  | some id =>
    by_cases hid : id ∈ (st.forkdb.branchOf (idOf st.chainHead)).map idOf
    · obtain ⟨a, ha, rfl⟩ := mem_map.mp hid
      have hforest := h.tree.forest hU.lineage
      -- a branch that is not empty starts at a head in the index
      have hhead : st.chainHead ∈ st.forkdb.index := by
        refine h.head.resolve_left fun hroot => ?_
        rw [branchOf, hforest.ancestry_eq,
          nodeAt_none.mpr (h.tree.id_ne_root hU.lineage hroot)] at ha
        cases ha
      obtain ⟨hmem, hbelow⟩ := (hforest.mem_ancestry _ hhead).mp ha
      obtain ⟨forkdb, hadv, htree', hkept⟩ := h.kept.advance hU htree hdead h.tree hmem
      refine ⟨forkdb, a, ?_, ⟨htree', hkept, ?_, h.revision⟩, .inr (h.kept.subset hmem)⟩
      · simp only [Controller.logIrreversible, if_pos hid, hadv]
      · by_cases hha : idOf st.chainHead = idOf a
        · refine .inl ?_
          rw [hforest.eq_of_key hhead hmem hha]
          exact hkept.root_eq
        · have hlive := ((h.kept.mem_iff _).mp hhead).2.2.2
          have hbelow₀ := (h.kept.below_iff hU htree hdead (.inr hmem) _ (h.kept.subset hhead)
            hhead).mp hbelow
          exact .inr ((hkept.mem_iff _).mpr ⟨h.kept.subset hhead, hha, hbelow₀, hlive⟩)
    · exact ⟨st.forkdb, r, by simp only [Controller.logIrreversible, if_neg hid], h, .inl rfl⟩

theorem Steady.child_mem (hb : b ∈ db₀.index) (hprev : previous b = idOf st.chainHead)
    (hlive : ¬ dead b) : b ∈ st.forkdb.index := by
  have hnum := hU.num_succ b (htree.index_mem b hb) _ (h.head_mem htree) hprev
  refine h.kept.mem_of_below hU htree h.head hb (fun hid => ?_)
    (child (hprev ▸ Descends.refl _) hb) hlive
  rw [htree.holds_inj hU (.inr hb) (h.kept.holds h.head) hid] at hnum
  omega

theorem Steady.applyBlock (hdead : DeadClosed db₀ dead) (hb : b ∈ db₀.index)
    (hprev : previous b = idOf st.chainHead) (hlive : ¬ dead b) :
    (∃ st' r' lib, st.applyBlock env b = .returns st' ∧ Steady U db₀ dead r' st' ∧
      st'.chainHead = b ∧ (r' = r ∨ r' ∈ db₀.index) ∧
      st'.trace = st.trace ++ [(b, .applied lib)]) ∨
    ∃ e, st.applyBlock env b = .throws (e, { st with trace := st.trace ++ [(b, .threw e)] }) := by
  unfold Controller.applyBlock
  cases env.apply st.trace.length with
  | threw e => exact .inr ⟨e, rfl⟩
  | applied lib =>
    have hmem := h.child_mem hU htree hb hprev hlive
    have hnum := hU.num_succ b (htree.index_mem b hb) _ (h.head_mem htree) hprev
    have hmoved : Steady U db₀ dead r { st with
        chainHead := b, revision := st.revision + 1,
        trace := st.trace ++ [(b, .applied lib)] } := by
      refine ⟨h.tree, h.kept, .inr hmem, ?_⟩
      rw [h.revision, hnum]
    obtain ⟨forkdb, r', hlog, hsteady, hr'⟩ := hmoved.logIrreversible hU htree hdead lib
    exact .inl ⟨_, r', lib, hlog, hsteady, rfl, hr', rfl⟩

theorem Steady.popBlock :
    (∃ p, st.popBlock env = .returns { st with chainHead := p, revision := st.revision - 1 } ∧
      Steady U db₀ dead r { st with chainHead := p, revision := st.revision - 1 } ∧
      idOf p = previous st.chainHead) ∨
    (∃ e, st.popBlock env = .throws (e, st) ∧
      ¬ (st.chainHead ∈ st.forkdb.index ∧ env.hasBlock st.chainHead = true)) := by
  unfold Controller.popBlock
  cases htarget : st.popTarget with
  | none =>
    refine .inr ⟨_, rfl, fun ⟨hmem, _⟩ => ?_⟩
    obtain ⟨p, hp⟩ := h.popTarget_eq hU hmem
    exact absurd (htarget.symm.trans hp) nofun
  | some p =>
    obtain ⟨hp, hid⟩ := popTarget_eq_some htarget
    by_cases hblock : env.hasBlock st.chainHead
    · refine .inl ⟨p, by simp only [hblock, if_true], ⟨h.tree, h.kept, hp, ?_⟩, hid⟩
      have hnum := hU.num_succ _ (h.head_mem htree) p (h.tree.mem_of_holds hp) hid.symm
      rw [h.revision, hnum, Nat.add_sub_cancel]
    · exact .inr ⟨_, by simp only [hblock]; rfl, fun hboth => hblock hboth.2⟩

theorem Steady.popBlocks (n : ℕ) :
    (∃ st', st.popBlocks env n = .returns st' ∧ Steady U db₀ dead r st' ∧
      st'.trace = st.trace) ∨
    ∃ e st', st.popBlocks env n = .throws (e, st') ∧ Steady U db₀ dead r st' ∧
      st'.trace = st.trace := by
  induction n generalizing st with
  | zero => exact .inl ⟨st, rfl, h, rfl⟩
  | succ n ih =>
    rw [popBlocks]
    rcases h.popBlock env hU htree with ⟨p, hpop, hsteady, -⟩ | ⟨e, hpop, -⟩
    · rw [hpop, Outcome.returns_bind]
      exact ih hsteady
    · exact .inr ⟨e, st, by rw [hpop]; rfl, h, rfl⟩

theorem Steady.popBlocks_path {c : B} {branch : List B} (hc : db₀.Holds c)
    (hpath : db₀.Path c branch) (htip : tip c branch = st.chainHead)
    (hmem : ∀ x ∈ branch, x ∈ st.forkdb.index) (hblocks : ∀ x ∈ branch, env.hasBlock x = true) :
    ∃ st', st.popBlocks env branch.length = .returns st' ∧ Steady U db₀ dead r st' ∧
      st'.chainHead = c ∧ st'.trace = st.trace := by
  induction branch using List.reverseRecOn generalizing st with
  | nil => exact ⟨st, rfl, h, htip.symm, rfl⟩
  | append_singleton branch b ih =>
    obtain ⟨hleft, hb, hprev, -⟩ := path_append.mp hpath
    rw [tip_append] at htip
    have hlast : b ∈ branch ++ [b] := by simp
    rw [length_append, length_singleton, Controller.popBlocks]
    rcases h.popBlock env hU htree with ⟨p, hpop, hsteady, hid⟩ | ⟨e, -, hnot⟩
    · rw [hpop, Outcome.returns_bind]
      have hpred : db₀.Holds (tip c branch) := by
        cases branch using List.reverseRecOn with
        | nil => exact hc
        | append_singleton rest x =>
          rw [tip_append]
          exact .inr (hleft.mem x (by simp))
      have hp : p = tip c branch := by
        refine htree.holds_inj hU (h.kept.holds hsteady.head) hpred ?_
        rw [hid, ← htip, hprev]
      exact ih hsteady hleft hp.symm (fun x hx => hmem x (by simp [hx]))
        (fun x hx => hblocks x (by simp [hx]))
    · exact absurd ⟨htip ▸ hmem b hlast, htip ▸ hblocks b hlast⟩ hnot

theorem Steady.applyAll (hdead : DeadClosed db₀ dead) {branch : List B}
    (hpath : db₀.Path st.chainHead branch) (hlive : ∀ x ∈ branch, ¬ dead x) :
    ∃ st' r', Steady U db₀ dead r' st' ∧ (r' = r ∨ r' ∈ db₀.index) ∧
      (∀ x e, (x, .threw e) ∈ st'.trace → (x, .threw e) ∈ st.trace ∨ x ∈ branch) ∧
      ((st.applyAll env branch = .returns st' ∧ st'.chainHead = tip st.chainHead branch) ∨
        ∃ e, st.applyAll env branch = .throws (e, st') ∧
          ∃ x ∈ branch, (x, .threw e) ∈ st'.trace) := by
  induction branch generalizing st r with
  | nil => exact ⟨st, r, h, .inl rfl, fun _ _ => .inl, .inl ⟨rfl, rfl⟩⟩
  | cons b branch ih =>
    obtain ⟨hb, hprev, hrest⟩ := hpath
    rw [applyAll]
    rcases h.applyBlock env hU htree hdead hb hprev (hlive b mem_cons_self) with
      ⟨st₁, r₁, lib, happly, hsteady, hhead, hr₁, htrace⟩ | ⟨e, happly⟩
    · rw [happly, Outcome.returns_bind]
      subst hhead
      obtain ⟨st', r', hst', hr', hthrew, hout⟩ := ih hsteady hrest
        (fun x hx => hlive x (mem_cons_of_mem _ hx))
      refine ⟨st', r', hst', ?_, fun x e hx => ?_, ?_⟩
      · rcases hr' with rfl | hr'
        · exact hr₁
        · exact .inr hr'
      · rcases hthrew x e hx with hx | hx
        · rw [htrace] at hx
          exact .inl (by simpa using hx)
        · exact .inr (mem_cons_of_mem _ hx)
      · rw [tip_cons]
        exact hout.imp_right fun ⟨e, hout, x, hx, hin⟩ =>
          ⟨e, hout, x, mem_cons_of_mem _ hx, hin⟩
    · rw [happly]
      refine ⟨_, r, h.of_trace _, .inl rfl, fun x e' hx => ?_, .inr ⟨e, rfl, b, by simp, by simp⟩⟩
      rcases mem_append.mp hx with hx | hx
      · exact .inl hx
      · rw [mem_singleton, Prod.mk.injEq] at hx
        exact .inr (by simp [hx.1])

end Actions
end FlonCore
