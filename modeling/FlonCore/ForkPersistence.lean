import FlonCore.ForkTree

/-!
# Closing and opening the fork database

The database is written with the worst block of the best branch order first, and
read back by adding the blocks in that order. Reading succeeds exactly when every
block comes after its parent, that is, when a parent always sorts below its
children. What is read back is then the database that was written: claims met on
the way name blocks that were pending before.
-/

namespace FlonCore
open Library List Option
open ForkDatabase
open ForkBlock hiding id
open ForkBlock renaming id → idOf
variable {B : Type} [ForkBlock B]

structure ForkFile (B : Type) where
  pendingSavannaLibId : BlockId
  root : B
  blocks : List B
deriving DecidableEq, Repr

namespace ForkDatabase
variable {level : B → ℕ} {U : Set B} {db db' : ForkDatabase B} {r n : B}

variable (db)

def closeImpl : Option (ForkFile B × ForkDatabase B) :=
  db.root.map fun root =>
    (⟨db.pendingSavannaLibId, root, db.byBestBranch.reverse⟩, { db with index := [] })

def openImpl (file : ForkFile B) (compatible : B → B → Bool) :
    Outcome (Failure × ForkDatabase B) (ForkDatabase B) :=
  file.blocks.foldlM (fun db n => db.addImpl n false compatible)
    (resetRoot { db with pendingSavannaLibId := file.pendingSavannaLibId } file.root)

/-- Written and read back by a fresh database whose validator accepts every block, the
database has the same root, pending root, blocks and head. -/
def Reopens : Prop :=
  ∃ file closed db', db.closeImpl = some (file, closed) ∧
    empty.openImpl file (fun _ _ => true) = .returns db' ∧ db'.root = db.root ∧
    db'.pendingSavannaLibId = db.pendingSavannaLibId ∧ (∀ b, b ∈ db'.index ↔ b ∈ db.index) ∧
    ∀ includeRoot, db'.head includeRoot = db.head includeRoot

def ParentsBelow : Prop :=
  ∀ b ∈ db.index, ∀ p ∈ db.index, idOf p = previous b →
    bestBranchKey p < bestBranchKey b

/-- What an indexed block claims has been taken into account: the pending root is at least
as high as what the claimed block itself claims. -/
def Noted : Prop :=
  ∀ n ∈ db.index, ∀ num c, strongClaim n = some num →
    db.searchOnBranch (previous n) num false = some c →
    ∃ id, latestQcClaimId c = some id ∧
      numFromId id ≤ numFromId db.pendingSavannaLibId

variable {db}

theorem searchOnBranch_eq_some {h : BlockId} {num : ℕ} {c : B} (hr : db.root = some r) :
    db.searchOnBranch h num false = some c ↔ blockNum r < num ∧
      (db.branchOf h).find? (fun b => blockNum b = num) = some c := by
  simp only [searchOnBranch, hr, Bool.false_eq_true, false_and, if_false]
  split_ifs with hle
  · simp only [false_iff, not_and]
    intro hlt
    omega
  · simp only [iff_and_self]
    intro _
    omega

theorem find?_branchOf {index : List B} (h : Forest idOf previous index)
    (h' : Forest idOf previous db.index) (hsub : index ⊆ db.index)
    {id : BlockId} {P : B → Bool} {c : B}
    (hfind : (ancestry idOf previous index id).find? P = some c) :
    (db.branchOf id).find? P = some c := by
  cases hnode : nodeAt idOf index id with
  | none =>
    rw [h.ancestry_eq, hnode] at hfind
    cases hfind
  | some p =>
    obtain ⟨hp, rfl⟩ := nodeAt_some hnode
    obtain ⟨rest, hrest⟩ := h.ancestry_prefix h' hsub p hp
    rw [branchOf, hrest, find?_append, hfind]
    rfl

/-- Block numbers are levels, except that a number may have wrapped to zero. -/
def Counts (level : B → ℕ) (U : Set B) : Prop :=
  ∀ b ∈ U, blockNum b ≤ level b ∧
    (0 < blockNum b → level b = blockNum b)

theorem searchOnBranch_congr (hroot : db'.root = db.root) (hindex : db'.index = db.index)
    (h : BlockId) (num : ℕ) (includeRoot : Bool) :
    db'.searchOnBranch h num includeRoot = db.searchOnBranch h num includeRoot := by
  unfold searchOnBranch branchOf
  rw [hroot, hindex]

theorem Noted.raise (h : db.Noted) (hroot : db'.root = db.root) (hindex : db'.index = db.index)
    (hle : numFromId db.pendingSavannaLibId ≤ numFromId db'.pendingSavannaLibId) : db'.Noted := by
  intro n hn num c hnum hc
  rw [hindex] at hn
  rw [searchOnBranch_congr hroot hindex] at hc
  obtain ⟨id, hid, hlow⟩ := h n hn num c hnum hc
  exact ⟨id, hid, hlow.trans hle⟩

omit [ForkBlock B] in
theorem le_setPendingSavannaLibId (db : ForkDatabase B) (id : BlockId) :
    numFromId db.pendingSavannaLibId ≤
        numFromId (db.setPendingSavannaLibId id).pendingSavannaLibId ∧
      numFromId id ≤ numFromId (db.setPendingSavannaLibId id).pendingSavannaLibId := by
  unfold setPendingSavannaLibId
  split_ifs with hlt
  · exact ⟨hlt.le, le_rfl⟩
  · exact ⟨le_rfl, not_lt.mp hlt⟩

theorem noteClaim_pending (h : db.noteClaim n = some db') :
    numFromId db.pendingSavannaLibId ≤ numFromId db'.pendingSavannaLibId ∧
      ∀ num c, strongClaim n = some num →
        db.searchOnBranch (previous n) num false = some c →
        ∃ id, latestQcClaimId c = some id ∧
          numFromId id ≤ numFromId db'.pendingSavannaLibId := by
  unfold noteClaim at h
  cases hclaim : strongClaim n with
  | none =>
    simp only [hclaim] at h
    cases h
    exact ⟨le_rfl, nofun⟩
  | some num =>
    simp only [hclaim] at h
    cases hsearch : db.searchOnBranch (previous n) num false with
    | none =>
      simp only [hsearch] at h
      cases h
      refine ⟨le_rfl, fun num' c hnum hc => ?_⟩
      cases hnum
      exact absurd (hsearch.symm.trans hc) nofun
    | some claimed =>
      simp only [hsearch] at h
      obtain ⟨id, hid, rfl⟩ := map_eq_some_iff.mp h
      refine ⟨(db.le_setPendingSavannaLibId id).1, fun num' c hnum hc => ?_⟩
      cases hnum
      cases hsearch.symm.trans hc
      exact ⟨id, hid, (db.le_setPendingSavannaLibId id).2⟩

theorem Tree.branchOf_append (hU : Lineage level U) (h : db.Tree U) (hr : db.root = some r)
    (h' : Tree U { db with index := db.index ++ [n] }) {m : B} (hm : m ∈ db.index ∨ m = n) :
    branchOf { db with index := db.index ++ [n] } (previous m) = db.branchOf (previous m) := by
  have hsub : db.index ⊆ db.index ++ [n] := fun _ => mem_append_left _
  have hne := h'.id_ne_root hU hr
  -- the parent of `m` is the root or was there before
  have hparent : previous m = idOf r ∨
      ∃ p ∈ db.index, idOf p = previous m := by
    rcases hm with hm | rfl
    · exact h.rooted r hr m hm
    · refine (h'.rooted r hr m (by simp)).imp_right fun ⟨p, hp, hkey⟩ => ⟨p, ?_, hkey⟩
      rcases mem_append.mp hp with hp | hp
      · exact hp
      · rw [mem_singleton.mp hp] at hkey
        have hlt := hU.level_lt m (h'.index_mem m (by simp)) m (h'.index_mem m (by simp)) hkey.symm
        omega
  unfold branchOf
  rcases hparent with hroot | ⟨p, hp, hkey⟩
  · rw [hroot, (h.forest hU).ancestry_eq, (h'.forest hU).ancestry_eq, nodeAt_none.mpr hne,
      nodeAt_none.mpr fun c hc => hne c (hsub hc)]
  · rw [← hkey]
    exact (h.rooted r hr).ancestry_eq (h.forest hU) (h'.forest hU) hsub hne p hp

theorem Noted.shrink (h : db.Noted) (hr : db.root = some r) (r' : B) {index : List B}
    (hforest : Forest idOf previous db.index)
    (hforest' : Forest idOf previous index) (hsub : index ⊆ db.index)
    (hnum : ∀ c ∈ index, blockNum r' < blockNum c →
      blockNum r < blockNum c) : Noted { db with root := some r', index := index } := by
  intro n hn num c hclaim hc
  have hr' : root { db with root := some r', index := index } = some r' := rfl
  obtain ⟨hlt, hfind⟩ := (searchOnBranch_eq_some hr').mp hc
  have hcnum : blockNum c = num := by simpa using find?_some hfind
  have hmem : c ∈ index := climb_subset (mem_of_find?_eq_some hfind)
  rw [← hcnum] at hlt
  have hlow := hnum c hmem hlt
  rw [hcnum] at hlow
  exact h n (hsub hn) num c hclaim
    ((searchOnBranch_eq_some hr).mpr ⟨hlow, find?_branchOf hforest' hforest hsub hfind⟩)

theorem Noted.insert (hU : Lineage level U) (htree : db.Tree U) (hr : db.root = some r)
    (h : db.Noted) (hn : n ∈ U) {ignoreDuplicate : Bool} {compatible : B → B → Bool}
    (hclaim : ∀ num c, strongClaim n = some num →
      db.searchOnBranch (previous n) num false = some c →
      ∃ id, latestQcClaimId c = some id ∧ numFromId id ≤ numFromId db.pendingSavannaLibId)
    (hins : db.insert n ignoreDuplicate compatible = .ok db') : db'.Noted := by
  have htree' := htree.insert hn hins
  obtain ⟨prev, -, -, ⟨-, rfl⟩ | ⟨-, -, rfl⟩⟩ := insert_eq_ok hins
  · intro m hm num c hnum hc
    have hm : m ∈ db.index ∨ m = n := by simpa using hm
    have hr' : root { db with index := db.index ++ [n] } = some r := hr
    rw [searchOnBranch_eq_some hr', htree.branchOf_append hU hr htree' hm,
      ← searchOnBranch_eq_some hr] at hc
    rcases hm with hm | rfl
    · exact h m hm num c hnum hc
    · exact hclaim num c hnum hc
  · exact h

theorem Noted.call (hU : Lineage level U) (hcount : Counts level U) (htree : db.Tree U)
    (h : db.Noted) {c : ForkCall B} (hc : c.Uses U) (hcall : db.call c = .returns db') :
    db'.Noted := by
  cases c with
  | resetRoot rootBsp =>
    cases hcall
    exact nofun
  | setPendingSavannaLibId id =>
    cases hcall
    exact h.raise (by simp) (by simp) (db.le_setPendingSavannaLibId id).1
  | add m ignoreDuplicate =>
    obtain ⟨r, noted, hr, hnoted, hins⟩ := addImpl_eq_returns hcall
    obtain ⟨hroot, hindex⟩ := noteClaim_fields hnoted
    obtain ⟨hle, hclaim⟩ := noteClaim_pending hnoted
    have hraised := h.raise hroot hindex hle
    refine hraised.insert hU (htree.of_eq hroot hindex) (hroot.trans hr) hc ?_ hins
    intro num c hnum hc
    rw [searchOnBranch_congr hroot hindex] at hc
    exact hclaim num c hnum hc
  | remove id =>
    obtain ⟨htree', heffect⟩ := htree.call hU hc hcall
    cases hr : db.root with
    | none =>
      intro m hm
      have hmem := ((heffect m).mp hm).1
      rw [htree.empty_of_root hr] at hmem
      cases hmem
    | some r =>
      rw [ForkDatabase.call, Outcome.ofOption_eq_returns] at hcall
      obtain ⟨index, -, rfl⟩ := map_eq_some_iff.mp hcall
      have hshrink := h.shrink hr r (htree.forest hU) (htree'.forest hU)
        (fun b hb => ((heffect b).mp hb).1) (fun _ _ hlt => hlt)
      rwa [← hr] at hshrink
  | advanceRoot isValid id =>
    obtain ⟨htree', -, heffect⟩ := htree.call hU hc hcall
    obtain ⟨newRoot, index, hblock, -, rfl⟩ := advanceRoot_eq_returns hcall
    obtain ⟨hmem, -⟩ := nodeAt_some hblock
    obtain ⟨r, hr⟩ : ∃ r, db.root = some r := by
      refine ne_none_iff_exists'.mp fun hnone => ?_
      rw [htree.empty_of_root hnone] at hmem
      cases hmem
    refine h.shrink hr newRoot (htree.forest hU) (htree'.forest hU)
      (fun b hb => ((heffect b).mp hb).1) ?_
    intro c hc hlt
    have hcU := htree'.index_mem c hc
    have hlevel := htree.root_lt hU hr c ((heffect c).mp hc).1
    have hrle := (hcount r (htree.root_mem r hr)).1
    rw [(hcount c hcU).2 (by omega)] at hlevel
    omega

theorem Noted.of_throws (h : db.Noted) {c : ForkCall B} {e : Failure}
    (hcall : db.call c = .throws (e, db')) : db'.Noted := by
  rcases call_eq_throws hcall with rfl | ⟨n, hnoted⟩
  · exact h
  · obtain ⟨hroot, hindex⟩ := noteClaim_fields hnoted
    exact h.raise hroot hindex (noteClaim_pending hnoted).1

theorem Reached.noted (hU : Lineage level U) (hcount : Counts level U) (h : Reached U db) :
    db.Noted := by
  induction h with
  | empty => exact nofun
  | returned hdb hc hcall ih => exact ih.call hU hcount (hdb.tree hU) hc hcall
  | threw _ _ hcall ih => exact ih.of_throws hcall

/-- Once `pre` has been added, each block comes after its parent, unless that is the root. -/
def Loadable (r : B) (pre todo : List B) : Prop :=
  ∀ before n after, todo = before ++ n :: after → previous n = idOf r ∨
    ∃ p ∈ pre ++ before, idOf p = previous n

def partially (db : ForkDatabase B) (pre : List B) : ForkDatabase B := { db with index := pre }

section
variable (hnoted : db.Noted) (hforest : Forest idOf previous db.index)
  (hr : db.root = some r)
include hnoted hforest hr

theorem Noted.noteClaim {pre : List B} (hpre : Forest idOf previous pre)
    (hsub : pre ⊆ db.index) (hn : n ∈ db.index) :
    (db.partially pre).noteClaim n = some (db.partially pre) := by
  unfold ForkDatabase.noteClaim
  split
  · rfl
  · rename_i num hnum
    split
    · rfl
    · rename_i c hc
      have hr' : (db.partially pre).root = some r := hr
      obtain ⟨hlt, hfind⟩ := (searchOnBranch_eq_some hr').mp hc
      have hfull := find?_branchOf hpre hforest hsub hfind
      obtain ⟨id, hid, hle⟩ := hnoted n hn num c hnum ((searchOnBranch_eq_some hr).mpr ⟨hlt, hfull⟩)
      rw [hid, map_some, setPendingSavannaLibId, if_neg (by simpa [partially] using hle)]

theorem Noted.addImpl {pre : List B} (hpre : Forest idOf previous pre)
    (hsub : pre ⊆ db.index) (hn : n ∈ db.index) (hnew : idOf n ∉ pre.map idOf) :
    ((previous n = idOf r ∨ ∃ p ∈ pre, idOf p = previous n) ∧
      (db.partially pre).addImpl n false (fun _ _ => true) =
        .returns (db.partially (pre ++ [n]))) ∨
    (¬ (previous n = idOf r ∨
        ∃ p ∈ pre, idOf p = previous n) ∧
      ∃ e, (db.partially pre).addImpl n false (fun _ _ => true) = .throws e) := by
  have hr' : (db.partially pre).root = some r := hr
  have hfresh : (db.partially pre).getBlock (idOf n) = none :=
    nodeAt_none.mpr fun b hb heq => hnew (mem_map.mpr ⟨b, hb, heq⟩)
  have hadd : (db.partially pre).addImpl n false (fun _ _ => true) =
      .ofExcept (((db.partially pre).insert n false fun _ _ => true).mapError
        (·, db.partially pre)) := by
    simp only [ForkDatabase.addImpl, hr', hnoted.noteClaim hforest hr hpre hsub hn]
    rfl
  cases hprev : (db.partially pre).getBlockOrRoot (previous n) with
  | some prev =>
    refine .inl ⟨?_, ?_⟩
    · obtain ⟨hid, hroot | hmem⟩ := getBlockOrRoot_eq_some hprev
      · rw [← hid, Option.some.inj (hr'.symm.trans hroot)]
        exact .inl rfl
      · exact .inr ⟨prev, hmem, hid⟩
    · rw [hadd, ForkDatabase.insert, hprev]
      simp only [hfresh]
      rfl
  | none =>
    refine .inr ⟨?_, ?_⟩
    · unfold getBlockOrRoot at hprev
      simp only [hr'] at hprev
      split_ifs at hprev with hid
      rintro (hroot | ⟨p, hp, hkey⟩)
      · exact hid hroot.symm
      · exact nodeAt_none.mp hprev p hp hkey
    · rw [hadd, ForkDatabase.insert, hprev]
      exact ⟨_, rfl⟩

theorem Noted.foldlM_addImpl {pre todo : List B} (hsub : pre ++ todo ⊆ db.index)
    (hnodup : ((pre ++ todo).map idOf).Nodup) :
    (Loadable r pre todo ∧ todo.foldlM (fun db n => db.addImpl n false fun _ _ => true)
        (db.partially pre) = .returns (db.partially (pre ++ todo))) ∨
    (¬ Loadable r pre todo ∧ ∃ e, todo.foldlM (fun db n => db.addImpl n false fun _ _ => true)
        (db.partially pre) = .throws e) := by
  induction todo generalizing pre with
  | nil =>
    refine .inl ⟨fun before n after hsplit => ?_, by simp; rfl⟩
    simp at hsplit
  | cons n todo ih =>
    have hpre : Forest idOf previous pre := by
      refine hforest.subset (fun b hb => hsub (by simp [hb])) (hnodup.sublist ?_)
      exact (sublist_append_left pre (n :: todo)).map idOf
    have hnew : idOf n ∉ pre.map idOf := by
      rw [map_append] at hnodup
      exact fun hmem => disjoint_of_nodup_append hnodup hmem (by simp)
    have hassoc : pre ++ n :: todo = (pre ++ [n]) ++ todo := by simp
    rw [foldlM_cons]
    rcases hnoted.addImpl hforest hr hpre (fun b hb => hsub (by simp [hb])) (hsub (by simp)) hnew
      with ⟨hparent, hadd⟩ | ⟨hparent, e, hadd⟩
    · rw [hadd, Outcome.returns_bind, hassoc]
      rw [hassoc] at hsub hnodup
      rcases ih hsub hnodup with ⟨hall, hfold⟩ | ⟨hnot, e, hfold⟩
      · refine .inl ⟨fun before m after hsplit => ?_, hfold⟩
        cases before with
        | nil =>
          cases hsplit
          simpa using hparent
        | cons x before =>
          obtain ⟨rfl, hrest⟩ := List.cons.inj hsplit
          simpa using hall before m after hrest
      · refine .inr ⟨fun hall => hnot fun before m after hsplit => ?_, e, hfold⟩
        have hm := hall (n :: before) m after (by rw [hsplit, cons_append])
        simpa using hm
    · refine .inr ⟨fun hall => hparent ?_, e, by rw [hadd]; rfl⟩
      simpa using hall [] n todo rfl

end

theorem Tree.loadable_iff (hU : Lineage level U) (h : db.Tree U) (hr : db.root = some r)
    {blocks : List B} (hperm : blocks.Perm db.index)
    (hsorted : blocks.Pairwise fun a b => bestBranchKey a ≤ bestBranchKey b) :
    Loadable r [] blocks ↔ db.ParentsBelow := by
  have hnodup : (blocks.map idOf).Nodup := (hperm.map _).nodup_iff.mpr h.nodup
  constructor
  · intro hload b hb p hp hkey
    obtain ⟨before, after, rfl⟩ := append_of_mem (hperm.mem_iff.mpr hb)
    rcases hload before b after rfl with hroot | ⟨p', hp', hkey'⟩
    · exact absurd (hkey.trans hroot) (h.id_ne_root hU hr p hp)
    · rw [nil_append] at hp'
      have hpp : p' = p := (h.forest hU).eq_of_key
        (hperm.mem_iff.mp (mem_append_left _ hp')) hp (hkey'.trans hkey.symm)
      subst hpp
      have hle := (pairwise_append.mp hsorted).2.2 p' hp' b mem_cons_self
      refine lt_of_le_of_ne hle fun heq => ?_
      rw [map_append] at hnodup
      refine disjoint_of_nodup_append hnodup (mem_map_of_mem hp') ?_
      rw [bestBranchKey_id _ _ heq]
      simp
  · intro hbelow before n after hsplit
    subst hsplit
    have hn : n ∈ db.index := hperm.mem_iff.mp (by simp)
    refine (h.rooted r hr n hn).imp_right fun ⟨p, hp, hkey⟩ => ⟨p, ?_, hkey⟩
    have hlt := hbelow n hn p hp hkey
    rcases mem_append.mp (hperm.mem_iff.mpr hp) with hmem | hmem
    · exact hmem
    · rcases mem_cons.mp hmem with rfl | hmem
      · exact absurd hlt (lt_irrefl _)
      · have hle := (pairwise_cons.mp (pairwise_append.mp hsorted).2.1).1 p hmem
        exact absurd hlt (not_lt.mpr hle)

theorem byBestBranch_perm (db : ForkDatabase B) : db.byBestBranch.Perm db.index :=
  perm_insertionSort _ _

theorem byBestBranch_sorted (db : ForkDatabase B) :
    db.byBestBranch.Pairwise fun a b => bestBranchKey b ≤ bestBranchKey a :=
  haveI : Std.Total fun a b : B => bestBranchKey b ≤ bestBranchKey a :=
    ⟨fun _ _ => le_total _ _⟩
  haveI : IsTrans B fun a b => bestBranchKey b ≤ bestBranchKey a :=
    ⟨fun _ _ _ hab hbc => hbc.trans hab⟩
  pairwise_insertionSort _ _

theorem Tree.byBestBranch_eq (h : db.Tree U) (hperm : db'.index.Perm db.index) :
    db'.byBestBranch = db.byBestBranch := by
  have hboth := (db'.byBestBranch_perm.trans hperm).trans db.byBestBranch_perm.symm
  refine hboth.eq_of_pairwise (fun a b ha hb hab hba => ?_) db'.byBestBranch_sorted
    db.byBestBranch_sorted
  have ha := hperm.mem_iff.mp (db'.byBestBranch_perm.mem_iff.mp ha)
  have hb := db.byBestBranch_perm.mem_iff.mp hb
  exact inj_on_of_nodup_map h.nodup ha hb (bestBranchKey_id _ _ (le_antisymm hba hab))

theorem Tree.branchOf_eq (hU : Lineage level U) (h : db.Tree U) (h' : db'.Tree U)
    (hperm : db'.index.Perm db.index) (id : BlockId) : db'.branchOf id = db.branchOf id := by
  have hforest := h.forest hU
  have hforest' := h'.forest hU
  cases hnode : nodeAt idOf db.index id with
  | none =>
    have hnode' : nodeAt idOf db'.index id = none :=
      nodeAt_none.mpr fun b hb => nodeAt_none.mp hnode b (hperm.subset hb)
    rw [branchOf, branchOf, hforest.ancestry_eq, hforest'.ancestry_eq, hnode, hnode']
  | some b =>
    obtain ⟨hb, rfl⟩ := nodeAt_some hnode
    obtain ⟨rest, hrest⟩ := hforest.ancestry_prefix hforest' hperm.symm.subset b hb
    obtain ⟨rest', hrest'⟩ :=
      hforest'.ancestry_prefix hforest hperm.subset b (hperm.mem_iff.mpr hb)
    exact antisymm (r := (· <+: ·)) ⟨rest', hrest'.symm⟩ ⟨rest, hrest.symm⟩

/-- The order in which blocks came matters neither for the head nor for any walk along a
branch. -/
theorem fork_choice_order_independent (hU : Genealogy U) (h : Reached U db) (h' : Reached U db')
    (hroot : db'.root = db.root) (hsame : ∀ b, b ∈ db'.index ↔ b ∈ db.index)
    (includeRoot : Bool) : db'.head includeRoot = db.head includeRoot ∧
      ∀ id, db'.branchOf id = db.branchOf id ∧
        ∀ n, db'.searchOnBranch id n includeRoot = db.searchOnBranch id n includeRoot := by
  have htree := h.tree hU.lineage
  have htree' := h'.tree hU.lineage
  have hperm : db'.index.Perm db.index :=
    (perm_ext_iff_of_nodup (htree'.nodup.of_map _) (htree.nodup.of_map _)).mpr hsame
  have hbranch := htree.branchOf_eq hU.lineage htree' hperm
  refine ⟨?_, fun id => ⟨hbranch id, fun n => ?_⟩⟩
  · simp only [head, htree.byBestBranch_eq hperm, hroot]
  · simp only [searchOnBranch, hroot, hbranch]

theorem fork_choice_swapped : head ⟨some ⟨1, 0, 5⟩, 0, [⟨3, 1, 6⟩, ⟨2, 1, 6⟩, ⟨4, 2, 7⟩]⟩ true =
    plainForks.head true := by
  refine (fork_choice_order_independent plainBlocks_genealogy plainForks_reached
    (Reached.empty.run [.resetRoot ⟨1, 0, 5⟩, .add ⟨3, 1, 6⟩ false, .add ⟨2, 1, 6⟩ false,
      .add ⟨4, 2, 7⟩ false] ?_ (by decide +kernel)) (by rfl)
    (by simp [plainForks, or_left_comm]) true).1
  simp [ForkCall.Uses, plainBlocks]

theorem Tree.reopens_iff (hU : Lineage level U) (h : db.Tree U) (hr : db.root = some r)
    (hnoted : db.Noted) : db.Reopens ↔ db.ParentsBelow := by
  have hperm : db.byBestBranch.reverse.Perm db.index :=
    (reverse_perm _).trans db.byBestBranch_perm
  have hsorted := pairwise_reverse.mpr db.byBestBranch_sorted
  have hnodup : (([] ++ db.byBestBranch.reverse).map idOf).Nodup :=
    (hperm.map _).nodup_iff.mpr h.nodup
  have hclose : db.closeImpl = some (⟨db.pendingSavannaLibId, r, db.byBestBranch.reverse⟩,
      { db with index := [] }) := by
    rw [closeImpl, hr]
    rfl
  have hstart : resetRoot { (empty : ForkDatabase B) with
      pendingSavannaLibId := db.pendingSavannaLibId } r = db.partially [] := by
    simp only [resetRoot, partially, hr]
  have hopen := hnoted.foldlM_addImpl (h.forest hU) hr (fun b hb => hperm.mem_iff.mp hb) hnodup
  rw [h.loadable_iff hU hr hperm hsorted, ← hstart] at hopen
  constructor
  · rintro ⟨file, closed, db', hfile, hread, -⟩
    rcases hopen with ⟨hbelow, -⟩ | ⟨-, e, hthrows⟩
    · exact hbelow
    · cases hclose.symm.trans hfile
      exact absurd (hthrows.symm.trans hread) nofun
  · intro hbelow
    obtain ⟨-, hread⟩ := hopen.resolve_right fun hnot => hnot.1 hbelow
    have hbest : (db.partially db.byBestBranch.reverse).byBestBranch = db.byBestBranch :=
      h.byBestBranch_eq hperm
    refine ⟨_, _, _, hclose, hread, rfl, rfl, fun b => hperm.mem_iff, fun includeRoot => ?_⟩
    rw [head, nil_append, hbest]
    rfl

end ForkDatabase
end FlonCore
