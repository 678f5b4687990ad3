import FlonCore.ForkDatabase
import Mathlib.Data.Set.Basic

/-!
# The fork database is a tree

Whatever calls are made, the index stays a tree that hangs from the root:
every indexed block has its parent in the index or is a child of the root. The
blocks are drawn from a set in which an id names one block and a number is one
above the parent's.
-/

namespace FlonCore
open Library List Option
open ForkDatabase Outcome
open ForkBlock hiding id
open ForkBlock renaming id → idOf
variable {B : Type} [ForkBlock B]

structure Genealogy (U : Set B) : Prop where
  id_inj : ∀ a ∈ U, ∀ b ∈ U, idOf a = idOf b → a = b
  num_succ : ∀ a ∈ U, ∀ b ∈ U, previous a = idOf b →
    blockNum a = blockNum b + 1

/-- Numbers as headers have them: an id carries the number of its block, which is the one
after the number that the previous id carries. -/
structure NumberedIds (U : Set B) : Prop where
  id_num : ∀ b ∈ U, numFromId (idOf b) = blockNum b
  previous_num : ∀ b ∈ U, blockNum b = numFromId (previous b) + 1

structure Lineage (level : B → ℕ) (U : Set B) : Prop where
  id_inj : ∀ a ∈ U, ∀ b ∈ U, idOf a = idOf b → a = b
  level_lt : ∀ a ∈ U, ∀ b ∈ U, previous a = idOf b → level b < level a

theorem Genealogy.lineage {U : Set B} (hU : Genealogy U) : Lineage blockNum U := by
  refine ⟨hU.id_inj, fun a ha b hb hprev => ?_⟩
  rw [hU.num_succ a ha b hb hprev]
  exact Nat.lt_succ_self _

def ForkCall.Uses (U : Set B) : ForkCall B → Prop
  | .resetRoot rootBsp => rootBsp ∈ U
  | .add n _ => n ∈ U
  | _ => True

namespace ForkDatabase
variable {level : B → ℕ} {U : Set B} {db db' : ForkDatabase B}

inductive Reached (U : Set B) : ForkDatabase B → Prop
  | empty : Reached U empty
  | returned {db db' : ForkDatabase B} {c : ForkCall B} :
      Reached U db → c.Uses U → db.call c = .returns db' → Reached U db'
  | threw {db db' : ForkDatabase B} {c : ForkCall B} {e : Failure} :
      Reached U db → c.Uses U → db.call c = .throws (e, db') → Reached U db'

theorem Reached.run (h : Reached U db) (calls : List (ForkCall B))
    (huses : ∀ c ∈ calls, c.Uses U) (hrun : calls.foldlM call db = .returns db') :
    Reached U db' := by
  induction calls generalizing db with
  | nil =>
    cases hrun
    exact h
  | cons c calls ih =>
    rw [foldlM_cons, bind_eq_returns] at hrun
    obtain ⟨next, hcall, hrun⟩ := hrun
    exact ih (h.returned (huses c mem_cons_self) hcall)
      (fun c hc => huses c (mem_cons_of_mem _ hc)) hrun

def Below (db : ForkDatabase B) (id : BlockId) (b : B) : Prop :=
  Descends idOf previous db.index id (idOf b)

structure Tree (U : Set B) (db : ForkDatabase B) : Prop where
  index_mem : ∀ b ∈ db.index, b ∈ U
  root_mem : ∀ r, db.root = some r → r ∈ U
  nodup : (db.index.map idOf).Nodup
  empty_of_root : db.root = none → db.index = []
  rooted : ∀ r, db.root = some r →
    Rooted idOf previous db.index (idOf r)

section
variable (hU : Lineage level U) (h : db.Tree U)
include hU h

theorem Tree.forest : Forest idOf previous db.index :=
  Forest.of_level h.nodup level fun b hb p hp hkey =>
    hU.level_lt b (h.index_mem b hb) p (h.index_mem p hp) hkey.symm

theorem Tree.root_lt {r : B} (hr : db.root = some r) : ∀ b ∈ db.index, level r < level b := by
  refine (h.forest hU).parent_induction fun b hb ih => ?_
  rcases h.rooted r hr b hb with hbr | ⟨p, hp, hkey⟩
  · exact hU.level_lt b (h.index_mem b hb) r (h.root_mem r hr) hbr
  · exact (ih p hp hkey).trans (hU.level_lt b (h.index_mem b hb) p (h.index_mem p hp) hkey.symm)

theorem Tree.id_ne_root {r : B} (hr : db.root = some r) :
    ∀ b ∈ db.index, idOf b ≠ idOf r := by
  intro b hb heq
  have hlt := h.root_lt hU hr b hb
  rw [hU.id_inj b (h.index_mem b hb) r (h.root_mem r hr) heq] at hlt
  omega

end

theorem Tree.of_eq (h : db.Tree U) (hroot : db'.root = db.root) (hindex : db'.index = db.index) :
    db'.Tree U := by
  refine ⟨?_, fun r hr => h.root_mem r (hroot ▸ hr), ?_, ?_, fun r hr => ?_⟩
  · rw [hindex]
    exact h.index_mem
  · rw [hindex]
    exact h.nodup
  · rw [hindex, hroot]
    exact h.empty_of_root
  · rw [hindex]
    exact h.rooted r (hroot ▸ hr)

theorem Tree.sublist (h : db.Tree U) {index : List B} (hsub : index.Sublist db.index)
    (hparent : ∀ b ∈ index, ∀ p ∈ db.index, idOf p = previous b → p ∈ index) :
    Tree U { db with index := index } := by
  refine ⟨fun b hb => h.index_mem b (hsub.subset hb), h.root_mem,
    h.nodup.sublist (hsub.map idOf), fun hroot => ?_, fun r hr b hb => ?_⟩
  · have hnil := h.empty_of_root hroot
    rw [hnil] at hsub
    exact sublist_nil.mp hsub
  · rcases h.rooted r hr b (hsub.subset hb) with hbr | ⟨p, hp, hkey⟩
    · exact .inl hbr
    · exact .inr ⟨p, hparent b hb p hp hkey, hkey⟩

omit [ForkBlock B] in
@[simp] theorem setPendingSavannaLibId_root (db : ForkDatabase B) (id : BlockId) :
    (db.setPendingSavannaLibId id).root = db.root := by
  unfold setPendingSavannaLibId
  split <;> rfl

omit [ForkBlock B] in
@[simp] theorem setPendingSavannaLibId_index (db : ForkDatabase B) (id : BlockId) :
    (db.setPendingSavannaLibId id).index = db.index := by
  unfold setPendingSavannaLibId
  split <;> rfl

variable {n : B}

theorem noteClaim_eq_some (h : db.noteClaim n = some db') :
    db' = db ∨ ∃ id, db' = db.setPendingSavannaLibId id := by
  unfold noteClaim at h
  split at h
  · exact .inl (Option.some.inj h).symm
  · split at h
    · exact .inl (Option.some.inj h).symm
    · obtain ⟨id, -, rfl⟩ := map_eq_some_iff.mp h
      exact .inr ⟨id, rfl⟩

theorem noteClaim_fields (h : db.noteClaim n = some db') :
    db'.root = db.root ∧ db'.index = db.index := by
  rcases noteClaim_eq_some h with rfl | ⟨id, rfl⟩
  · exact ⟨rfl, rfl⟩
  · simp

variable {compatible : B → B → Bool}

theorem insert_eq_ok {ignoreDuplicate : Bool}
    (h : db.insert n ignoreDuplicate compatible = .ok db') :
    ∃ prev, db.getBlockOrRoot (previous n) = some prev ∧ compatible prev n = true ∧
      ((db.getBlock (idOf n) = none ∧ db' = { db with index := db.index ++ [n] }) ∨
        ((db.getBlock (idOf n)).isSome ∧ ignoreDuplicate = true ∧ db' = db)) := by
  unfold insert at h
  split at h
  · cases h
  · rename_i prev hprev
    obtain ⟨hcompat, h⟩ := seq_eq_ok.mp h
    refine ⟨prev, hprev, eosAssert_eq_ok.mp hcompat, ?_⟩
    split_ifs at h with hdup
    · obtain ⟨hignore, h⟩ := seq_eq_ok.mp h
      cases h
      exact .inr ⟨hdup, eosAssert_eq_ok.mp hignore, rfl⟩
    · cases h
      exact .inl ⟨by simpa using hdup, rfl⟩

theorem addImpl_eq_returns {ignoreDuplicate : Bool}
    (h : db.addImpl n ignoreDuplicate compatible = .returns db') :
    ∃ r noted, db.root = some r ∧ db.noteClaim n = some noted ∧
      noted.insert n ignoreDuplicate compatible = .ok db' := by
  unfold addImpl at h
  split at h
  · cases h
  · rename_i r hr
    obtain ⟨noted, hnoted, h⟩ := bind_eq_returns.mp h
    rw [ofOption_eq_returns] at hnoted
    rw [ofExcept_eq_returns, mapError_eq_ok] at h
    exact ⟨r, noted, hr, hnoted, h⟩

variable {id : BlockId}

theorem checkAdvance_eq_ok {isValid : B → Bool} {newRoot : B} {blocksToRemove : List BlockId}
    (h : db.checkAdvance isValid id = .ok (newRoot, blocksToRemove)) :
    (∃ r, db.root = some r) ∧ db.getBlock id = some newRoot ∧ isValid newRoot = true ∧
      blocksToRemove = (db.branchOf id).map previous := by
  unfold checkAdvance at h
  split at h
  · cases h
  · rename_i r hr
    split at h
    · cases h
    · rename_i b hb
      obtain ⟨hvalid, h⟩ := seq_eq_ok.mp h
      obtain ⟨-, h⟩ := seq_eq_ok.mp h
      cases h
      exact ⟨⟨r, hr⟩, hb, eosAssert_eq_ok.mp hvalid, rfl⟩

theorem advanceRoot_eq_returns {isValid : B → Bool} (h : db.advanceRoot isValid id = .returns db') :
    ∃ newRoot index, db.getBlock id = some newRoot ∧ isValid newRoot = true ∧
      db' = { db with root := some newRoot, index := index } := by
  obtain ⟨⟨newRoot, blocksToRemove⟩, hcheck, h⟩ := bind_eq_returns.mp h
  rw [ofExcept_eq_returns, mapError_eq_ok] at hcheck
  obtain ⟨-, hblock, hvalid, -⟩ := checkAdvance_eq_ok hcheck
  obtain ⟨index, -, h⟩ := bind_eq_returns.mp h
  cases h
  exact ⟨newRoot, index, hblock, hvalid, rfl⟩

theorem call_eq_throws {c : ForkCall B} {e : Failure} (h : db.call c = .throws (e, db')) :
    db' = db ∨ ∃ n, db.noteClaim n = some db' := by
  cases c with
  | resetRoot rootBsp => cases h
  | setPendingSavannaLibId id => cases h
  | remove id =>
    simp only [call] at h
    cases hrem : db.remove id <;> rw [hrem] at h <;> cases h
  | add n ignoreDuplicate =>
    simp only [call, add, addImpl] at h
    split at h
    · cases h
      exact .inl rfl
    · cases hnoted : db.noteClaim n with
      | none => rw [hnoted] at h; cases h
      | some noted =>
        rw [hnoted] at h
        change ofExcept _ = _ at h
        cases hins : noted.insert n ignoreDuplicate fun _ _ => true with
        | ok out => rw [hins] at h; cases h
        | error e =>
          rw [hins] at h
          cases h
          exact .inr ⟨n, hnoted⟩
  | advanceRoot isValid id =>
    simp only [call, advanceRoot] at h
    cases hcheck : db.checkAdvance isValid id with
    | error e =>
      rw [hcheck] at h
      cases h
      exact .inl rfl
    | ok checked =>
      rw [hcheck] at h
      change (ofOption _ >>= _) = _ at h
      cases hfold : checked.2.foldlM (removeBelow idOf previous)
          (db.index.filter fun b => idOf b ≠ id) with
      | none => rw [hfold] at h; cases h
      | some index => rw [hfold] at h; cases h

theorem call_throws_fields {c : ForkCall B} {e : Failure} (h : db.call c = .throws (e, db')) :
    db'.root = db.root ∧ db'.index = db.index := by
  rcases call_eq_throws h with rfl | ⟨n, hnoted⟩
  · exact ⟨rfl, rfl⟩
  · exact noteClaim_fields hnoted

theorem getBlockOrRoot_eq_some {b : B} (h : db.getBlockOrRoot id = some b) :
    idOf b = id ∧ (db.root = some b ∨ b ∈ db.index) := by
  unfold getBlockOrRoot at h
  split at h
  · rename_i r hr
    split_ifs at h with hid
    · cases h
      exact ⟨hid, .inl hr⟩
    · exact ⟨(nodeAt_some h).2, .inr (nodeAt_some h).1⟩
  · exact ⟨(nodeAt_some h).2, .inr (nodeAt_some h).1⟩

theorem resetRoot_tree (db : ForkDatabase B) {r : B} (hr : r ∈ U) : (db.resetRoot r).Tree U := by
  refine ⟨nofun, fun r' hr' => ?_, nodup_nil, nofun, fun _ _ => nofun⟩
  cases hr'
  exact hr

theorem Tree.insert (h : db.Tree U) {n : B} (hn : n ∈ U) {ignoreDuplicate : Bool}
    {compatible : B → B → Bool} (hins : db.insert n ignoreDuplicate compatible = .ok db') :
    db'.Tree U := by
  obtain ⟨prev, hprev, -, ⟨hnew, rfl⟩ | ⟨-, -, rfl⟩⟩ := insert_eq_ok hins
  · obtain ⟨hid, hplace⟩ := getBlockOrRoot_eq_some hprev
    refine ⟨?_, h.root_mem, ?_, fun hroot => ?_, fun r hr b hb => ?_⟩
    · exact forall_mem_append.mpr ⟨h.index_mem, forall_mem_singleton.mpr ‹_›⟩
    · rw [map_append]
      refine List.Nodup.append h.nodup (nodup_singleton _) ?_
      simpa [eq_comm] using nodeAt_none.mp hnew
    · rcases hplace with hroot' | hmem
      · exact absurd (hroot.symm.trans hroot') nofun
      · rw [h.empty_of_root hroot] at hmem
        cases hmem
    · rcases mem_append.mp hb with hb | hb
      · refine (h.rooted r hr b hb).imp_right fun ⟨p, hp, hkey⟩ => ?_
        exact ⟨p, mem_append_left _ hp, hkey⟩
      · rw [mem_singleton.mp hb, ← hid]
        rcases hplace with hroot' | hmem
        · rw [show r = prev from Option.some.inj (hr.symm.trans hroot')]
          exact .inl rfl
        · exact .inr ⟨prev, mem_append_left _ hmem, rfl⟩
  · exact h

theorem Tree.remove (hU : Lineage level U) (h : db.Tree U) (id : BlockId) :
    ∃ db', db.remove id = some db' ∧ db'.Tree U ∧ db'.root = db.root ∧
      ∀ b, b ∈ db'.index ↔ b ∈ db.index ∧ ¬ db.Below id b := by
  obtain ⟨index, hindex, hsub, hmem⟩ := (h.forest hU).removeBelow_eq id
  refine ⟨{ db with index := index }, by rw [ForkDatabase.remove, hindex]; rfl, ?_, rfl, hmem⟩
  refine h.sublist hsub fun b hb p hp hkey => (hmem p).mpr ⟨hp, fun hdesc => ?_⟩
  obtain ⟨hb, hnot⟩ := (hmem b).mp hb
  rw [hkey] at hdesc
  exact hnot (hdesc.child hb)

theorem Tree.advanceRoot (hU : Lineage level U) (h : db.Tree U) (isValid : B → Bool) {b : B}
    (hb : b ∈ db.index) (hvalid : isValid b = true) :
    ∃ db', db.advanceRoot isValid (idOf b) = .returns db' ∧ db'.Tree U ∧
      db'.root = some b ∧ ∀ c, c ∈ db'.index ↔
        c ∈ db.index ∧ idOf c ≠ idOf b ∧ db.Below (idOf b) c := by
  have hforest := h.forest hU
  obtain ⟨r, hr⟩ : ∃ r, db.root = some r := by
    refine ne_none_iff_exists'.mp fun hnone => ?_
    rw [h.empty_of_root hnone] at hb
    cases hb
  have hne := h.id_ne_root hU hr
  have hlast := (h.rooted r hr).ancestry_getLast hforest b hb hne
  have hcheck : db.checkAdvance isValid (idOf b) =
      .ok (b, (db.branchOf (idOf b)).map previous) := by
    simp only [checkAdvance, hr, getBlock, nodeAt_eq h.nodup hb, hvalid, branchOf, hlast]
    rfl
  obtain ⟨index, hfold, hsub, hmem⟩ := hforest.prune_eq (h.rooted r hr) hne hb
  refine ⟨{ db with root := some b, index := index }, ?_, ?_, rfl, hmem⟩
  · rw [ForkDatabase.advanceRoot, hcheck]
    change (Outcome.ofOption _ >>= _) = _
    rw [branchOf, hfold]
    rfl
  · refine ⟨fun c hc => h.index_mem c (hsub.subset hc), ?_, h.nodup.sublist (hsub.map _), ?_, ?_⟩
    · rintro r' ⟨⟩
      exact h.index_mem b hb
    · intro hroot
      simp at hroot
    · rintro r' ⟨⟩ c hc
      obtain ⟨hc, hcb, hdesc⟩ := (hmem c).mp hc
      have hpar := hforest.descends_parent hc hcb hdesc
      rcases hpar.cases with heq | ⟨p, hp, hkey, -⟩
      · exact .inl heq
      · by_cases hpb : idOf p = idOf b
        · exact .inl (hkey ▸ hpb)
        · exact .inr ⟨p, (hmem p).mpr ⟨hp, hpb, hkey ▸ hpar⟩, hkey⟩

def Effect (db : ForkDatabase B) (c : ForkCall B) (db' : ForkDatabase B) : Prop :=
  match c with
  | .remove id => ∀ b, b ∈ db'.index ↔ b ∈ db.index ∧ ¬ db.Below id b
  | .advanceRoot _ id => (∃ r, db'.root = some r ∧ idOf r = id) ∧
      ∀ b, b ∈ db'.index ↔ b ∈ db.index ∧ idOf b ≠ id ∧ db.Below id b
  | _ => True

theorem Tree.call (hU : Lineage level U) (h : db.Tree U) {c : ForkCall B} (hc : c.Uses U)
    (hcall : db.call c = .returns db') : db'.Tree U ∧ db.Effect c db' := by
  cases c with
  | resetRoot r =>
    cases hcall
    exact ⟨resetRoot_tree db hc, trivial⟩
  | setPendingSavannaLibId id =>
    cases hcall
    exact ⟨h.of_eq (by simp) (by simp), trivial⟩
  | add n ignoreDuplicate =>
    obtain ⟨r, noted, -, hnoted, hins⟩ := addImpl_eq_returns hcall
    obtain ⟨hroot, hindex⟩ := noteClaim_fields hnoted
    exact ⟨(h.of_eq hroot hindex).insert hc hins, trivial⟩
  | remove id =>
    obtain ⟨out, hout, htree, -, hmem⟩ := h.remove hU id
    rw [ForkDatabase.call, hout] at hcall
    cases hcall
    exact ⟨htree, hmem⟩
  | advanceRoot isValid id =>
    obtain ⟨newRoot, index, hblock, hvalid, -⟩ := advanceRoot_eq_returns hcall
    obtain ⟨hb, rfl⟩ := nodeAt_some hblock
    obtain ⟨out, hout, htree, hroot, hmem⟩ := h.advanceRoot hU isValid hb hvalid
    rw [ForkDatabase.call, hout] at hcall
    cases hcall
    exact ⟨htree, ⟨newRoot, hroot, rfl⟩, hmem⟩

theorem Reached.tree (hU : Lineage level U) (h : Reached U db) : db.Tree U := by
  induction h with
  | empty => exact ⟨nofun, nofun, nodup_nil, fun _ => rfl, nofun⟩
  | returned _ hc hcall ih => exact (ih.call hU hc hcall).1
  | threw _ _ hcall ih => exact ih.of_eq (call_throws_fields hcall).1 (call_throws_fields hcall).2

/-- After every call that returns, each indexed block has its parent in the index or at the
root and so descends from the root. A removal, which always returns, takes exactly a block
and its descendants; an advance of the root leaves exactly the new root's strict descendants. -/
theorem forkDatabase_tree (hU : Genealogy U) (hdb : Reached U db) {c : ForkCall B}
    (hc : c.Uses U) (hcall : db.call c = .returns db') :
    (∀ b ∈ db'.index, (∃ p ∈ db'.index, idOf p = previous b) ∨
      ∃ r, db'.root = some r ∧ idOf r = previous b) ∧
    (∀ b ∈ db'.index, ∃ r, db'.root = some r ∧ db'.Below (idOf r) b) ∧
    db.Effect c db' ∧
    ∀ id, ∃ out, db'.call (.remove id) = .returns out := by
  obtain ⟨htree, heffect⟩ := (hdb.tree hU.lineage).call hU.lineage hc hcall
  have hroot : ∀ b ∈ db'.index, ∃ r, db'.root = some r := by
    intro b hb
    refine ne_none_iff_exists'.mp fun hnone => ?_
    rw [htree.empty_of_root hnone] at hb
    cases hb
  refine ⟨fun b hb => ?_, fun b hb => ?_, heffect, fun id => ?_⟩
  · obtain ⟨r, hr⟩ := hroot b hb
    exact (htree.rooted r hr b hb).symm.imp_right fun hkey => ⟨r, hr, hkey.symm⟩
  · obtain ⟨r, hr⟩ := hroot b hb
    exact ⟨r, hr, (htree.rooted r hr).descends (htree.forest hU.lineage) b hb⟩
  · obtain ⟨out, hout, -⟩ := htree.remove hU.lineage id
    exact ⟨out, by rw [call, hout]; rfl⟩

end ForkDatabase

structure PlainBlock where
  (id previous : BlockId)
  num : ℕ
deriving DecidableEq, Repr

instance : ForkBlock PlainBlock where
  id := PlainBlock.id
  previous := PlainBlock.previous
  blockNum := PlainBlock.num
  bestBranchKey b := toLex (0, toLex (b.num, b.id.toNat))
  bestBranchKey_id a b h := by
    simpa [BitVec.toNat_inj] using congrArg (fun k => (ofLex (ofLex k).2).2) h
  strongClaim _ := none
  latestQcClaimId _ := none

def plainBlocks : List PlainBlock := [⟨1, 0, 5⟩, ⟨2, 1, 6⟩, ⟨3, 1, 6⟩, ⟨4, 2, 7⟩]

def plainForks : ForkDatabase PlainBlock :=
  ⟨some ⟨1, 0, 5⟩, 0, [⟨2, 1, 6⟩, ⟨3, 1, 6⟩, ⟨4, 2, 7⟩]⟩

theorem plainBlocks_genealogy : Genealogy {b | b ∈ plainBlocks} := by
  refine ⟨?_, ?_⟩
  · change ∀ a ∈ plainBlocks, ∀ b ∈ plainBlocks, a.id = b.id → a = b
    decide
  · change ∀ a ∈ plainBlocks, ∀ b ∈ plainBlocks, a.previous = b.id → a.num = b.num + 1
    decide

theorem plainForks_reached : ForkDatabase.Reached {b | b ∈ plainBlocks} plainForks := by
  refine ForkDatabase.Reached.empty.run [.resetRoot ⟨1, 0, 5⟩, .add ⟨2, 1, 6⟩ false,
    .add ⟨3, 1, 6⟩ false, .add ⟨4, 2, 7⟩ false] ?_ (by decide +kernel)
  simp [ForkCall.Uses, plainBlocks]

theorem forkDatabase_tree_advanced :
    plainForks.call (.advanceRoot (fun _ => true) 2) =
        .returns ⟨some ⟨2, 1, 6⟩, 0, [⟨4, 2, 7⟩]⟩ ∧
      plainForks.Effect (.advanceRoot (fun _ => true) 2) ⟨some ⟨2, 1, 6⟩, 0, [⟨4, 2, 7⟩]⟩ := by
  have hcall : plainForks.call (.advanceRoot (fun _ => true) 2) =
      .returns ⟨some ⟨2, 1, 6⟩, 0, [⟨4, 2, 7⟩]⟩ := by decide +kernel
  exact ⟨hcall, (forkDatabase_tree plainBlocks_genealogy plainForks_reached
    (c := .advanceRoot (fun _ => true) 2) trivial hcall).2.2.1⟩

end FlonCore
