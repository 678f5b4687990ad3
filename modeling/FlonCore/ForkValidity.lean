import FlonCore.ForkBranches

/-!
# Validated blocks of the fork database

`validated_block_exists` walks from a block down the index. A valid block ends the
walk with yes, the claimed block with no; a walk that leaves the index has reached
the root, which is valid. The claimed block may be older than the root, so ancestry
is taken in the set of all blocks the fork database draws from.
-/

namespace FlonCore
open Library Relation.ReflTransGen
open ForkBlock hiding id
open ForkBlock renaming id → idOf
variable {B : Type} [ForkBlock B]

def Ancestor (U : Set B) : BlockId → BlockId → Prop :=
  Relation.ReflTransGen fun x y => ∃ b ∈ U, idOf b = x ∧ previous b = y

variable {U : Set B} {a b : B} {y : BlockId}

theorem Ancestor.cases_block (hU : Genealogy U) (hb : b ∈ U)
    (h : Ancestor U (idOf b) y) : y = idOf b ∨ Ancestor U (previous b) y := by
  rcases cases_head h with heq | ⟨z, ⟨c, hc, hid, hprev⟩, hrest⟩
  · exact .inl heq.symm
  · rw [hU.id_inj c hc b hb hid] at hprev
    rw [← hprev] at hrest
    exact .inr hrest

theorem Ancestor.step (hb : b ∈ U) (h : Ancestor U (previous b) y) :
    Ancestor U (idOf b) y :=
  Relation.ReflTransGen.head ⟨b, hb, rfl, rfl⟩ h

theorem Ancestor.blockNum_le (hU : Genealogy U) (ha : a ∈ U) (hb : b ∈ U)
    (h : Ancestor U (idOf a) (idOf b)) : blockNum b ≤ blockNum a := by
  generalize hx : idOf a = x at h
  induction h using head_induction_on generalizing a with
  | refl => rw [hU.id_inj a ha b hb hx]
  | head hstep hrest ih =>
    obtain ⟨c, hc, hid, hprev⟩ := hstep
    obtain rfl := hU.id_inj a ha c hc (hx.trans hid.symm)
    rcases cases_head hrest with heq | ⟨z, ⟨p, hp, hpid, -⟩, -⟩
    · have hnum := hU.num_succ a ha b hb (hprev.trans heq)
      omega
    · have hle := ih hp hpid
      have hnum := hU.num_succ a ha p hp (hprev.trans hpid.symm)
      omega

theorem Ancestor.numFromId_le (hnum : NumberedIds U) {x : BlockId} (h : Ancestor U x y) :
    numFromId y ≤ numFromId x := by
  induction h using head_induction_on with
  | refl => exact le_rfl
  | head hstep _ ih =>
    obtain ⟨b, hb, rfl, rfl⟩ := hstep
    rw [hnum.id_num b hb, hnum.previous_num b hb]
    omega

namespace ForkDatabase

section Definitions
variable (db : ForkDatabase B) (isValid : B → Bool)

def walkAnswer (claimed : BlockId) : List B → Option Bool
  | [] => none
  | b :: rest =>
    if isValid b then some true
    else if idOf b = claimed then some false
    else walkAnswer claimed rest

/-- Undefined without a root. -/
def validatedBlockExists (id claimed : BlockId) : Option Bool :=
  match walkAnswer isValid claimed (db.branchOf id) with
  | some answer => some answer
  | none =>
    if (db.branchOf id).isEmpty then db.root.map fun r => decide (id = idOf r)
    else some true

end Definitions

variable {db : ForkDatabase B} {isValid : B → Bool} {r : B} {claimed : BlockId}

/-- Some block from `id` back to `claimed` is the root, or indexed and valid. -/
def ValidOnPath (U : Set B) (db : ForkDatabase B) (isValid : B → Bool) (id claimed : BlockId) :
    Prop :=
  ∃ x, Ancestor U id (idOf x) ∧ Ancestor U (idOf x) claimed ∧
    (db.root = some x ∨ x ∈ db.index ∧ isValid x = true)

section
variable (hU : Genealogy U) (h : db.Tree U)
include hU h

theorem Tree.validOnPath_parent (hb : b ∈ db.index) (hvalid : isValid b = false) :
    ValidOnPath U db isValid (idOf b) claimed ↔
      ValidOnPath U db isValid (previous b) claimed := by
  have hbU := h.index_mem b hb
  constructor
  · intro hpath
    obtain ⟨x, hbx, hxc, hx⟩ := hpath
    rcases hbx.cases_block hU hbU with hid | hrest
    · have hxb : x = b := h.holds_inj hU (hx.imp_right And.left) (.inr hb) hid
      subst hxb
      rcases hx with hroot | hx
      · exact absurd rfl (h.id_ne_root hU.lineage hroot x hb)
      · rw [hvalid] at hx
        simp at hx
    · exact ⟨x, hrest, hxc, hx⟩
  · intro hpath
    obtain ⟨x, hpx, hxc, hx⟩ := hpath
    exact ⟨x, hpx.step hbU, hxc, hx⟩

theorem Tree.not_validOnPath (hb : b ∈ db.index) (hvalid : isValid b = false) :
    ¬ ValidOnPath U db isValid (idOf b) (idOf b) := by
  intro hpath
  obtain ⟨p, hp, hpid, hnum⟩ := h.exists_parent hU hb
  rw [h.validOnPath_parent hU hb hvalid, ← hpid] at hpath
  obtain ⟨x, hpx, hxb, -⟩ := hpath
  have hle := Ancestor.blockNum_le hU (h.mem_of_holds hp) (h.index_mem b hb) (hpx.trans hxb)
  omega

theorem Tree.branchOf_eq_nil {id : BlockId} (hid : ∀ b ∈ db.index, idOf b ≠ id) :
    db.branchOf id = [] := by
  rw [branchOf, (h.forest hU.lineage).ancestry_eq, nodeAt_none.mpr hid]

theorem Tree.walk_eq : ∀ b ∈ db.index,
    Ancestor U (idOf b) claimed →
    ∃ answer, db.validatedBlockExists isValid (idOf b) claimed = some answer ∧
      (answer = true ↔ ValidOnPath U db isValid (idOf b) claimed) := by
  have hforest := h.forest hU.lineage
  refine hforest.parent_induction fun b hb ih hclaimed => ?_
  have hbU := h.index_mem b hb
  have hbranch : db.branchOf (idOf b) = b :: db.branchOf (previous b) :=
    hforest.ancestry_cons hb
  cases hvalid : isValid b with
  | true =>
    refine ⟨true, by simp [validatedBlockExists, hbranch, walkAnswer, hvalid], ?_⟩
    exact iff_of_true rfl ⟨b, Relation.ReflTransGen.refl, hclaimed, .inr ⟨hb, hvalid⟩⟩
  | false =>
    by_cases hid : idOf b = claimed
    · subst hid
      refine ⟨false, by simp [validatedBlockExists, hbranch, walkAnswer, hvalid], ?_⟩
      simpa using h.not_validOnPath hU hb hvalid
    · have hrest := (hclaimed.cases_block hU hbU).resolve_left (Ne.symm hid)
      obtain ⟨p, hp, hpid, -⟩ := h.exists_parent hU hb
      rw [h.validOnPath_parent hU hb hvalid]
      rw [← hpid] at hrest hbranch ⊢
      rcases hp with hroot | hp
      · -- the parent is the root: the walk has left the index
        have hnil : db.branchOf (idOf p) = [] :=
          h.branchOf_eq_nil hU (h.id_ne_root hU.lineage hroot)
        refine ⟨true, by simp [validatedBlockExists, hbranch, hnil, walkAnswer, hvalid, hid], ?_⟩
        exact iff_of_true rfl ⟨p, Relation.ReflTransGen.refl, hrest, .inl hroot⟩
      · obtain ⟨answer, hanswer, hiff⟩ := ih p hp hpid hrest
        refine ⟨answer, ?_, hiff⟩
        have hcons : db.branchOf (idOf p) = p :: db.branchOf (previous p) :=
          hforest.ancestry_cons hp
        rw [← hanswer]
        simp [validatedBlockExists, hbranch, hcons, walkAnswer, hvalid, hid]

theorem Tree.ancestor_root_of_index (hr : db.root = some r) :
    ∀ b ∈ db.index, Ancestor U (idOf b) claimed →
      walkAnswer isValid claimed (db.branchOf (idOf b)) = none →
      Ancestor U (idOf r) claimed := by
  have hforest := h.forest hU.lineage
  refine hforest.parent_induction fun b hb ih hclaimed hnone => ?_
  rw [branchOf, hforest.ancestry_cons hb, walkAnswer] at hnone
  split_ifs at hnone with hvalid hid
  have hrest := (hclaimed.cases_block hU (h.index_mem b hb)).resolve_left (Ne.symm hid)
  rcases h.rooted r hr b hb with hprev | ⟨p, hp, hkey⟩
  · rwa [hprev] at hrest
  · rw [← hkey] at hrest hnone
    exact ih p hp hkey hrest hnone

/-- What the source asserts of a walk that leaves the index: if it came to a block, the number
of the claimed block is not above the root's. The claimed block is the root or older. -/
theorem Tree.ancestor_root (hnum : NumberedIds U) (hr : db.root = some r) {id : BlockId}
    (hclaimed : Ancestor U id claimed)
    (hnone : walkAnswer isValid claimed (db.branchOf id) = none) :
    (db.branchOf id).isEmpty = true ∨
      numFromId claimed ≤ numFromId (idOf r) ∧ Ancestor U (idOf r) claimed := by
  by_cases hmem : ∃ b ∈ db.index, idOf b = id
  · obtain ⟨b, hb, rfl⟩ := hmem
    have hroot := h.ancestor_root_of_index hU hr b hb hclaimed hnone
    exact .inr ⟨hroot.numFromId_le hnum, hroot⟩
  · rw [h.branchOf_eq_nil hU fun b hb hid => hmem ⟨b, hb, hid⟩]
    exact .inl rfl

end

theorem validated_block_exists_iff (hU : Genealogy U) (h : db.Tree U) (hr : db.root = some r)
    {id : BlockId} (hclaimed : Ancestor U id claimed) :
    ∃ answer, db.validatedBlockExists isValid id claimed = some answer ∧
      (answer = true ↔
        (id = idOf r ∨ ∃ b ∈ db.index, idOf b = id) ∧
        ∃ x, Ancestor U id (idOf x) ∧ Ancestor U (idOf x) claimed ∧
          (db.root = some x ∨ x ∈ db.index ∧ isValid x = true)) := by
  by_cases hmem : ∃ b ∈ db.index, idOf b = id
  · obtain ⟨b, hb, rfl⟩ := hmem
    obtain ⟨answer, hanswer, hiff⟩ := h.walk_eq hU b hb hclaimed
    refine ⟨answer, hanswer, hiff.trans ?_⟩
    exact (and_iff_right (.inr ⟨b, hb, rfl⟩)).symm
  · have hnil : db.branchOf id = [] := h.branchOf_eq_nil hU fun b hb hid => hmem ⟨b, hb, hid⟩
    refine ⟨decide (id = idOf r), by simp [validatedBlockExists, hnil, walkAnswer, hr], ?_⟩
    rw [decide_eq_true_eq]
    constructor
    · intro hid
      subst hid
      exact ⟨.inl rfl, r, Relation.ReflTransGen.refl, hclaimed, .inl hr⟩
    · intro hpath
      exact hpath.1.resolve_right hmem

def stampedBlocks : List PlainBlock :=
  [⟨stampId 1 5, stampId 0 4, 5⟩, ⟨stampId 2 6, stampId 1 5, 6⟩, ⟨stampId 3 6, stampId 1 5, 6⟩,
    ⟨stampId 4 7, stampId 2 6, 7⟩]

def stampedForks : ForkDatabase PlainBlock :=
  ⟨some ⟨stampId 1 5, stampId 0 4, 5⟩, 0, [⟨stampId 2 6, stampId 1 5, 6⟩,
    ⟨stampId 3 6, stampId 1 5, 6⟩, ⟨stampId 4 7, stampId 2 6, 7⟩]⟩

theorem stampedBlocks_genealogy : Genealogy {b | b ∈ stampedBlocks} := by
  refine ⟨?_, ?_⟩
  · change ∀ a ∈ stampedBlocks, ∀ b ∈ stampedBlocks, a.id = b.id → a = b
    decide +kernel
  · change ∀ a ∈ stampedBlocks, ∀ b ∈ stampedBlocks, a.previous = b.id → a.num = b.num + 1
    decide +kernel

theorem stampedForks_reached : Reached {b | b ∈ stampedBlocks} stampedForks := by
  refine Reached.empty.run [.resetRoot ⟨stampId 1 5, stampId 0 4, 5⟩,
    .add ⟨stampId 2 6, stampId 1 5, 6⟩ false, .add ⟨stampId 3 6, stampId 1 5, 6⟩ false,
    .add ⟨stampId 4 7, stampId 2 6, 7⟩ false] ?_ (by decide +kernel)
  simp [ForkCall.Uses, stampedBlocks]

theorem ancestor_root_stampedForks :
    walkAnswer (fun _ => false) (stampId 0 4) (stampedForks.branchOf (stampId 4 7)) = none ∧
      (stampedForks.branchOf (stampId 4 7)).isEmpty = false ∧
      numFromId (stampId 0 4) ≤ numFromId (stampId 1 5) ∧
      Ancestor {b | b ∈ stampedBlocks} (stampId 1 5) (stampId 0 4) := by
  have hnum : NumberedIds {b | b ∈ stampedBlocks} := by
    refine ⟨?_, ?_⟩
    · change ∀ b ∈ stampedBlocks, numFromId b.id = b.num
      decide +kernel
    · change ∀ b ∈ stampedBlocks, b.num = numFromId b.previous + 1
      decide +kernel
  have hclaimed : Ancestor {b | b ∈ stampedBlocks} (stampId 4 7) (stampId 0 4) :=
    .tail (.tail (.single ⟨⟨stampId 4 7, stampId 2 6, 7⟩, by simp [stampedBlocks], rfl, rfl⟩)
      ⟨⟨stampId 2 6, stampId 1 5, 6⟩, by simp [stampedBlocks], rfl, rfl⟩)
      ⟨⟨stampId 1 5, stampId 0 4, 5⟩, by simp [stampedBlocks], rfl, rfl⟩
  have hnone : walkAnswer (fun _ => false) (stampId 0 4) (stampedForks.branchOf (stampId 4 7)) =
      none := by decide +kernel
  have hpresent : (stampedForks.branchOf (stampId 4 7)).isEmpty = false := by decide +kernel
  have hroot := (stampedForks_reached.tree stampedBlocks_genealogy.lineage).ancestor_root
    stampedBlocks_genealogy hnum rfl hclaimed hnone
  exact ⟨hnone, hpresent, hroot.resolve_left (ne_true_of_eq_false hpresent)⟩

end ForkDatabase

theorem validated_block_exists_plainForks :
    plainForks.validatedBlockExists (fun b => decide (b.id = 2)) 4 2 = some true ∧
      ∃ x, Ancestor {b | b ∈ plainBlocks} 4 (idOf x) ∧
        Ancestor {b | b ∈ plainBlocks} (idOf x) 2 ∧
        (plainForks.root = some x ∨ x ∈ plainForks.index ∧ decide (x.id = 2) = true) := by
  have htree := plainForks_reached.tree plainBlocks_genealogy.lineage
  have hclaimed : Ancestor {b | b ∈ plainBlocks} 4 2 :=
    .single ⟨⟨4, 2, 7⟩, by simp [plainBlocks], rfl, rfl⟩
  have hrun : plainForks.validatedBlockExists (fun b => decide (b.id = 2)) 4 2 = some true := by
    decide +kernel
  obtain ⟨answer, hanswer, hiff⟩ := ForkDatabase.validated_block_exists_iff
    plainBlocks_genealogy htree rfl hclaimed
  cases hrun.symm.trans hanswer
  exact ⟨hrun, (hiff.mp rfl).2⟩

end FlonCore
