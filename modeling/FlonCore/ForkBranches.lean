import FlonCore.ForkTree

/-!
# Branches of the fork database

Two blocks are compared by walking down from both until the walks meet. The
walks give two branches, newest block first, that end above a common ancestor.
`Path` says what such a branch is: oldest block first, each block is a child of
the one before it.
-/

namespace FlonCore

open ForkBlock hiding id
open ForkBlock renaming id → idOf
open Library List
variable {B : Type} [ForkBlock B]

namespace ForkDatabase

section Definitions
variable (db : ForkDatabase B)

def blockNotFound : Failure := ⟨.forkDbBlockNotFound, "block ${id} does not exist"⟩

/-- Walks down to the first block whose number is not above `stop`. -/
def lower (stop : ℕ) : ℕ → B → Outcome Failure (List B × B)
  | 0, _ => .undefined
  | fuel + 1, b =>
    if stop < blockNum b then
      match db.getBlockOrRoot (previous b) with
      | none => .throws blockNotFound
      | some p => do
        let (branch, last) ← lower stop fuel p
        return (b :: branch, last)
    else .returns ([], b)

def meet : ℕ → B → B → Outcome Failure (List B × List B)
  | 0, _, _ => .undefined
  | fuel + 1, a, b =>
    if previous a = previous b then .returns ([a], [b])
    else
      match db.getBlock (previous a), db.getBlock (previous b) with
      | some a', some b' => do
        let (first, second) ← meet fuel a' b'
        return (a :: first, b :: second)
      | _, _ => .throws blockNotFound

def fetchBranchFrom (first second : BlockId) : Outcome Failure (List B × List B) :=
  match db.root, db.getBlockOrRoot first, db.getBlockOrRoot second with
  | none, _, _ => .undefined
  | some _, some a, some b => do
    let (firstBranch, a') ← db.lower (blockNum b) (db.index.length + 1) a
    let (secondBranch, b') ← db.lower (blockNum a') (db.index.length + 1) b
    if idOf a' = idOf b' then return (firstBranch, secondBranch)
    else
      let (firstRest, secondRest) ← db.meet (db.index.length + 1) a' b'
      return (firstBranch ++ firstRest, secondBranch ++ secondRest)
  | some _, _, _ => .throws blockNotFound

def Holds (b : B) : Prop := db.root = some b ∨ b ∈ db.index

def Path : B → List B → Prop
  | _, [] => True
  | c, b :: branch => b ∈ db.index ∧ previous b = idOf c ∧ Path b branch

end Definitions

def tip (c : B) (branch : List B) : B := branch.getLast?.getD c

section Paths
variable {db : ForkDatabase B} {c b : B} {branch : List B}

omit [ForkBlock B] in
@[simp] theorem tip_nil (c : B) : tip c [] = c := rfl

omit [ForkBlock B] in
@[simp] theorem tip_cons (c b : B) (branch : List B) : tip c (b :: branch) = tip b branch := by
  simp [tip, getLast?_cons]

omit [ForkBlock B] in
@[simp] theorem tip_append (c b : B) (branch : List B) : tip c (branch ++ [b]) = b := by
  simp [tip]

omit [ForkBlock B] in
theorem tip_append_list (c : B) (left right : List B) :
    tip c (left ++ right) = tip (tip c left) right := by
  induction left generalizing c with
  | nil => rfl
  | cons b left ih => rw [cons_append, tip_cons, tip_cons, ih]

theorem path_append {left right : List B} :
    db.Path c (left ++ right) ↔ db.Path c left ∧ db.Path (tip c left) right := by
  induction left generalizing c with
  | nil => simp [Path]
  | cons b left ih => simp only [cons_append, Path, tip_cons, ih, and_assoc]

theorem Path.mem (h : db.Path c branch) : ∀ x ∈ branch, x ∈ db.index := by
  induction branch generalizing c with
  | nil => simp
  | cons b branch ih =>
    intro x hx
    rcases mem_cons.mp hx with rfl | hx
    · exact h.1
    · exact ih h.2.2 x hx

theorem Path.below (h : db.Path c branch) : ∀ x ∈ branch, db.Below (idOf c) x := by
  induction branch generalizing c with
  | nil => simp
  | cons b branch ih =>
    have hb : db.Below (idOf c) b := Descends.child (h.2.1 ▸ Descends.refl _) h.1
    intro x hx
    rcases mem_cons.mp hx with rfl | hx
    · exact hb
    · exact hb.trans (ih h.2.2 x hx)

theorem Path.below_tip (h : db.Path c branch) :
    db.Below (idOf c) (tip c branch) ∧
      ∀ x ∈ branch, db.Below (idOf x) (tip c branch) := by
  induction branch generalizing c with
  | nil => exact ⟨Descends.refl _, by simp⟩
  | cons b branch ih =>
    rw [tip_cons]
    obtain ⟨htip, hall⟩ := ih h.2.2
    refine ⟨(h.below b mem_cons_self).trans htip, fun x hx => ?_⟩
    rcases mem_cons.mp hx with rfl | hx
    · exact htip
    · exact hall x hx

end Paths

section Ancestors
variable {U : Set B} {db : ForkDatabase B} {a b x : B}

theorem Tree.mem_of_holds (h : db.Tree U) (hb : db.Holds b) : b ∈ U :=
  hb.elim (h.root_mem b) (h.index_mem b)

section
variable (hU : Genealogy U) (h : db.Tree U)
include hU h

theorem Tree.holds_inj (ha : db.Holds a) (hb : db.Holds b) (hid : idOf a = idOf b) :
    a = b :=
  hU.id_inj a (h.mem_of_holds ha) b (h.mem_of_holds hb) hid

theorem Tree.exists_parent (hb : b ∈ db.index) :
    ∃ p, db.Holds p ∧ idOf p = previous b ∧
      blockNum b = blockNum p + 1 := by
  cases hroot : db.root with
  | none =>
    rw [h.empty_of_root hroot] at hb
    cases hb
  | some r =>
    obtain ⟨p, hp, hid⟩ : ∃ p, db.Holds p ∧ idOf p = previous b := by
      rcases h.rooted r hroot b hb with hbr | ⟨p, hp, hkey⟩
      · exact ⟨r, .inl hroot, hbr.symm⟩
      · exact ⟨p, .inr hp, hkey⟩
    exact ⟨p, hp, hid, hU.num_succ b (h.index_mem b hb) p (h.mem_of_holds hp) hid.symm⟩

theorem Tree.getBlockOrRoot_eq (hb : db.Holds b) : db.getBlockOrRoot (idOf b) = some b := by
  unfold getBlockOrRoot
  cases hroot : db.root with
  | none =>
    have hmem := hb.resolve_left (by simp [hroot])
    exact nodeAt_eq h.nodup hmem
  | some r =>
    by_cases hid : idOf r = idOf b
    · simp only [hid, if_true]
      rw [h.holds_inj hU (.inl hroot) hb hid]
    · simp only [hid, if_false]
      have hmem : b ∈ db.index := by
        refine hb.resolve_left fun hr => hid ?_
        rw [Option.some.inj (hroot.symm.trans hr)]
      exact nodeAt_eq h.nodup hmem

theorem Tree.num_lt_of_below (ha : a ∈ U) :
    ∀ b ∈ db.index, db.Below (idOf a) b → idOf b ≠ idOf a →
      blockNum a < blockNum b := by
  refine (h.forest hU.lineage).parent_induction fun b hb ih hbelow hne => ?_
  have hb' := h.index_mem b hb
  rcases ((h.forest hU.lineage).descends_parent hb hne hbelow).cases with heq | ⟨p, hp, hkey, hpar⟩
  · have hnum := hU.num_succ b hb' a ha heq
    omega
  · have hnum := hU.num_succ b hb' p (h.index_mem p hp) hkey.symm
    by_cases hpa : idOf p = idOf a
    · rw [hU.id_inj p (h.index_mem p hp) a ha hpa] at hnum
      omega
    · have hlt := ih p hp hkey (hpar.child hp) hpa
      omega

theorem Tree.not_below (hb : b ∈ db.index) (hx : db.Holds x)
    (hlt : blockNum x < blockNum b) : ¬ db.Below (idOf b) x := by
  intro hbelow
  rcases hx with hx | hx
  · rcases hbelow.cases with heq | ⟨y, hy, hid, -⟩
    · exact h.id_ne_root hU.lineage hx b hb heq.symm
    · exact h.id_ne_root hU.lineage hx y hy hid
  · by_cases hid : idOf x = idOf b
    · rw [h.holds_inj hU (.inr hx) (.inr hb) hid] at hlt
      omega
    · have hgt := h.num_lt_of_below hU (h.index_mem b hb) x hx hbelow hid
      omega

theorem Tree.ancestor_unique (ha : a ∈ db.index) (hb : b ∈ db.index)
    (hnum : blockNum a = blockNum b) :
    ∀ x ∈ db.index, db.Below (idOf a) x → db.Below (idOf b) x → a = b := by
  have hforest := h.forest hU.lineage
  refine hforest.parent_induction fun x hx ih hax hbx => ?_
  by_cases hxa : idOf x = idOf a
  · by_cases hxb : idOf x = idOf b
    · exact hforest.eq_of_key ha hb (hxa.symm.trans hxb)
    · have hlt := h.num_lt_of_below hU (h.index_mem b hb) x hx hbx hxb
      rw [hforest.eq_of_key hx ha hxa] at hlt
      omega
  · by_cases hxb : idOf x = idOf b
    · have hlt := h.num_lt_of_below hU (h.index_mem a ha) x hx hax hxa
      rw [hforest.eq_of_key hx hb hxb] at hlt
      omega
    · have hap := hforest.descends_parent hx hxa hax
      have hbp := hforest.descends_parent hx hxb hbx
      rcases hap.cases with heq | ⟨p, hp, hkey, -⟩
      · exact ih a ha heq.symm (Descends.refl _) (by rwa [heq] at hbp)
      · rw [← hkey] at hap hbp
        exact ih p hp hkey hap hbp

end

end Ancestors

section Walks
variable {U : Set B} {db : ForkDatabase B} {r a b c : B}

def depth (db : ForkDatabase B) (b : B) : ℕ := (db.branchOf (idOf b)).length

section
variable (hU : Genealogy U) (h : db.Tree U)
include hU h

theorem Tree.depth_le (b : B) : db.depth b ≤ db.index.length :=
  (h.forest hU.lineage).climb_length_le

theorem Tree.depth_eq (hb : b ∈ db.index) (hid : idOf a = previous b) :
    db.depth b = db.depth a + 1 := by
  rw [depth, depth, branchOf, branchOf, (h.forest hU.lineage).ancestry_cons hb, hid, length_cons]

theorem Path.num_tip {branch : List B} (hc : c ∈ U) (hpath : db.Path c branch) :
    blockNum (tip c branch) = blockNum c + branch.length := by
  induction branch generalizing c with
  | nil => rfl
  | cons b branch ih =>
    obtain ⟨hb, hprev, hrest⟩ := hpath
    have hnum := hU.num_succ b (h.index_mem b hb) c hc hprev
    rw [tip_cons, ih (h.index_mem b hb) hrest, length_cons]
    omega

theorem Tree.lower_eq (hr : db.root = some r) {stop : ℕ} (hstop : blockNum r ≤ stop)
    {fuel : ℕ} (hb : db.Holds b) (hfuel : db.depth b < fuel) :
    ∃ branch last, db.lower stop fuel b = .returns (branch, last) ∧ db.Holds last ∧
      db.Path last branch.reverse ∧ tip last branch.reverse = b ∧
      blockNum last = min (blockNum b) stop := by
  induction fuel generalizing b with
  | zero => omega
  | succ fuel ih =>
    by_cases hlt : stop < blockNum b
    · have hmem : b ∈ db.index := by
        refine hb.resolve_left fun hroot => ?_
        rw [Option.some.inj (hroot.symm.trans hr)] at hlt
        omega
      obtain ⟨p, hp, hid, hnum⟩ := h.exists_parent hU hmem
      have hdepth := h.depth_eq hU hmem hid
      obtain ⟨branch, last, hlower, hlast, hpath, htip, hmin⟩ := ih hp (by omega)
      refine ⟨b :: branch, last, ?_, hlast, ?_, ?_, by omega⟩
      · rw [lower, if_pos hlt, ← hid, h.getBlockOrRoot_eq hU hp]
        simp only [hlower, Outcome.returns_bind]
        rfl
      · rw [reverse_cons, path_append, htip]
        exact ⟨hpath, hmem, hid.symm, trivial⟩
      · rw [reverse_cons, tip_append]
    · refine ⟨[], b, by rw [lower, if_neg hlt], hb, trivial, rfl, by omega⟩

end

structure Forked (db : ForkDatabase B) (c first second : B) (firstBranch secondBranch : List B) :
    Prop where
  holds : db.Holds c
  firstPath : db.Path c firstBranch.reverse
  firstTip : tip c firstBranch.reverse = first
  secondPath : db.Path c secondBranch.reverse
  secondTip : tip c secondBranch.reverse = second
  apart : ∀ x ∈ firstBranch, ∀ y ∈ secondBranch, ¬ db.Below (idOf x) y

section
variable (hU : Genealogy U) (h : db.Tree U)
include hU h

theorem Tree.apart (hc : db.Holds c) {left right : List B} (hleft : db.Path c (a :: left))
    (hright : db.Path c (b :: right)) (hne : idOf a ≠ idOf b) :
    ∀ x ∈ a :: left, ∀ y ∈ b :: right, ¬ db.Below (idOf x) y := by
  intro x hx y hy hxy
  have hax : db.Below (idOf a) x := by
    rcases mem_cons.mp hx with rfl | hx
    · exact Descends.refl _
    · exact hleft.2.2.below x hx
  have hby : db.Below (idOf b) y := by
    rcases mem_cons.mp hy with rfl | hy
    · exact Descends.refl _
    · exact hright.2.2.below y hy
  have hanum := hU.num_succ a (h.index_mem a hleft.1) c (h.mem_of_holds hc) hleft.2.1
  have hbnum := hU.num_succ b (h.index_mem b hright.1) c (h.mem_of_holds hc) hright.2.1
  have heq := h.ancestor_unique hU hleft.1 hright.1 (by omega) y (hright.mem y hy)
    (hax.trans hxy) hby
  exact hne (by rw [heq])

theorem Tree.mem_of_num_eq (ha : db.Holds a) (hb : db.Holds b)
    (hne : idOf a ≠ idOf b) (hnum : blockNum a = blockNum b) : a ∈ db.index := by
  refine ha.resolve_left fun har => ?_
  rcases hb with hbr | hb
  · exact hne (by rw [Option.some.inj (har.symm.trans hbr)])
  · have hlt := h.root_lt hU.lineage har b hb
    omega

theorem Tree.meet_eq {fuel : ℕ} (ha : a ∈ db.index) (hb : b ∈ db.index)
    (hne : idOf a ≠ idOf b) (hnum : blockNum a = blockNum b)
    (hfuel : db.depth a < fuel) :
    ∃ first second c a' b' left right, db.meet fuel a b = .returns (first, second) ∧ db.Holds c ∧
      first.reverse = a' :: left ∧ second.reverse = b' :: right ∧
      idOf a' ≠ idOf b' ∧ db.Path c first.reverse ∧ tip c first.reverse = a ∧
      db.Path c second.reverse ∧ tip c second.reverse = b := by
  induction fuel generalizing a b with
  | zero => omega
  | succ fuel ih =>
    obtain ⟨p, hp, hpid, hpnum⟩ := h.exists_parent hU ha
    obtain ⟨q, hq, hqid, hqnum⟩ := h.exists_parent hU hb
    by_cases hprev : previous a = previous b
    · refine ⟨[a], [b], p, a, b, [], [], by rw [meet, if_pos hprev], hp, rfl, rfl, hne,
        ⟨ha, hpid.symm, trivial⟩, rfl, ⟨hb, ?_, trivial⟩, rfl⟩
      rw [← hprev, hpid]
    · have hpq : idOf p ≠ idOf q := by rwa [hpid, hqid]
      have hpmem := h.mem_of_num_eq hU hp hq hpq (by omega)
      have hqmem := h.mem_of_num_eq hU hq hp hpq.symm (by omega)
      have hdepth := h.depth_eq hU ha hpid
      obtain ⟨first, second, c, a', b', left, right, hmeet, hc, hfirst, hsecond, hne', hpath, htip,
        hpath', htip'⟩ := ih hpmem hqmem hpq (by omega) (by omega)
      refine ⟨a :: first, b :: second, c, a', b', left ++ [a], right ++ [b], ?_, hc, ?_, ?_, hne',
        ?_, ?_, ?_, ?_⟩
      · rw [meet, if_neg hprev, ← hpid, ← hqid, getBlock, getBlock, nodeAt_eq h.nodup hpmem,
          nodeAt_eq h.nodup hqmem]
        simp only [hmeet, Outcome.returns_bind]
        rfl
      · rw [reverse_cons, hfirst, cons_append]
      · rw [reverse_cons, hsecond, cons_append]
      · rw [reverse_cons, path_append, htip]
        exact ⟨hpath, ha, hpid.symm, trivial⟩
      · rw [reverse_cons, tip_append]
      · rw [reverse_cons, path_append, htip']
        exact ⟨hpath', hb, hqid.symm, trivial⟩
      · rw [reverse_cons, tip_append]

theorem Tree.fetchBranchFrom_eq (hr : db.root = some r) {first second : B} (hfirst : db.Holds first)
    (hsecond : db.Holds second) :
    ∃ firstBranch secondBranch c,
      db.fetchBranchFrom (idOf first) (idOf second) =
        .returns (firstBranch, secondBranch) ∧
      db.Forked c first second firstBranch secondBranch := by
  have hge : ∀ x, db.Holds x → blockNum r ≤ blockNum x := by
    rintro x (hx | hx)
    · rw [Option.some.inj (hx.symm.trans hr)]
    · exact (h.root_lt hU.lineage hr x hx).le
  obtain ⟨firstBranch, a, hlower, ha, hpath, htip, hmin⟩ :=
    h.lower_eq hU hr (hge second hsecond) hfirst (Nat.lt_succ_of_le (h.depth_le hU first))
  obtain ⟨secondBranch, b, hlower', hb, hpath', htip', hmin'⟩ :=
    h.lower_eq hU hr (hge a ha) hsecond (Nat.lt_succ_of_le (h.depth_le hU second))
  have hlen := hpath.num_tip hU h (h.mem_of_holds ha)
  have hlen' := hpath'.num_tip hU h (h.mem_of_holds hb)
  rw [htip, length_reverse] at hlen
  rw [htip', length_reverse] at hlen'
  have hunfold : db.fetchBranchFrom (idOf first) (idOf second) =
      if idOf a = idOf b then .returns (firstBranch, secondBranch)
      else db.meet (db.index.length + 1) a b >>= fun rest =>
        .returns (firstBranch ++ rest.1, secondBranch ++ rest.2) := by
    rw [fetchBranchFrom, h.getBlockOrRoot_eq hU hfirst, h.getBlockOrRoot_eq hU hsecond, hr]
    simp only [hlower, hlower', Outcome.returns_bind]
    rfl
  by_cases hid : idOf a = idOf b
  · have hab := h.holds_inj hU ha hb hid
    subst hab
    refine ⟨firstBranch, secondBranch, a, by rw [hunfold, if_pos hid], ha, hpath, htip, hpath',
      htip', fun x hx y hy => ?_⟩
    -- the walks met without the last phase: one of them did not move
    have hx := length_pos_of_mem hx
    have hy := length_pos_of_mem hy
    omega
  · obtain ⟨firstRest, secondRest, c, a', b', left, right, hmeet, hc, hleft, hright, hne, hp, ht,
      hp', ht'⟩ := h.meet_eq hU (h.mem_of_num_eq hU ha hb hid (by omega)) (h.mem_of_num_eq hU hb ha
      (Ne.symm hid) (by omega)) hid (by omega) (Nat.lt_succ_of_le (h.depth_le hU a))
    have hpath : db.Path c (firstBranch ++ firstRest).reverse := by
      rw [reverse_append, path_append, ht]
      exact ⟨hp, hpath⟩
    have hpath' : db.Path c (secondBranch ++ secondRest).reverse := by
      rw [reverse_append, path_append, ht']
      exact ⟨hp', hpath'⟩
    refine ⟨firstBranch ++ firstRest, secondBranch ++ secondRest, c, ?_, hc, hpath, ?_, hpath', ?_,
      fun x hx y hy => ?_⟩
    · rw [hunfold, if_neg hid, hmeet]
      rfl
    · rw [reverse_append, tip_append_list, ht, htip]
    · rw [reverse_append, tip_append_list, ht', htip']
    · rw [reverse_append, hleft, cons_append] at hpath
      rw [reverse_append, hright, cons_append] at hpath'
      refine h.apart hU hc hpath hpath' hne x ?_ y ?_
      · rwa [← cons_append, ← hleft, ← reverse_append, mem_reverse]
      · rwa [← cons_append, ← hright, ← reverse_append, mem_reverse]

end

end Walks

section CommonAncestor
variable {U : Set B} {db : ForkDatabase B} {b c first second x : B} {branch : List B}

theorem Path.below_cases (hU : Genealogy U) (h : db.Tree U) (hpath : db.Path c branch)
    (hx : db.Below (idOf x) (tip c branch)) :
    db.Below (idOf x) c ∨ ∃ y ∈ branch, idOf y = idOf x := by
  induction branch using List.reverseRecOn with
  | nil => exact .inl hx
  | append_singleton branch b ih =>
    obtain ⟨hpath, hb, hprev, -⟩ := path_append.mp hpath
    rw [tip_append] at hx
    by_cases hid : idOf b = idOf x
    · exact .inr ⟨b, by simp, hid⟩
    · have hparent := (h.forest hU.lineage).descends_parent hb hid hx
      rw [hprev] at hparent
      rcases ih hpath hparent with hbelow | hmem
      · exact .inl hbelow
      · obtain ⟨y, hy, hyid⟩ := hmem
        exact .inr ⟨y, mem_append_left _ hy, hyid⟩

theorem Path.branchOf_tip (hU : Genealogy U) (h : db.Tree U) (hpath : db.Path c branch) :
    db.branchOf (idOf (tip c branch)) = branch.reverse ++ db.branchOf (idOf c) := by
  induction branch using List.reverseRecOn with
  | nil => rfl
  | append_singleton branch b ih =>
    obtain ⟨hpath, hb, hprev, -⟩ := path_append.mp hpath
    rw [tip_append, branchOf, (h.forest hU.lineage).ancestry_cons hb, hprev]
    simpa [branchOf] using ih hpath

theorem Tree.exists_root (h : db.Tree U) (hb : db.Holds b) : ∃ r, db.root = some r := by
  cases hroot : db.root with
  | some r => exact ⟨r, rfl⟩
  | none =>
    rcases hb with hb | hb
    · simp [hroot] at hb
    · simp [h.empty_of_root hroot] at hb

theorem Forked.below_iff (hU : Genealogy U) (h : db.Tree U) {firstBranch secondBranch : List B}
    (hf : db.Forked c first second firstBranch secondBranch) :
    db.Below (idOf x) c ↔
      db.Below (idOf x) first ∧ db.Below (idOf x) second := by
  have hfirst := hf.firstPath.below_tip.1
  have hsecond := hf.secondPath.below_tip.1
  rw [hf.firstTip] at hfirst
  rw [hf.secondTip] at hsecond
  constructor
  · intro hc
    exact ⟨hc.trans hfirst, hc.trans hsecond⟩
  · intro hboth
    rcases hf.firstPath.below_cases hU h (hf.firstTip.symm ▸ hboth.1) with hc | ⟨y, hy, hyid⟩
    · exact hc
    · rcases hf.secondPath.below_cases hU h (hf.secondTip.symm ▸ hboth.2) with hc | ⟨z, hz, hzid⟩
      · exact hc
      · have hyz : db.Below (idOf y) z := by
          rw [hyid, ← hzid]
          exact Descends.refl _
        exact absurd hyz (hf.apart y (by simpa using hy) z (by simpa using hz))

theorem Forked.nil_of_eq (hU : Genealogy U) (h : db.Tree U) (hc : db.Holds c)
    (hpath : db.Path c branch.reverse) (htip : tip c branch.reverse = first) (heq : c = first) :
    branch = [] := by
  have hnum := hpath.num_tip hU h (h.mem_of_holds hc)
  rw [htip, ← heq, length_reverse] at hnum
  exact length_eq_zero_iff.mp (by omega)

theorem fetch_branch_from_lowest_common_ancestor (hU : Genealogy U) (h : db.Tree U)
    (hfirst : db.Holds first) (hsecond : db.Holds second) :
    ∃ firstBranch secondBranch c,
      db.fetchBranchFrom (idOf first) (idOf second) =
        .returns (firstBranch, secondBranch) ∧ db.Holds c ∧
      db.Path c firstBranch.reverse ∧ tip c firstBranch.reverse = first ∧
      db.Path c secondBranch.reverse ∧ tip c secondBranch.reverse = second ∧
      firstBranch.Disjoint secondBranch ∧
      (∀ x, db.Holds x → (db.Below (idOf x) c ↔
        db.Below (idOf x) first ∧ db.Below (idOf x) second)) ∧
      (c = first → firstBranch = []) ∧ (c = second → secondBranch = []) ∧
      db.branchOf (idOf first) = firstBranch ++ db.branchOf (idOf c) ∧
      db.branchOf (idOf second) = secondBranch ++ db.branchOf (idOf c) := by
  obtain ⟨r, hr⟩ := h.exists_root hfirst
  obtain ⟨firstBranch, secondBranch, c, hfetch, hf⟩ := h.fetchBranchFrom_eq hU hr hfirst hsecond
  refine ⟨firstBranch, secondBranch, c, hfetch, hf.holds, hf.firstPath, hf.firstTip, hf.secondPath,
    hf.secondTip, ?_, fun x _ => hf.below_iff hU h, Forked.nil_of_eq hU h hf.holds hf.firstPath
    hf.firstTip, Forked.nil_of_eq hU h hf.holds hf.secondPath hf.secondTip, ?_, ?_⟩
  · intro x hx hx'
    exact hf.apart x hx x hx' (Descends.refl _)
  · rw [← hf.firstTip, hf.firstPath.branchOf_tip hU h, reverse_reverse]
  · rw [← hf.secondTip, hf.secondPath.branchOf_tip hU h, reverse_reverse]

end CommonAncestor

end ForkDatabase

theorem fetch_branch_from_plainForks : ∃ firstBranch secondBranch c,
    (firstBranch, secondBranch) = ([⟨4, 2, 7⟩, ⟨2, 1, 6⟩], [⟨3, 1, 6⟩]) ∧
    plainForks.fetchBranchFrom 4 3 = .returns (firstBranch, secondBranch) ∧ plainForks.Holds c ∧
    plainForks.Path c firstBranch.reverse ∧
    ForkDatabase.tip c firstBranch.reverse = ⟨4, 2, 7⟩ ∧
    plainForks.Path c secondBranch.reverse ∧
    ForkDatabase.tip c secondBranch.reverse = ⟨3, 1, 6⟩ ∧
    firstBranch.Disjoint secondBranch ∧
    (∀ x, plainForks.Holds x → (plainForks.Below x.id c ↔
      plainForks.Below x.id ⟨4, 2, 7⟩ ∧ plainForks.Below x.id ⟨3, 1, 6⟩)) ∧
    (c = ⟨4, 2, 7⟩ → firstBranch = []) ∧ (c = ⟨3, 1, 6⟩ → secondBranch = []) ∧
    plainForks.branchOf 4 = firstBranch ++ plainForks.branchOf c.id ∧
    plainForks.branchOf 3 = secondBranch ++ plainForks.branchOf c.id := by
  have htree := plainForks_reached.tree plainBlocks_genealogy.lineage
  have hfirst : plainForks.Holds ⟨4, 2, 7⟩ := .inr (by simp [plainForks])
  have hsecond : plainForks.Holds ⟨3, 1, 6⟩ := .inr (by simp [plainForks])
  have hfetch : plainForks.fetchBranchFrom 4 3 =
      .returns ([⟨4, 2, 7⟩, ⟨2, 1, 6⟩], [⟨3, 1, 6⟩]) := by decide +kernel
  obtain ⟨firstBranch, secondBranch, c, hfetch', hbranches⟩ :=
    ForkDatabase.fetch_branch_from_lowest_common_ancestor plainBlocks_genealogy htree hfirst hsecond
  exact ⟨firstBranch, secondBranch, c, Outcome.returns.inj (hfetch'.symm.trans hfetch), hfetch',
    hbranches⟩

end FlonCore
