import FlonCore.SwitchSteps

/-!
# The head after a fork switch

Whatever the applications answer, a fork switch ends with a head that the fork
database holds and a revision that is the head's number. A switch that fails goes
back: the bad block is removed, what was applied is popped, and the branch that
was left is applied again.
-/

namespace FlonCore
open Library ForkDatabase List
open Controller
open ForkBlock hiding id
open ForkBlock renaming id → idOf
variable {B : Type} [ForkBlock B] {U : Set B} {db₀ : ForkDatabase B}

section Reversal
variable {r b c oldHead newHead : B} {st : Controller B} (env : SwitchEnv B)
  {entered left : List B} {dead : B → Prop}

theorem assertSync_eq {message : String} (hpath : db₀.Path c left.reverse) (hleft : left ≠ [])
    (hhead : st.chainHead = c) : st.assertSync left message = .returns st := by
  refine if_pos ?_
  obtain ⟨rest, x, rfl⟩ := eq_nil_or_concat left |>.resolve_left hleft
  rw [concat_eq_append, reverse_append] at hpath
  simp [hpath.2.1, hhead]

theorem assertSync_cases (st : Controller B) (left : List B) (message : String) :
    (st.assertSync left message = .returns st ∧
      left.getLast?.map previous = some (idOf st.chainHead)) ∨
    ∃ e, st.assertSync left message = .throws (e, st) := by
  unfold assertSync
  split_ifs with hsync
  · exact .inl ⟨rfl, hsync⟩
  · exact .inr ⟨_, rfl⟩

variable (hU : Genealogy U) (htree : db₀.Tree U)
include hU htree

theorem root_unmoved {r r' : B} {db : ForkDatabase B} (hkept : Trimmed db₀ dead r' db)
    (hr' : r' = r ∨ r' ∈ db₀.index) (hroot : db.root = db₀.root) : r' = r ∧ db₀.root = some r := by
  have hr₀ : db₀.root = some r' := hroot.symm.trans hkept.root_eq
  rcases hr' with rfl | hmem
  · exact ⟨rfl, hr₀⟩
  · exact absurd rfl (htree.id_ne_root hU.lineage hr₀ r' hmem)

theorem Trimmed.mem_of_unmoved {db : ForkDatabase B} (h : Trimmed db₀ dead r db)
    (hr : db₀.root = some r) {x : B} (hx : x ∈ db₀.index) (hlive : ¬ dead x) : x ∈ db.index :=
  (h.mem_iff x).mpr ⟨hx, htree.id_ne_root hU.lineage hr x hx,
    (htree.rooted r hr).descends (htree.forest hU.lineage) x hx, hlive⟩

variable (hfork : db₀.Forked c newHead oldHead entered left)
include hfork

theorem Steady.rejoin (hdead : DeadClosed db₀ dead) (hlive : ∀ x ∈ left, ¬ dead x)
    (h : Steady U db₀ dead r st) :
    ∃ st' r', Steady U db₀ dead r' st' ∧ (r' = r ∨ r' ∈ db₀.index) ∧
      (∀ x e, (x, .threw e) ∈ st'.trace → (x, .threw e) ∈ st.trace ∨ x ∈ left) ∧
      ((st.rejoin env left = .returns st' ∧ (st.chainHead = c → st'.chainHead = oldHead)) ∨
        ∃ e, st.rejoin env left = .throws (e, st') ∧
          (st.chainHead = c → ∃ x ∈ left, ∃ e', (x, .threw e') ∈ st'.trace)) := by
  unfold Controller.rejoin
  by_cases hleft : left = []
  · subst hleft
    exact ⟨st, r, h, .inl rfl, fun _ _ => .inl, .inl ⟨rfl, fun hc => hc.trans hfork.secondTip⟩⟩
  · rw [if_neg (by simpa using hleft)]
    rcases assertSync_cases st left
        "loss of sync between fork_db and chainbase during fork switch reversal" with
      ⟨hsync, hlast⟩ | ⟨e, hsync⟩
    · rw [hsync, Outcome.returns_bind]
      have hc : st.chainHead = c := by
        obtain ⟨rest, x, rfl⟩ := eq_nil_or_concat left |>.resolve_left hleft
        have hpath := hfork.secondPath
        rw [concat_eq_append, reverse_append] at hpath
        refine htree.holds_inj hU (h.kept.holds h.head) hfork.holds ?_
        rw [← hpath.2.1]
        simpa using hlast.symm
      have hpath : db₀.Path st.chainHead left.reverse := hc ▸ hfork.secondPath
      obtain ⟨st', r', hst', hr', hthrew, hout⟩ := h.applyAll env hU htree hdead hpath
        (fun x hx => hlive x (mem_reverse.mp hx))
      refine ⟨st', r', hst', hr', fun x e hx => ?_, ?_⟩
      · exact (hthrew x e hx).imp_right mem_reverse.mp
      · rcases hout with ⟨hout, htip⟩ | ⟨e, hout, x, hx, hin⟩
        · exact .inl ⟨hout, fun _ => by rw [htip, hc, hfork.secondTip]⟩
        · exact .inr ⟨e, hout, fun _ => ⟨x, mem_reverse.mp hx, e, hin⟩⟩
    · rw [hsync]
      refine ⟨st, r, h, .inl rfl, fun _ _ => .inl, .inr ⟨e, rfl, fun hc => ?_⟩⟩
      rw [assertSync_eq hfork.secondPath hleft hc] at hsync
      cases hsync

/-- After a reversal the bad block and what is built on it are gone. Unless the root moved,
the head is the old one, or a block of the branch that was left failed to apply again. -/
theorem Steady.reverseSwitch {done : List B} (h : Steady U db₀ (fun _ => False) r st)
    (hdone : db₀.Path c done) (hhead : tip c done = st.chainHead) (hb : b ∈ db₀.index)
    (hprev : previous b = idOf st.chainHead) (hentered : b ∈ entered)
    (hblocks : ∀ x ∈ db₀.index, env.hasBlock x = true) :
    ∃ st' r', Steady U db₀ (db₀.Below (idOf b)) r' st' ∧
      (∀ x e, (x, .threw e) ∈ st'.trace → (x, .threw e) ∈ st.trace ∨ x ∈ left) ∧
      ((st.reverseSwitch env left done.length (idOf b) = .returns st' ∧
          (st'.forkdb.root = db₀.root → st'.chainHead = oldHead)) ∨
        ∃ e, st.reverseSwitch env left done.length (idOf b) = .throws (e, st') ∧
          (st'.forkdb.root = db₀.root → ∃ x ∈ left, ∃ e', (x, .threw e') ∈ st'.trace)) := by
  have hmem := h.child_mem hU htree hb hprev not_false
  obtain ⟨db', hrem, htree', hkept', hholds⟩ := h.kept.remove hU htree h.tree hmem
  have hnum := hU.num_succ b (htree.index_mem b hb) _ (h.head_mem htree) hprev
  have hheadLive : ¬ db₀.Below (idOf b) st.chainHead :=
    htree.not_below hU hb (h.kept.holds h.head) (by omega)
  have hdoneLive : ∀ x ∈ done, ¬ db₀.Below (idOf b) x := by
    intro x hx hbelow
    have htop := hdone.below_tip.2 x hx
    rw [hhead] at htop
    exact hheadLive (hbelow.trans htop)
  have hst₁ : Steady U db₀ (db₀.Below (idOf b)) r { st with forkdb := db' } :=
    ⟨htree', hkept', hholds _ h.head hheadLive, h.revision⟩
  have hremove : st.removeBlock (idOf b) = .returns { st with forkdb := db' } := by
    rw [Controller.removeBlock, hrem]
    rfl
  -- unless the root has moved, the pops go back to the common ancestor
  have hback : db₀.root = some r → ∃ st₂, Controller.popBlocks env done.length
      { st with forkdb := db' } = .returns st₂ ∧ st₂.chainHead = c := by
    intro hr
    obtain ⟨st₂, hpop, -, hc, -⟩ := hst₁.popBlocks_path env hU htree hfork.holds hdone hhead
      (fun x hx => hkept'.mem_of_unmoved hU htree hr (hdone.mem x hx) (hdoneLive x hx))
      (fun x hx => hblocks x (hdone.mem x hx))
    exact ⟨st₂, hpop, hc⟩
  rw [Controller.reverseSwitch, hremove, Outcome.returns_bind]
  rcases hst₁.popBlocks env hU htree done.length with
    ⟨st₂, hpop, hst₂, htrace₂⟩ | ⟨e, st₂, hpop, hst₂, htrace₂⟩
  · rw [hpop, Outcome.returns_bind]
    obtain ⟨st', r', hst', hr', hthrew, hout⟩ := hst₂.rejoin env hU htree hfork
      (fun x y hx hxy => hx.trans hxy) (hfork.apart b hentered)
    have hc : st'.forkdb.root = db₀.root → st₂.chainHead = c := by
      intro hroot
      obtain ⟨-, hr⟩ := root_unmoved hU htree hst'.kept hr' hroot
      obtain ⟨st₃, hpop₃, hc⟩ := hback hr
      cases hpop.symm.trans hpop₃
      exact hc
    rw [htrace₂] at hthrew
    refine ⟨st', r', hst', hthrew, ?_⟩
    rcases hout with ⟨hout, hold⟩ | ⟨e, hout, hfailed⟩
    · exact .inl ⟨hout, fun hroot => hold (hc hroot)⟩
    · exact .inr ⟨e, hout, fun hroot => hfailed (hc hroot)⟩
  · rw [hpop]
    refine ⟨st₂, r, hst₂, fun x e hx => .inl (by rwa [htrace₂] at hx),
      .inr ⟨e, rfl, fun hroot => ?_⟩⟩
    obtain ⟨-, hr⟩ := root_unmoved hU htree hst₂.kept (.inl rfl) hroot
    obtain ⟨st₃, hpop₃, -⟩ := hback hr
    exact absurd (hpop.symm.trans hpop₃) nofun

end Reversal

section Switch
variable (st₀ : Controller B) {st : Controller B} {newHead : B} (env : SwitchEnv B)

/-- Memory ran out while several blocks were being applied, or the block is one of the
branch that was left, which had been applied before. -/
def Exempt (newHead x : B) (e : Failure) : Prop :=
  (e.kind = .badAlloc ∧ previous newHead ≠ idOf st₀.chainHead) ∨
    st₀.forkdb.Below (idOf x) st₀.chainHead

structure Ended (newHead : B) (st : Controller B) : Prop where
  revision : st.revision = blockNum st.chainHead
  head : st.forkdb.Holds st.chainHead
  cleared : ∀ x e, (x, .threw e) ∈ st.trace → ¬ Exempt st₀ newHead x e →
    ∀ y ∈ st.forkdb.index, ¬ st₀.forkdb.Below (idOf x) y

def Restored (newHead : B) (st : Controller B) : Prop :=
  st.forkdb.root = st₀.forkdb.root →
    (∀ x e, (x, .threw e) ∈ st.trace → ¬ Exempt st₀ newHead x e) → st.chainHead = st₀.chainHead

def EndsWell (newHead : B) (result : Controller.Call B (Controller B)) : Prop :=
  (∃ st, result = .returns st ∧ Ended st₀ newHead st) ∨
    ∃ e st, result = .throws (e, st) ∧ Ended st₀ newHead st ∧ Restored st₀ newHead st

variable {st₀}

structure Controller.Consistent (U : Set B) (st : Controller B) : Prop where
  tree : st.forkdb.Tree U
  root : ∃ r, st.forkdb.root = some r
  head : st.forkdb.Holds st.chainHead
  revision : st.revision = blockNum st.chainHead
  trace : st.trace = []

theorem Steady.ended {dead : B → Prop} {r : B} (h : Steady U st₀.forkdb dead r st)
    (hthrew : ∀ x e, (x, .threw e) ∈ st.trace → ¬ Exempt st₀ newHead x e →
      ∀ y, st₀.forkdb.Below (idOf x) y → dead y) : Ended st₀ newHead st :=
  ⟨h.revision, h.head, fun x e hx hne y hy hbelow =>
    ((h.kept.mem_iff y).mp hy).2.2.2 (hthrew x e hx hne y hbelow)⟩

variable (hU : Genealogy U) (h₀ : st₀.Consistent U)
include hU h₀

theorem Controller.Consistent.steady :
    ∃ r, st₀.forkdb.root = some r ∧ Steady U st₀.forkdb (fun _ => False) r st₀ := by
  obtain ⟨r, hr⟩ := h₀.root
  refine ⟨r, hr, h₀.tree, ⟨hr, .inl hr, fun x => ⟨fun hx => ?_, fun hx => hx.1⟩⟩, h₀.head,
    h₀.revision⟩
  exact ⟨hx, h₀.tree.id_ne_root hU.lineage hr x hx,
    (h₀.tree.rooted r hr).descends (h₀.tree.forest hU.lineage) x hx, not_false⟩

section
variable (hblocks : ∀ x ∈ st₀.forkdb.index, env.hasBlock x = true)
include hblocks

theorem Steady.enterBranch {r c : B} {entered left done todo : List B}
    (hfork : st₀.forkdb.Forked c newHead st₀.chainHead entered left)
    (hnot : previous newHead ≠ idOf st₀.chainHead) (hsplit : entered.reverse = done ++ todo)
    (h : Steady U st₀.forkdb (fun _ => False) r st) (hhead : tip c done = st.chainHead)
    (htrace : ∀ x e, (x, .threw e) ∉ st.trace) :
    EndsWell st₀ newHead (st.enterBranch env left done.length todo) := by
  induction todo generalizing st done r with
  | nil => exact .inl ⟨st, rfl, h.ended fun x e hx => absurd hx (htrace x e)⟩
  | cons b todo ih =>
    have hpath := hfork.firstPath
    rw [hsplit, path_append, hhead] at hpath
    obtain ⟨hdone, hb, hprev, -⟩ := hpath
    have hentered : b ∈ entered := by
      rw [← mem_reverse, hsplit]
      simp
    rw [enterBranch]
    rcases h.applyBlock env hU h₀.tree deadClosed_false hb hprev not_false with
      ⟨st₁, r₁, lib, happly, hst₁, hhead₁, -, htrace₁⟩ | ⟨e, happly⟩
    · simp only [happly]
      have htrace' : ∀ x e, (x, .threw e) ∉ st₁.trace := by
        intro x e hx
        rw [htrace₁] at hx
        exact htrace x e (by simpa using hx)
      split_ifs
      · exact .inl ⟨st₁, rfl, hst₁.ended fun x e hx => absurd hx (htrace' x e)⟩
      · have hnext : EndsWell st₀ newHead (st₁.enterBranch env left (done ++ [b]).length todo) :=
          ih (by simp [hsplit]) hst₁ (by simp [hhead₁]) htrace'
        rwa [length_append] at hnext
    · simp only [happly]
      -- the only exception so far is that of `b`
      have honly : ∀ x e', (x, ApplyResult.threw e') ∈ st.trace ++ [(b, .threw e)] →
          x = b ∧ e' = e := by
        intro x e' hx
        rcases mem_append.mp hx with hx | hx
        · exact absurd hx (htrace x e')
        · simpa using hx
      split_ifs with hbad
      · refine .inr ⟨e, _, rfl, (h.of_trace _).ended fun x e' hx hne => ?_, fun _ hall => ?_⟩
        · obtain ⟨-, rfl⟩ := honly x e' hx
          exact absurd (.inl ⟨hbad, hnot⟩) hne
        · exact absurd (.inl ⟨hbad, hnot⟩) (hall b e (by simp))
      · obtain ⟨st₂, r₂, hst₂, hthrew, hout⟩ :=
          (h.of_trace (st.trace ++ [(b, .threw e)])).reverseSwitch env hU h₀.tree hfork hdone
            hhead hb hprev hentered hblocks
        have hexempt : ∀ x ∈ left, ∀ e', Exempt st₀ newHead x e' := by
          intro x hx e'
          have htop := hfork.secondPath.below_tip.2 x (mem_reverse.mpr hx)
          rw [hfork.secondTip] at htop
          exact .inr htop
        have hended : Ended st₀ newHead st₂ := by
          refine hst₂.ended fun x e' hx hne y hbelow => ?_
          rcases hthrew x e' hx with hx | hx
          · obtain ⟨rfl, -⟩ := honly x e' hx
            exact hbelow
          · exact absurd (hexempt x hx e') hne
        rcases hout with ⟨hout, hold⟩ | ⟨e', hout, hfailed⟩
        · rw [hout]
          exact .inr ⟨e, st₂, rfl, hended, fun hroot _ => hold hroot⟩
        · rw [hout]
          refine .inr ⟨e', st₂, rfl, hended, fun hroot hall => ?_⟩
          obtain ⟨x, hx, e'', hin⟩ := hfailed hroot
          exact absurd (hexempt x hx e'') (hall x e'' hin)

theorem Controller.Consistent.leaveBranch {c : B} {entered left : List B}
    (hfork : st₀.forkdb.Forked c newHead st₀.chainHead entered left) :
    ∃ st r, st₀.leaveBranch env left = .returns st ∧
      Steady U st₀.forkdb (fun _ => False) r st ∧ st.chainHead = c ∧ st.trace = [] := by
  obtain ⟨r, hr, hsteady⟩ := h₀.steady hU
  unfold Controller.leaveBranch
  by_cases hleft : left = []
  · subst hleft
    exact ⟨st₀, r, rfl, hsteady, hfork.secondTip.symm, h₀.trace⟩
  · have hpath := hfork.secondPath
    obtain ⟨st, hpop, hst, hc, htrace⟩ := hsteady.popBlocks_path env hU h₀.tree hfork.holds hpath
      hfork.secondTip hpath.mem (fun x hx => hblocks x (hpath.mem x hx))
    rw [length_reverse] at hpop
    refine ⟨st, r, ?_, hst, hc, htrace.trans h₀.trace⟩
    rw [if_neg (by simpa using hleft), hpop, Outcome.returns_bind]
    exact assertSync_eq hpath hleft hc

theorem Controller.Consistent.switchTo (hnew : st₀.forkdb.Holds newHead)
    (hnot : previous newHead ≠ idOf st₀.chainHead) :
    EndsWell st₀ newHead (st₀.switchTo env newHead) := by
  obtain ⟨r, hr⟩ := h₀.root
  obtain ⟨entered, left, c, hfetch, hfork⟩ := h₀.tree.fetchBranchFrom_eq hU hr hnew h₀.head
  obtain ⟨st, r', hleave, hst, hc, htrace⟩ := h₀.leaveBranch env hU hblocks hfork
  simp only [Controller.switchTo, hfetch, hleave, Outcome.returns_bind]
  have hsplit : entered.reverse = [] ++ entered.reverse := rfl
  exact hst.enterBranch env hU h₀ hblocks hfork hnot hsplit hc.symm (by simp [htrace])

end

theorem Controller.Consistent.applyChild (hnew : newHead ∈ st₀.forkdb.index)
    (hprev : previous newHead = idOf st₀.chainHead) (pendingLib : Option BlockId) :
    EndsWell st₀ newHead (st₀.maybeSwitchForks env newHead pendingLib) := by
  obtain ⟨r, hr, hsteady⟩ := h₀.steady hU
  rw [maybeSwitchForks, if_pos hprev]
  rcases hsteady.applyBlock env hU h₀.tree deadClosed_false hnew hprev not_false with
    ⟨st₁, r₁, lib, happly, hst₁, -, -, htrace₁⟩ | ⟨e, happly⟩
  · simp only [happly]
    refine .inl ⟨st₁, rfl, hst₁.ended fun x e hx => ?_⟩
    rw [htrace₁, h₀.trace] at hx
    simp at hx
  · simp only [happly]
    have hnum := hU.num_succ newHead (h₀.tree.index_mem newHead hnew) _
      (hsteady.head_mem h₀.tree) hprev
    have hlive := h₀.tree.not_below hU hnew h₀.head (by omega)
    obtain ⟨db', hrem, htree', hkept', hholds⟩ :=
      hsteady.kept.remove hU h₀.tree h₀.tree hnew
    rw [removeBlock, hrem]
    refine .inr ⟨e, _, rfl, ⟨h₀.revision, hholds _ h₀.head hlive, fun x e' hx _ y hy hbelow => ?_⟩,
      fun _ _ => rfl⟩
    simp only [h₀.trace, nil_append, mem_singleton, Prod.mk.injEq] at hx
    rw [hx.1] at hbelow
    exact ((hkept'.mem_iff y).mp hy).2.2.2 hbelow

/-- However the applications end, a fork switch returns or throws with the revision at the
number of its head and the head in the fork database. Every block whose application threw is
gone with what was built on it, unless memory ran out during a switch or the block is of the
branch that is applied again; and unless one of these happened or a block became
irreversible, a switch that throws ends on the head it started from. -/
theorem maybeSwitchForks_consistent (hnew : st₀.forkdb.Holds newHead)
    (hblocks : ∀ x ∈ st₀.forkdb.index, env.hasBlock x = true) (pendingLib : Option BlockId) :
    EndsWell st₀ newHead (st₀.maybeSwitchForks env newHead pendingLib) := by
  obtain ⟨r, hr, hsteady⟩ := h₀.steady hU
  by_cases hprev : previous newHead = idOf st₀.chainHead
  · have hmem : newHead ∈ st₀.forkdb.index := by
      refine hnew.resolve_left fun hroot => ?_
      have hnum := hU.num_succ newHead (h₀.tree.mem_of_holds hnew) _
        (hsteady.head_mem h₀.tree) hprev
      rcases h₀.head with hhead | hhead
      · rw [Option.some.inj (hhead.symm.trans hroot)] at hnum
        omega
      · have hlt := h₀.tree.root_lt hU.lineage hroot _ hhead
        omega
    exact h₀.applyChild env hU hmem hprev pendingLib
  · by_cases hid : idOf newHead = idOf st₀.chainHead
    · obtain ⟨forkdb, r', hlog, hst, -⟩ := hsteady.logIrreversible hU h₀.tree
        deadClosed_false pendingLib
      rw [maybeSwitchForks, if_neg hprev, if_neg (not_not.mpr hid), hlog]
      refine .inl ⟨_, rfl, hst.ended fun x e hx => ?_⟩
      rw [h₀.trace] at hx
      cases hx
    · rw [maybeSwitchForks, if_neg hprev, if_pos hid]
      exact h₀.switchTo env hU hblocks hnew hprev

end Switch

def answering (answers : List ApplyResult) : SwitchEnv PlainBlock where
  apply n := answers.getD n (.applied none)
  checkShutdown _ := false
  hasBlock _ := true

def plainController : Controller PlainBlock := ⟨plainForks, ⟨3, 1, 6⟩, 6, []⟩

def invalidBlock : Failure := ⟨.blockValidateException, "Block ID does not match"⟩

def outOfMemory : Failure := ⟨.badAlloc, "std::bad_alloc"⟩

theorem plainController_consistent : plainController.Consistent {b | b ∈ plainBlocks} :=
  ⟨plainForks_reached.tree plainBlocks_genealogy.lineage, ⟨⟨1, 0, 5⟩, rfl⟩,
    .inr (by simp [plainController, plainForks]), rfl, rfl⟩

theorem maybeSwitchForks_consistent_reversed :
    plainController.maybeSwitchForks (answering [.applied none, .threw invalidBlock])
          ⟨4, 2, 7⟩ none =
        .throws (invalidBlock, ⟨⟨some ⟨1, 0, 5⟩, 0, [⟨2, 1, 6⟩, ⟨3, 1, 6⟩]⟩, ⟨3, 1, 6⟩, 6,
          [(⟨2, 1, 6⟩, .applied none), (⟨4, 2, 7⟩, .threw invalidBlock),
            (⟨3, 1, 6⟩, .applied none)]⟩) ∧
      EndsWell plainController ⟨4, 2, 7⟩ (plainController.maybeSwitchForks
        (answering [.applied none, .threw invalidBlock]) ⟨4, 2, 7⟩ none) :=
  ⟨by decide +kernel, maybeSwitchForks_consistent _ plainBlocks_genealogy plainController_consistent
    (.inr (by simp [plainController, plainForks])) (fun _ _ => rfl) none⟩

/-- When memory runs out at the last block, that block stays and the head is on the new
branch. When the old head does not apply again, it stays and the head is below it. -/
theorem maybeSwitchForks_not_restored :
    (∃ st, plainController.maybeSwitchForks (answering [.applied none, .threw outOfMemory])
        ⟨4, 2, 7⟩ none = .throws (outOfMemory, st) ∧
      (⟨4, 2, 7⟩, .threw outOfMemory) ∈ st.trace ∧ ⟨4, 2, 7⟩ ∈ st.forkdb.index ∧
      st.forkdb.root = plainController.forkdb.root ∧ st.chainHead = ⟨2, 1, 6⟩) ∧
    ∃ st, plainController.maybeSwitchForks (answering [.threw invalidBlock, .threw invalidBlock])
        ⟨4, 2, 7⟩ none = .throws (invalidBlock, st) ∧
      (⟨3, 1, 6⟩, .threw invalidBlock) ∈ st.trace ∧ ⟨3, 1, 6⟩ ∈ st.forkdb.index ∧
      st.forkdb.root = plainController.forkdb.root ∧ st.chainHead = ⟨1, 0, 5⟩ := by
  refine ⟨⟨⟨plainForks, ⟨2, 1, 6⟩, 6, [(⟨2, 1, 6⟩, .applied none),
    (⟨4, 2, 7⟩, .threw outOfMemory)]⟩, ?_⟩, ⟨⟨⟨some ⟨1, 0, 5⟩, 0, [⟨3, 1, 6⟩]⟩, ⟨1, 0, 5⟩, 5,
    [(⟨2, 1, 6⟩, .threw invalidBlock), (⟨3, 1, 6⟩, .threw invalidBlock)]⟩, ?_⟩⟩
  all_goals decide +kernel

end FlonCore
