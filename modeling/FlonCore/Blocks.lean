import FlonCore.FinalityCoreRuns
import FlonCore.Library.TwoChain

/-!
# Trees of proper blocks

A block is its reference and QC claim on top of its parent, down to the genesis
block. Its core is computed along the branch by `next`. A block is proper when
every block below it has a number, a time and a claim that its parent allows,
and an id that is not the null id. The windows of a proper block's core then
hold exactly the references and claims of its ancestors.
-/

namespace FlonCore
open Library FinalityCore List Option

inductive Block
  | genesis (ref : BlockRef)
  | child (parent : Block) (ref : BlockRef) (claim : QcClaim)
deriving DecidableEq, Repr

namespace Block

def ref : Block → BlockRef
  | genesis ref => ref
  | child _ ref _ => ref

def core : Block → Option FinalityCore
  | genesis ref => some (createCoreForGenesisBlock ref.blockId ref.timestamp)
  | child parent _ claim => parent.core.bind fun c => c.next parent.ref claim

def claim : Block → QcClaim
  | genesis ref => ⟨ref.blockNum, false⟩
  | child _ _ claim => claim

/-- The block number counted up from the genesis block without wrapping. -/
def height : Block → ℕ
  | genesis ref => ref.blockNum
  | child parent _ _ => parent.height + 1

def root : Block → Block
  | genesis ref => genesis ref
  | child parent _ _ => parent.root

def IsAncestor (a : Block) : Block → Prop
  | genesis ref => a = genesis ref
  | child parent ref claim => a = child parent ref claim ∨ IsAncestor a parent

theorem IsAncestor.refl (b : Block) : IsAncestor b b := by
  cases b with
  | genesis ref => rfl
  | child parent ref claim => exact .inl rfl

variable {a b c : Block}

theorem IsAncestor.trans (hab : IsAncestor a b) (hbc : IsAncestor b c) : IsAncestor a c := by
  induction c with
  | genesis ref => exact hbc ▸ hab
  | child parent ref claim ih =>
    rcases hbc with rfl | hbc
    · exact hab
    · exact .inr (ih hbc)

theorem IsAncestor.height_le (h : IsAncestor a b) : a.height ≤ b.height := by
  induction b with
  | genesis ref => exact h ▸ le_rfl
  | child parent ref claim ih =>
    rcases h with rfl | h
    · exact le_rfl
    · exact (ih h).trans (Nat.le_succ _)

theorem IsAncestor.eq_of_height (h : IsAncestor a b) (he : a.height = b.height) : a = b := by
  cases b with
  | genesis ref => exact h
  | child parent ref claim =>
    rcases h with h | h
    · exact h
    · have hle : a.height ≤ parent.height := h.height_le
      rw [height] at he
      omega

instance : PartialOrder Block where
  le := IsAncestor
  le_refl := IsAncestor.refl
  le_trans _ _ _ := IsAncestor.trans
  le_antisymm a b hab hba := hab.eq_of_height (le_antisymm hab.height_le hba.height_le)

theorem height_mono (h : a ≤ b) : a.height ≤ b.height := IsAncestor.height_le h

theorem eq_of_le_of_height (h : a ≤ b) (he : a.height = b.height) : a = b :=
  IsAncestor.eq_of_height h he

theorem le_genesis_iff {ref : BlockRef} : a ≤ genesis ref ↔ a = genesis ref := Iff.rfl

variable {parent : Block} {ref : BlockRef} {claim : QcClaim}

theorem le_child_iff : a ≤ child parent ref claim ↔ a = child parent ref claim ∨ a ≤ parent :=
  Iff.rfl

theorem lt_child_iff : a < child parent ref claim ↔ a ≤ parent := by
  constructor
  · intro h
    exact (le_child_iff.mp h.le).resolve_left h.ne
  · intro h
    refine lt_of_le_of_ne (.inr h) ?_
    rintro rfl
    have hle := height_mono h
    rw [height] at hle
    omega

theorem parent_lt : parent < child parent ref claim := lt_child_iff.mpr le_rfl

theorem root_le (b : Block) : b.root ≤ b := by
  induction b with
  | genesis ref => exact le_rfl
  | child parent ref claim ih => exact ih.trans parent_lt.le

theorem root_eq_of_le (h : a ≤ b) : a.root = b.root := by
  induction b with
  | genesis ref => rw [le_genesis_iff.mp h]
  | child parent ref claim ih =>
    rcases le_child_iff.mp h with rfl | h
    · rfl
    · exact ih h

theorem le_of_height_le (ha : a ≤ c) (hb : b ≤ c) (h : a.height ≤ b.height) : a ≤ b := by
  induction c with
  | genesis ref => rw [le_genesis_iff.mp ha, le_genesis_iff.mp hb]
  | child parent ref claim ih =>
    rcases le_child_iff.mp hb with rfl | hb
    · exact ha
    · rcases le_child_iff.mp ha with rfl | ha
      · have hle := height_mono hb
        rw [height] at h
        omega
      · exact ih ha hb

theorem branch (ha : a ≤ c) (hb : b ≤ c) : a ≤ b ∨ b ≤ a :=
  (Nat.le_total a.height b.height).imp (le_of_height_le ha hb) (le_of_height_le hb ha)

theorem eq_of_height (ha : a ≤ c) (hb : b ≤ c) (h : a.height = b.height) : a = b :=
  eq_of_le_of_height (le_of_height_le ha hb h.le) h

def atHeight : Block → ℕ → Option Block
  | genesis ref, n => if ref.blockNum = n then some (genesis ref) else none
  | child parent ref claim, n =>
    if parent.height + 1 = n then some (child parent ref claim) else parent.atHeight n

theorem atHeight_spec {n : ℕ} (h : b.atHeight n = some a) : a ≤ b ∧ a.height = n := by
  induction b with
  | genesis ref =>
    simp only [atHeight] at h
    split_ifs at h with hn
    cases h
    exact ⟨le_rfl, hn⟩
  | child parent ref claim ih =>
    simp only [atHeight] at h
    split_ifs at h with hn
    · cases h
      exact ⟨le_rfl, hn⟩
    · exact ⟨(ih h).1.trans parent_lt.le, (ih h).2⟩

theorem exists_atHeight {n : ℕ} (hlo : b.root.height ≤ n) (hhi : n ≤ b.height) :
    ∃ a, b.atHeight n = some a := by
  induction b with
  | genesis ref =>
    have he : ref.blockNum = n := le_antisymm hlo hhi
    exact ⟨genesis ref, by simp [atHeight, he]⟩
  | child parent ref claim ih =>
    simp only [atHeight]
    split_ifs with hn
    · exact ⟨_, rfl⟩
    · rw [height] at hhi
      exact ih hlo (by omega)

@[mk_iff]
structure ProperChild (parent : Block) (ref : BlockRef) (claim : QcClaim) : Prop where
  nonempty : ref.empty = false
  num_eq : ref.blockNum = u32 (parent.ref.blockNum + 1)
  time_lt : parent.ref.timestamp < ref.timestamp
  claim_allowed : ∃ c, parent.core = some c ∧ c.latestQcClaim.le claim ∧
    claim.blockNum ≤ c.currentBlockNum

def Proper : Block → Prop
  | genesis ref => ref.empty = false
  | child parent ref claim => parent.Proper ∧ ProperChild parent ref claim

instance (parent : Block) (ref : BlockRef) (claim : QcClaim) :
    Decidable (ProperChild parent ref claim) :=
  have : Decidable (∃ c, parent.core = some c ∧ c.latestQcClaim.le claim ∧
      claim.blockNum ≤ c.currentBlockNum) :=
    decidable_of_iff (parent.core.any fun c =>
      decide (c.latestQcClaim.le claim ∧ claim.blockNum ≤ c.currentBlockNum)) (by
        simp [Option.any_eq_true])
  decidable_of_iff' _ (properChild_iff parent ref claim)

instance Proper.decidable : DecidablePred Proper
  | genesis ref => inferInstanceAs (Decidable (ref.empty = false))
  | child parent ref claim =>
    have := Proper.decidable parent
    inferInstanceAs (Decidable (parent.Proper ∧ ProperChild parent ref claim))

theorem Proper.of_le (hb : b.Proper) (h : a ≤ b) : a.Proper := by
  induction b with
  | genesis ref => rwa [le_genesis_iff.mp h]
  | child parent ref claim ih =>
    rcases le_child_iff.mp h with rfl | h
    · exact hb
    · exact ih hb.1 h

theorem Proper.nonempty (hb : b.Proper) : b.ref.empty = false := by
  cases b with
  | genesis ref => exact hb
  | child parent ref claim => exact hb.2.nonempty

theorem Proper.time_lt (hb : b.Proper) (h : a < b) : a.ref.timestamp < b.ref.timestamp := by
  induction b with
  | genesis ref => exact absurd (le_genesis_iff.mp h.le) h.ne
  | child parent ref claim ih =>
    rcases (lt_child_iff.mp h).eq_or_lt with rfl | hlt
    · exact hb.2.time_lt
    · exact (ih hb.1 hlt).trans hb.2.time_lt

theorem Proper.height_le_time (hb : b.Proper) :
    b.height ≤ b.root.height + b.ref.timestamp.slot.toNat := by
  induction b with
  | genesis ref => exact Nat.le_add_right _ _
  | child parent ref claim ih =>
    have hp := ih hb.1
    have ht := BlockTimestamp.lt_iff.mp hb.2.time_lt
    change parent.height + 1 ≤ parent.root.height + ref.timestamp.slot.toNat
    omega

structure Tracks (b : Block) (c : FinalityCore) : Prop where
  shape : CoreShape b.height c
  claim_eq : c.latestQcClaim = b.claim
  num_eq : b.ref.blockNum = c.currentBlockNum
  root_le_final : b.root.height ≤ c.lastFinalBlockNum
  refs_from : ∀ i r, c.refs[i]? = some r →
    ∃ a, a < b ∧ a.ref = r ∧ a.height = c.lastFinalBlockNum + i
  links_from : ∀ i l, c.links[i]? = some l →
    ∃ a, a ≤ b ∧ a.height = c.frontLink.sourceBlockNum + i ∧ a.claim.blockNum = l.targetBlockNum
  genesis_core : c.refs = [] ↔ b.root = b
  genesis_time : c.refs = [] → c.genesisTimestamp = b.ref.timestamp

theorem tracks_genesis (ref : BlockRef) :
    Tracks (genesis ref) (createCoreForGenesisBlock ref.blockId ref.timestamp) := by
  refine ⟨genesis_coreShape _ _, rfl, rfl, le_rfl, ?_, ?_,
    by simp [createCoreForGenesisBlock, root], fun _ => rfl⟩
  · intro i r hr
    simp [createCoreForGenesisBlock] at hr
  · intro i l hl
    cases i with
    | zero =>
      cases hl
      exact ⟨genesis ref, le_rfl, rfl, rfl⟩
    | succ i => simp [createCoreForGenesisBlock] at hl

section TracksChild
variable {c : FinalityCore}

theorem Tracks.height_lt (ht : Tracks parent c) (hp : parent.Proper)
    (hge : c.latestQcClaim.le claim) (hle : claim.blockNum ≤ c.currentBlockNum) :
    parent.height < 2 ^ 32 := by
  refine ht.shape.height_lt ?_ hge hle
  have htime := hp.height_le_time
  have hslot := parent.ref.timestamp.slot.toNat_lt
  have hroot := ht.root_le_final
  omega

theorem Tracks.child (ht : Tracks parent c) (hp : parent.Proper)
    (hc : ProperChild parent ref claim) (hge : c.latestQcClaim.le claim)
    (hle : claim.blockNum ≤ c.currentBlockNum) :
    ∃ l, c.links[l.sourceBlockNum - c.frontLink.sourceBlockNum]? = some l ∧
      (claim.isStrongQc = true → l.sourceBlockNum = claim.blockNum) ∧
      (claim.isStrongQc = false → l = c.frontLink) ∧
      c.next parent.ref claim = some (c.advance l parent.ref claim) ∧
      Tracks (child parent ref claim) (c.advance l parent.ref claim) := by
  obtain ⟨l, -, hl, hstrong, hweak, -, -, hmono, -, hnext, hshape⟩ :=
    ht.shape.next (ht.height_lt hp hge hle) ht.num_eq hge hle
  have hfinal : (c.advance l parent.ref claim).lastFinalBlockNum = l.targetBlockNum :=
    advance_lastFinalBlockNum hl
  have hfront : (c.advance l parent.ref claim).frontLink = l := advance_frontLink hl
  have hroot : parent.root.height ≤ c.lastFinalBlockNum := ht.root_le_final
  refine ⟨l, hl, hstrong, hweak, hnext, hshape, advance_latestQcClaim, ?_, ?_, ?_, ?_, ?_, ?_⟩
  · rw [advance_currentBlockNum, ← ht.num_eq]
    exact hc.num_eq
  · rw [hfinal]
    exact hroot.trans hmono
  · intro i r hr
    have hlen := hshape.refs_length
    rw [hfinal] at hlen ⊢
    simp only [advance, length_append, length_drop, length_singleton] at hlen
    rcases getElem?_drop_append_one hr with hr | ⟨hi, rfl⟩
    · obtain ⟨a, ha, hra, hh⟩ := ht.refs_from _ _ hr
      exact ⟨a, ha.trans parent_lt, hra, by omega⟩
    · exact ⟨parent, parent_lt, rfl, by omega⟩
  · intro i k hk
    have hlen := hshape.links_length
    have hplen := ht.shape.links_length
    rw [hfront] at hlen ⊢
    simp only [advance, length_append, length_drop, length_singleton] at hlen
    rcases getElem?_drop_append_one hk with hk | ⟨hi, rfl⟩
    · obtain ⟨a, ha, hh, ha'⟩ := ht.links_from _ _ hk
      exact ⟨a, ha.trans parent_lt.le, by omega, ha'⟩
    · exact ⟨.child parent ref claim, le_rfl, by rw [height]; omega, rfl⟩
  · have hne : parent.root ≠ .child parent ref claim :=
      ((root_le parent).trans_lt parent_lt).ne
    simp [advance, root, hne]
  · simp [advance]

end TracksChild

theorem Proper.tracks (hb : b.Proper) : ∃ c, b.core = some c ∧ Tracks b c := by
  induction b with
  | genesis ref => exact ⟨_, rfl, tracks_genesis ref⟩
  | child parent ref claim ih =>
    obtain ⟨c, hcore, ht⟩ := ih hb.1
    obtain ⟨c', hcore', hge, hle⟩ := hb.2.claim_allowed
    cases hcore.symm.trans hcore'
    obtain ⟨l, -, -, -, hnext, htracks⟩ := ht.child hb.1 hb.2 hge hle
    exact ⟨_, by rw [core, hcore, bind_some, hnext], htracks⟩

theorem Proper.num_eq (hb : b.Proper) :
    b.ref.blockNum = b.height % 2 ^ 32 ∧ b.height ≤ 2 ^ 32 ∧
      (b.height = 2 ^ 32 → 0 < b.root.height) := by
  obtain ⟨c, -, ht⟩ := hb.tracks
  have htime := hb.height_le_time
  have hslot := b.ref.timestamp.slot.toNat_lt
  exact ⟨ht.num_eq.trans ht.shape.current_eq, ht.shape.height_le, by omega⟩

theorem Proper.eq_of_num (hc : c.Proper) (ha : a ≤ c) (hb : b ≤ c)
    (h : a.ref.blockNum = b.ref.blockNum) : a = b := by
  obtain ⟨hna, hla, hwa⟩ := (hc.of_le ha).num_eq
  obtain ⟨hnb, hlb, hwb⟩ := (hc.of_le hb).num_eq
  have hra := height_mono (root_le a)
  have hrb := height_mono (root_le b)
  rw [root_eq_of_le ha] at hra hwa
  rw [root_eq_of_le hb] at hrb hwb
  refine eq_of_height ha hb ?_
  omega

def just (b : Block) : Block := (b.atHeight b.claim.blockNum).getD b

theorem Proper.just_spec (hb : b.Proper) : b.just ≤ b ∧ b.just.height = b.claim.blockNum := by
  obtain ⟨c, -, ht⟩ := hb.tracks
  have hhi := ht.shape.claim_le_height
  have hlo := ht.root_le_final.trans ht.shape.final_le_claim
  rw [ht.claim_eq] at hhi hlo
  obtain ⟨a, ha⟩ := exists_atHeight hlo hhi
  rw [just, ha]
  exact atHeight_spec ha

theorem Proper.just_lt (hb : b.Proper) (hroot : b.root ≠ b) : b.just < b := by
  refine lt_of_le_of_ne hb.just_spec.1 fun heq => ?_
  have hh := hb.just_spec.2
  rw [heq] at hh
  cases b with
  | genesis ref => exact hroot rfl
  | child parent ref claim =>
    obtain ⟨c, hcore, ht⟩ := hb.1.tracks
    obtain ⟨c', hcore', -, hle⟩ := hb.2.claim_allowed
    cases hcore.symm.trans hcore'
    have hcur := ht.shape.current_eq
    simp only [height, Block.claim] at hh
    omega

theorem Proper.claim_mono (hb : b.Proper) (h : a ≤ b) : a.claim.blockNum ≤ b.claim.blockNum := by
  induction b with
  | genesis ref => rw [le_genesis_iff.mp h]
  | child parent ref claim ih =>
    rcases le_child_iff.mp h with rfl | h
    · exact le_rfl
    · obtain ⟨c, hcore, ht⟩ := hb.1.tracks
      obtain ⟨c', hcore', hge, -⟩ := hb.2.claim_allowed
      cases hcore.symm.trans hcore'
      rw [ht.claim_eq] at hge
      exact (ih hb.1 h).trans (QcClaim.blockNum_le hge)

theorem Proper.just_mono (hb : b.Proper) (h : a ≤ b) : a.just ≤ b.just := by
  have ha := (hb.of_le h).just_spec
  have hb' := hb.just_spec
  refine le_of_height_le (ha.1.trans h) hb'.1 ?_
  rw [ha.2, hb'.2]
  exact hb.claim_mono h

namespace Tracks
variable {c : FinalityCore}

section
variable (ht : Tracks b c)
include ht

theorem of_getBlockReference {n : ℕ} {r : BlockRef} (hf : c.lastFinalBlockNum ≤ n) (hn : n < 2 ^ 32)
    (h : c.getBlockReference n = some r) : ∃ a, a < b ∧ a.ref = r ∧ a.height = n := by
  rw [FinalityCore.getBlockReference, wrapSub_of_le hf hn] at h
  obtain ⟨a, ha, hr, hh⟩ := ht.refs_from _ _ h
  exact ⟨a, ha, hr, by omega⟩

theorem getBlockReference {a : Block} (ha : a < b) (hf : c.lastFinalBlockNum ≤ a.height) :
    c.getBlockReference a.height = some a.ref := by
  have hlt : a.height < b.height :=
    lt_of_le_of_ne (height_mono ha.le) fun he => ha.ne (eq_of_le_of_height ha.le he)
  have hh := ht.shape.height_le
  obtain ⟨r, hr, -⟩ := ht.shape.getBlockReference hf hlt
  obtain ⟨a', ha', hr', hh'⟩ := ht.of_getBlockReference hf (by omega) hr
  rw [hr, ← hr', eq_of_height ha'.le ha.le hh']

theorem just_getBlockReference (hb : b.Proper) (hroot : b.root ≠ b) :
    c.getBlockReference c.latestQcClaim.blockNum = some b.just.ref := by
  have hh := hb.just_spec.2
  rw [← ht.claim_eq] at hh
  rw [← hh]
  refine ht.getBlockReference (hb.just_lt hroot) ?_
  rw [hh]
  exact ht.shape.final_le_claim

theorem just_eq_self (hb : b.Proper) (hroot : b.root = b) : b.just = b := by
  refine eq_of_le_of_height hb.just_spec.1 ?_
  have hlen := ht.shape.refs_length
  have hlo := ht.shape.final_le_claim
  have hhi := ht.shape.claim_le_height
  rw [ht.genesis_core.mpr hroot, length_nil] at hlen
  rw [hb.just_spec.2, ← ht.claim_eq]
  omega

theorem latestQcBlockTimestamp (hb : b.Proper) :
    c.latestQcBlockTimestamp = some b.just.ref.timestamp := by
  unfold FinalityCore.latestQcBlockTimestamp isGenesisCore
  by_cases hroot : b.root = b
  · have hnil := ht.genesis_core.mpr hroot
    rw [if_pos (by simp [hnil]), ht.genesis_time hnil, ht.just_eq_self hb hroot]
  · have hne : c.refs ≠ [] := fun hnil => hroot (ht.genesis_core.mp hnil)
    have href : c.getBlockReference c.backLink.targetBlockNum = some b.just.ref :=
      ht.just_getBlockReference hb hroot
    rw [if_neg (by simp [hne]), href, map_some]

theorem extendsBlock {id : BlockId} (h : c.extendsBlock id = some true) :
    ∃ a, a < b ∧ a.ref.blockId = id := by
  unfold FinalityCore.extendsBlock at h
  split_ifs at h with hrange
  · obtain ⟨r, hr, hid⟩ := map_eq_some_iff.mp h
    obtain ⟨a, ha, har, -⟩ := ht.of_getBlockReference hrange.1 (numFromId_lt id) hr
    exact ⟨a, ha, by simpa [har] using hid⟩
  · cases h

theorem extendsBlock_isSome (id : BlockId) : (c.extendsBlock id).isSome := by
  unfold FinalityCore.extendsBlock
  split_ifs with hrange
  · have hcur := ht.shape.current_eq
    obtain ⟨r, hr, -⟩ := ht.shape.getBlockReference hrange.1 (by omega)
    rw [hr]
    rfl
  · rfl

end

end Tracks
end Block
end FlonCore
