import FlonCore.Blocks
import FlonCore.Finalizer
import FlonCore.QcSig

/-!
# Safety of the Savanna protocol

One finalizer policy, one tree of proper blocks. Blocks join the tree one by
one, a QC claim that is new on a branch being backed by votes cast before, and
are presented to the finalizers in any order; each finalizer runs `decideVote`
on its own safety information. All finalizers start with their last vote and
lock on one common block. Distinct blocks have distinct ids.

`decideVote` refines the voting rule of the two-chain library, and the last
final block of every core is final in the library's sense; agreement follows.
-/

namespace FlonCore
open Library TwoChain Function
open Block

abbrev ProperBlock := {b : Block // b.Proper}

def savannaTree : BlockTree ProperBlock BlockTimestamp where
  time b := b.1.ref.timestamp
  just b := ⟨b.1.just, b.2.of_le b.2.just_spec.1⟩
  time_lt {_ b} h := b.2.time_lt h
  branch ha hb := branch ha hb
  just_le b := b.2.just_spec.1
  just_mono {_ b} h := b.2.just_mono h

theorem savannaTree_just_height (b : ProperBlock) :
    (savannaTree.just b).1.height = b.1.claim.blockNum := b.2.just_spec.2

variable {fsi fsi' : FinalizerSafetyInformation} {m : Memory ProperBlock BlockTimestamp}
  {b : ProperBlock} {c : FinalityCore} {res : VoteResult}

def Represents (fsi : FinalizerSafetyInformation) (m : Memory ProperBlock BlockTimestamp) : Prop :=
  fsi = ⟨m.lastVote.1.ref, m.lock.1.ref, m.otherBranch⟩

def VoteDecision.ofStrong (strong : Bool) : VoteDecision :=
  if strong then .strongVote else .weakVote

theorem lt_of_extendsBlock {x : ProperBlock} (ht : b.1.Tracks c)
    (hx : ∀ a ≤ b, a.1.ref.blockId = x.1.ref.blockId → a = x)
    (h : c.extendsBlock x.1.ref.blockId = some true) : x < b := by
  obtain ⟨a, ha, hid⟩ := ht.extendsBlock h
  rw [← hx ⟨a, b.2.of_le ha.le⟩ ha.le hid]
  exact ha

theorem later_of_monotonyCheck {lock : BlockRef} {otherBranch : BlockTimestamp}
    {last : ProperBlock}
    (h : FinalizerSafetyInformation.monotonyCheck ⟨last.1.ref, lock, otherBranch⟩
      ⟨b.1.ref, c⟩ = true) : last.1.ref.timestamp < b.1.ref.timestamp := by
  have h' : (last.1.ref.empty || decide (last.1.ref.timestamp < b.1.ref.timestamp)) = true := h
  rwa [last.2.nonempty, Bool.false_or, decide_eq_true_eq] at h'

theorem root_ne_of_later {last : ProperBlock} (hroot : b.1.root ≤ last.1)
    (hlater : last.1.ref.timestamp < b.1.ref.timestamp) : b.1.root ≠ b.1 := by
  intro he
  rw [he] at hroot
  have hle : savannaTree.time b ≤ savannaTree.time last := savannaTree.time_le hroot
  exact absurd hlater hle.not_gt

section
variable (hrep : Represents fsi m) (hcore : b.1.core = some c) (hroot : b.1.root ≤ m.lastVote.1)
include hrep hcore hroot

theorem decideVote_refines
    (hlast : ∀ a ≤ b, a.1.ref.blockId = m.lastVote.1.ref.blockId → a = m.lastVote)
    (hlock : ∀ a ≤ b, a.1.ref.blockId = m.lock.1.ref.blockId → a = m.lock)
    (h : decideVote fsi ⟨b.1.ref, c⟩ = some (res, fsi')) :
    (res.decision = .noVote ∧ fsi' = fsi) ∨
    ∃ strong m', res.decision = .ofStrong strong ∧ Represents fsi' m' ∧
      Votes savannaTree m b strong m' ∧ (m'.lock = m.lock ∨ m'.lock = savannaTree.just b) := by
  subst hrep
  obtain ⟨c', hcore', ht⟩ := b.2.tracks
  cases hcore.symm.trans hcore'
  rcases decideVote_cases h with hno | ⟨qcTime, otherBranch, hmono, -, hq, hclear, hchoose, hafter⟩
  · exact .inl hno
  right
  rw [ht.latestQcBlockTimestamp b.2, Option.some.injEq] at hq
  subst hq
  have hlater : savannaTree.time m.lastVote < savannaTree.time b := later_of_monotonyCheck hmono
  have hnotroot := root_ne_of_later hroot hlater
  have hjust : savannaTree.just b < b := b.2.just_lt hnotroot
  have hunlocked := hclear.imp_right (lt_of_extendsBlock ht hlock)
  rcases chooseVote_eq_some hchoose with ⟨hdec, hrule⟩ | ⟨hdec, hrule⟩
  · rw [hdec] at hafter
    obtain ⟨hlast', hother', hlock'⟩ := afterVote_strong hafter
    by_cases hlt : m.lock.1.ref.timestamp < b.1.just.ref.timestamp
    · rw [if_pos hlt, ht.just_getBlockReference b.2 hnotroot, Option.some.injEq] at hlock'
      refine ⟨true, ⟨b, savannaTree.just b, .zero⟩, hdec, ?_, ?_, .inr rfl⟩
      · cases fsi'
        simp_all [Represents, savannaTree]
      · exact ⟨hjust, hlater, hunlocked, rfl,
          fun _ => hrule.imp_right fun hr => ⟨(lt_of_extendsBlock ht hlast hr.1).le, hr.2⟩,
          fun _ _ => rfl, fun _ hn => absurd hlt hn, nofun⟩
    · rw [if_neg hlt] at hlock'
      refine ⟨true, ⟨b, m.lock, .zero⟩, hdec, ?_, ?_, .inl rfl⟩
      · cases fsi'
        simp_all [Represents]
      · exact ⟨hjust, hlater, hunlocked, rfl,
          fun _ => hrule.imp_right fun hr => ⟨(lt_of_extendsBlock ht hlast hr.1).le, hr.2⟩,
          fun _ hl => absurd hl hlt, fun _ _ => rfl, nofun⟩
  · rw [hdec] at hafter
    refine ⟨false, ⟨b, m.lock, otherBranch⟩, hdec, afterVote_weak hafter, ?_, .inl rfl⟩
    exact ⟨hjust, hlater, hunlocked, rfl, nofun, nofun,
      nofun, fun _ => ⟨rfl, hrule.imp_left fun hr =>
        ⟨(lt_of_extendsBlock ht hlast hr.1).le, hr.2⟩⟩⟩

theorem decideVote_isSome : (decideVote fsi ⟨b.1.ref, c⟩).isSome := by
  subst hrep
  obtain ⟨c', hcore', ht⟩ := b.2.tracks
  cases hcore.symm.trans hcore'
  refine decideVote_isSome_of_lookups ?_ ht.extendsBlock_isSome fun hmono => ?_
  · rw [ht.latestQcBlockTimestamp b.2]
    rfl
  · rw [ht.just_getBlockReference b.2 (root_ne_of_later hroot (later_of_monotonyCheck hmono))]
    rfl

end

structure Network (policy : FinalizerPolicy) where
  blocks : Set ProperBlock
  fsi : Fin policy.finalizers.length → FinalizerSafetyInformation
  votes : Fin policy.finalizers.length → List (Ballot ProperBlock)

namespace Network
variable {policy : FinalizerPolicy}

def start (policy : FinalizerPolicy) (anchor : ProperBlock) : Network policy :=
  ⟨Set.Iic anchor, fun _ => ⟨anchor.1.ref, anchor.1.ref, .zero⟩, fun _ => []⟩

def Backed (votes : Fin policy.finalizers.length → List (Ballot ProperBlock)) (b : ProperBlock)
    (strong : Bool) : Prop :=
  ∃ qc : VoteBits, qc.isStrong = strong ∧ qc.verifyVoteFormat policy = .ok () ∧
    qc.verifyQuorum policy = .ok () ∧
    ∀ i : Fin policy.finalizers.length, (qc.strongAt i = true → ⟨b, true⟩ ∈ votes i) ∧
      (qc.weakAt i = true → ⟨b, false⟩ ∈ votes i)

def record (decision : VoteDecision) (b : ProperBlock) (votes : List (Ballot ProperBlock)) :
    List (Ballot ProperBlock) :=
  match decision with
  | .noVote => votes
  | .strongVote => ⟨b, true⟩ :: votes
  | .weakVote => ⟨b, false⟩ :: votes

inductive Step : Network policy → Network policy → Prop
  | propose {s : Network policy} {b parent : ProperBlock} {ref : BlockRef} {claim : QcClaim}
      (hb : b.1 = .child parent.1 ref claim) (hparent : parent ∈ s.blocks)
      (hid : ∀ x ∈ s.blocks, x.1.ref.blockId ≠ ref.blockId)
      (hclaim : claim = parent.1.claim ∨ ∃ x, x ≤ parent ∧
        x.1.ref.blockNum = claim.blockNum ∧ Backed s.votes x claim.isStrongQc) :
      Step s { s with blocks := insert b s.blocks }
  | present {s : Network policy} {b : ProperBlock} {i : Fin policy.finalizers.length}
      {c : FinalityCore} {res : VoteResult} {fsi' : FinalizerSafetyInformation}
      (hb : b ∈ s.blocks) (hcore : b.1.core = some c)
      (hvote : decideVote (s.fsi i) ⟨b.1.ref, c⟩ = some (res, fsi')) : Step s { s with
        fsi := update s.fsi i fsi'
        votes := update s.votes i (record res.decision b (s.votes i)) }

variable (anchor : ProperBlock)

def Reachable (s : Network policy) : Prop :=
  Relation.ReflTransGen Step (start policy anchor) s

def IsLastFinal (b f : ProperBlock) : Prop :=
  f ≤ b ∧ ∃ c, b.1.core = some c ∧ f.1.ref.blockNum = c.lastFinalBlockNum

variable {votes : Fin policy.finalizers.length → List (Ballot ProperBlock)} {strong : Bool}

theorem Backed.certified (hp : policy.Valid) (h : Backed votes b strong) :
    Certified policy.weightAt policy.threshold.toNat votes b := by
  obtain ⟨qc, -, hformat, hquorum, hvotes⟩ := h
  rw [VoteBits.verifyQuorum_eq_ok hp hformat] at hquorum
  refine hquorum.trans (weightOf_mono _ ?_)
  rintro i (hs | ⟨-, hw⟩)
  · exact ⟨_, (hvotes i).1 hs, rfl⟩
  · exact ⟨_, (hvotes i).2 hw, rfl⟩

theorem Backed.strongCertified (hp : policy.Valid) (h : Backed votes b true) :
    StrongCertified policy.weightAt policy.threshold.toNat votes b := by
  obtain ⟨qc, hstrong, hformat, hquorum, hvotes⟩ := h
  rw [VoteBits.verifyQuorum_eq_ok hp hformat] at hquorum
  refine hquorum.trans (weightOf_mono _ ?_)
  rintro i (hs | ⟨hweak, -⟩)
  · exact ⟨_, (hvotes i).1 hs, rfl, rfl⟩
  · simp [VoteBits.isStrong, VoteBits.isWeak] at hstrong hweak
    rw [hstrong] at hweak
    cases hweak

structure Inv (s : Network policy) : Prop where
  closed : ∀ b ∈ s.blocks, ∀ a ≤ b, a ∈ s.blocks
  same_root : ∀ b ∈ s.blocks, b.1.root = anchor.1.root
  ids : ∀ a ∈ s.blocks, ∀ b ∈ s.blocks, a.1.ref.blockId = b.1.ref.blockId → a = b
  justified : ∀ b ∈ s.blocks, Justified savannaTree anchor
    (Certified policy.weightAt policy.threshold.toNat s.votes) b
  final : ∀ b ∈ s.blocks, ∀ c, b.1.core = some c → ∀ f ≤ b,
    f.1.height = c.lastFinalBlockNum →
      Final savannaTree policy.weightAt policy.threshold.toNat s.votes anchor f
  remembers : ∀ i, ∃ m, Represents (s.fsi i) m ∧ m.lastVote ∈ s.blocks ∧ m.lock ∈ s.blocks ∧
    Remembers savannaTree anchor (Certified policy.weightAt policy.threshold.toNat s.votes) m
      (s.votes i)

variable {s : Network policy}

theorem Inv.eq_of_id {anchor b x : ProperBlock} (h : Inv anchor s)
    (hb : b ∈ s.blocks) (hx : x ∈ s.blocks) : ∀ a ≤ b, a.1.ref.blockId = x.1.ref.blockId → a = x :=
  fun a ha => h.ids a (h.closed b hb a ha) x hx

theorem Inv.root_le_of_mem {anchor b x : ProperBlock} (h : Inv anchor s)
    (hb : b ∈ s.blocks) (hx : x ∈ s.blocks) : b.1.root ≤ x.1 := by
  rw [h.same_root b hb, ← h.same_root x hx]
  exact root_le x.1

theorem inv_start : Inv anchor (start policy anchor) where
  closed _ hb _ ha := ha.trans hb
  same_root _ hb := root_eq_of_le hb
  ids _ ha _ hb h := Subtype.ext (anchor.2.eq_of_num ha hb (congrArg numFromId h))
  justified b hb := .inl ((savannaTree.just_le b).trans hb)
  final _ hb _ _ _ hf _ := .inl (hf.trans hb)
  remembers _ := ⟨⟨anchor, anchor, .zero⟩, rfl, le_refl anchor, le_refl anchor, .start _⟩

variable {anchor parent : ProperBlock} {ref : BlockRef} {claim : QcClaim}

theorem just_eq_of_claim (hb : b.1 = .child parent.1 ref claim) {x : ProperBlock}
    (hx : x ≤ parent) (hnum : x.1.ref.blockNum = claim.blockNum) : savannaTree.just b = x := by
  have hproper : (child parent.1 ref claim).Proper := hb ▸ b.2
  obtain ⟨c, hcore, ht⟩ := parent.2.tracks
  obtain ⟨c', hcore', hge, hle⟩ := hproper.2.claim_allowed
  cases hcore.symm.trans hcore'
  have hlt := ht.height_lt parent.2 hge hle
  have hxh := height_mono hx
  have hxnum := x.2.num_eq.1
  rw [Nat.mod_eq_of_lt (by omega)] at hxnum
  have hpb : parent.1 ≤ b.1 := hb ▸ parent_lt.le
  refine Subtype.ext (eq_of_height b.2.just_spec.1 (le_trans hx hpb) ?_)
  rw [← hxnum, hnum, savannaTree_just_height, hb]
  rfl

section
variable (hp : policy.Valid) (h : Inv anchor s) (hb : b.1 = .child parent.1 ref claim)
  (hparent : parent ∈ s.blocks)
  (hclaim : claim = parent.1.claim ∨ ∃ x, x ≤ parent ∧ x.1.ref.blockNum = claim.blockNum ∧
    Backed s.votes x claim.isStrongQc)
include hp h hb hparent hclaim

theorem justified_propose :
    Justified savannaTree anchor (Certified policy.weightAt policy.threshold.toNat s.votes) b := by
  rcases hclaim with hsame | ⟨x, hx, hnum, hback⟩
  · have hle : parent.1 ≤ b.1 := hb ▸ parent_lt.le
    have hjust : savannaTree.just b = savannaTree.just parent := by
      refine Subtype.ext (eq_of_height b.2.just_spec.1 (parent.2.just_spec.1.trans hle) ?_)
      rw [savannaTree_just_height, savannaTree_just_height, ← hsame, hb]
      rfl
    unfold Justified
    rw [hjust]
    exact h.justified parent hparent
  · refine .inr ?_
    rw [just_eq_of_claim hb hx hnum]
    exact hback.certified hp

theorem final_propose (hcore : b.1.core = some c) {f : ProperBlock} (hf : f ≤ b)
    (hfinal : f.1.height = c.lastFinalBlockNum) :
    Final savannaTree policy.weightAt policy.threshold.toNat s.votes anchor f := by
  have hproper : (child parent.1 ref claim).Proper := hb ▸ b.2
  obtain ⟨cp, hcp, ht⟩ := parent.2.tracks
  obtain ⟨c', hcp', hge, hle⟩ := hproper.2.claim_allowed
  cases hcp.symm.trans hcp'
  obtain ⟨l, hl, hstrong, hweak, hnext, htracks⟩ := ht.child parent.2 hproper.2 hge hle
  have hc : c = cp.advance l parent.1.ref claim := by
    rw [hb, core, hcp, Option.bind_some, hnext] at hcore
    exact (Option.some.inj hcore).symm
  subst hc
  rw [FinalityCore.advance_lastFinalBlockNum hl] at hfinal
  have hlt := ht.height_lt parent.2 hge hle
  have hcur := ht.shape.current_eq
  have hfp : f.1 ≤ parent.1 := by
    have hf' : f.1 ≤ child parent.1 ref claim := hb ▸ hf
    have hfc := htracks.shape.final_le_claim
    rw [FinalityCore.advance_lastFinalBlockNum hl, FinalityCore.advance_latestQcClaim] at hfc
    refine (le_child_iff.mp hf').resolve_left fun he => ?_
    rw [he, height] at hfinal
    omega
  by_cases hfront : l = cp.frontLink
  · exact h.final parent hparent cp hcp f hfp (by rw [hfinal, hfront]; rfl)
  · have hs : claim.isStrongQc = true := by
      by_contra hs
      exact hfront (hweak (by simpa using hs))
    rcases hclaim with hsame | ⟨x, hx, hnum, hback⟩
    · refine absurd ?_ hfront
      have hsource := ht.shape.strong_claim (by rw [ht.claim_eq, ← hsame]; exact hs)
      rw [ht.claim_eq, ← hsame, ← hstrong hs] at hsource
      rw [hsource, Nat.sub_self, ht.shape.links_front] at hl
      exact (Option.some.inj hl).symm
    · rw [hs] at hback
      refine .inr ⟨x, hback.strongCertified hp, ?_⟩
      obtain ⟨a, ha, hheight, htarget⟩ := ht.links_from _ _ hl
      have hfl := ht.shape.front_le_claim.trans (QcClaim.blockNum_le hge)
      have hxh := height_mono hx
      have hxnum := x.2.num_eq.1
      have hstrong' := hstrong hs
      obtain rfl : a = x.1 := eq_of_height ha hx (by omega)
      refine Subtype.ext (eq_of_height hfp (x.2.just_spec.1.trans hx) ?_)
      rw [hfinal, ← htarget, savannaTree_just_height]

end

variable {i : Fin policy.finalizers.length}

theorem mem_record {decision : VoteDecision} {votes : List (Ballot ProperBlock)}
    {v : Ballot ProperBlock} (hv : v ∈ votes) : v ∈ record decision b votes := by
  cases decision with
  | noVote => exact hv
  | strongVote => exact List.mem_cons_of_mem _ hv
  | weakVote => exact List.mem_cons_of_mem _ hv

theorem record_ofStrong (strong : Bool) (votes : List (Ballot ProperBlock)) :
    record (.ofStrong strong) b votes = ⟨b, strong⟩ :: votes := by
  cases strong <;> rfl

theorem mem_votes_update (s : Network policy) (i : Fin policy.finalizers.length)
    (b : ProperBlock) (decision : VoteDecision) (j : Fin policy.finalizers.length)
    (v : Ballot ProperBlock) (hv : v ∈ s.votes j) :
    v ∈ update s.votes i (record decision b (s.votes i)) j := by
  by_cases hij : j = i
  · subst hij
    rw [update_self]
    exact mem_record hv
  · rwa [update_of_ne hij]

theorem inv_step (hp : policy.Valid) {s s' : Network policy}
    (hstep : Step s s') (h : Inv anchor s) : Inv anchor s' := by
  cases hstep with
  | @propose b parent ref claim hb hparent hid hclaim =>
    have hle : ∀ a ≤ b, a = b ∨ a ≤ parent := by
      intro a ha
      have ha' : a.1 ≤ child parent.1 ref claim := hb ▸ ha
      refine (le_child_iff.mp ha').imp_left fun he => Subtype.ext (he.trans hb.symm)
    have hjustified := justified_propose hp h hb hparent hclaim
    have hfinal : ∀ c, b.1.core = some c → ∀ f ≤ b, f.1.height = c.lastFinalBlockNum →
        Final savannaTree policy.weightAt policy.threshold.toNat s.votes anchor f :=
      fun c hc f hf => final_propose hp h hb hparent hclaim hc hf
    refine ⟨?_, ?_, ?_, ?_, ?_, ?_⟩
    · rintro x (rfl | hx) a ha
      · rcases hle a ha with rfl | ha
        · exact .inl rfl
        · exact .inr (h.closed parent hparent a ha)
      · exact .inr (h.closed x hx a ha)
    · rintro x (rfl | hx)
      · rw [hb]
        exact h.same_root parent hparent
      · exact h.same_root x hx
    · have href : b.1.ref = ref := by rw [hb]; rfl
      rintro x (rfl | hx) y (rfl | hy) hxy
      · rfl
      · exact absurd (by rw [← hxy, href]) (hid y hy)
      · exact absurd (by rw [hxy, href]) (hid x hx)
      · exact h.ids x hx y hy hxy
    · rintro x (rfl | hx)
      · exact hjustified
      · exact h.justified x hx
    · rintro x (rfl | hx)
      · exact hfinal
      · exact h.final x hx
    · intro j
      obtain ⟨m, hrep, hlast, hlock, hrem⟩ := h.remembers j
      exact ⟨m, hrep, .inr hlast, .inr hlock, hrem⟩
  | @present b i c res fsi' hb hcore hvote =>
    obtain ⟨m, hrep, hlast, hlock, hrem⟩ := h.remembers i
    have hsub := mem_votes_update s i b res.decision
    have hcert : ∀ x, Certified policy.weightAt policy.threshold.toNat s.votes x →
        Certified policy.weightAt policy.threshold.toNat
          (update s.votes i (record res.decision b (s.votes i))) x :=
      fun x hx => hx.mono hsub
    refine ⟨h.closed, h.same_root, h.ids, fun x hx => (h.justified x hx).mono hcert,
      fun x hx c' hc f hf he => (h.final x hx c' hc f hf he).mono hsub, ?_⟩
    intro j
    by_cases hij : j = i
    · subst hij
      simp only [update_self]
      rcases decideVote_refines hrep hcore (h.root_le_of_mem hb hlast) (h.eq_of_id hb hlast)
        (h.eq_of_id hb hlock) hvote with ⟨hno, rfl⟩ | ⟨strong, m', hdec, hrep', hv, hlock'⟩
      · rw [hno]
        refine ⟨m, hrep, hlast, hlock, ?_⟩
        have hrem' := hrem.mono hcert
        rwa [hno] at hrem'
      · have hvoted := (hrem.mono hcert).vote hv ((h.justified b hb).mono hcert)
        rw [hdec, record_ofStrong] at hvoted ⊢
        refine ⟨m', hrep', hv.lastVote_eq ▸ hb, ?_, hvoted⟩
        rcases hlock' with heq | heq
        · exact heq ▸ hlock
        · exact heq ▸ h.closed b hb _ (savannaTree.just_le b)
    · obtain ⟨m, hrep, hlast, hlock, hrem⟩ := h.remembers j
      simp only [update_of_ne hij]
      exact ⟨m, hrep, hlast, hlock, hrem.mono hcert⟩

theorem inv_reachable (hp : policy.Valid) (h : Reachable anchor s) : Inv anchor s := by
  induction h with
  | refl => exact inv_start anchor
  | tail _ hstep ih => exact inv_step hp hstep ih

theorem Inv.honest (h : Inv anchor s) (i : Fin policy.finalizers.length) :
    Honest savannaTree anchor (Certified policy.weightAt policy.threshold.toNat s.votes)
      (s.votes i) := by
  obtain ⟨m, -, -, -, hrem⟩ := h.remembers i
  exact hrem.honest

theorem IsLastFinal.height_eq {b f : ProperBlock} (hf : IsLastFinal b f)
    (hcore : b.1.core = some c) : f.1.height = c.lastFinalBlockNum := by
  obtain ⟨hle, c', hcore', hnum⟩ := hf
  obtain ⟨c'', hcore'', ht⟩ := b.2.tracks
  cases hcore.symm.trans hcore'
  cases hcore.symm.trans hcore''
  obtain ⟨hmod, hmax, hwrap⟩ := f.2.num_eq
  have hroot := ht.root_le_final
  rw [← root_eq_of_le hle] at hroot
  omega

theorem exists_isLastFinal (b : ProperBlock) : ∃ f, IsLastFinal b f := by
  obtain ⟨c, hcore, ht⟩ := b.2.tracks
  have hff := ht.shape.final_le_front
  have hfl := ht.shape.front_lt
  obtain ⟨f, hf⟩ := exists_atHeight ht.root_le_final (hff.trans ht.shape.front_le_height)
  obtain ⟨hle, hheight⟩ := atHeight_spec hf
  have hproper := b.2.of_le hle
  refine ⟨⟨f, hproper⟩, hle, c, hcore, ?_⟩
  rw [hproper.num_eq.1, hheight, Nat.mod_eq_of_lt (by omega)]

/-- Every block of a reachable tree has a last final block, and no two of them lie on
conflicting branches; every presentation of a block to a finalizer is defined. -/
theorem lastFinal_agree (hpolicy : policy.Accepted) {anchor : ProperBlock}
    {s : Network policy} (h : Reachable anchor s) :
    (∀ b ∈ s.blocks, ∃ f, IsLastFinal b f) ∧
    (∀ b₁ ∈ s.blocks, ∀ b₂ ∈ s.blocks, ∀ f₁ f₂, IsLastFinal b₁ f₁ → IsLastFinal b₂ f₂ →
      f₁ ≤ f₂ ∨ f₂ ≤ f₁) ∧
    (∀ b ∈ s.blocks, ∀ i, ∃ c, b.1.core = some c ∧
      (decideVote (s.fsi i) ⟨b.1.ref, c⟩).isSome) := by
  have hp := hpolicy.valid
  have hinv := inv_reachable hp h
  refine ⟨fun b _ => exists_isLastFinal b, ?_, ?_⟩
  · intro b₁ hb₁ b₂ hb₂ f₁ f₂ hf₁ hf₂
    obtain ⟨c₁, hc₁, -⟩ := b₁.2.tracks
    obtain ⟨c₂, hc₂, -⟩ := b₂.2.tracks
    exact (hinv.final b₁ hb₁ c₁ hc₁ f₁ hf₁.1 (hf₁.height_eq hc₁)).comparable hp.sum_lt hinv.honest
      (hinv.final b₂ hb₂ c₂ hc₂ f₂ hf₂.1 (hf₂.height_eq hc₂))
  · intro b hb i
    obtain ⟨c, hcore, -⟩ := b.2.tracks
    obtain ⟨m, hrep, hlast, -, -⟩ := hinv.remembers i
    exact ⟨c, hcore, decideVote_isSome hrep hcore (hinv.root_le_of_mem hb hlast)⟩

/-- Presents a block to some finalizers, one after the other. -/
def ballots (s : Network policy) (b : ProperBlock)
    (voters : List (Fin policy.finalizers.length)) : Network policy :=
  voters.foldl (fun s i =>
    match b.1.core.bind fun c => decideVote (s.fsi i) ⟨b.1.ref, c⟩ with
    | some (res, fsi') => { s with
        fsi := update s.fsi i fsi'
        votes := update s.votes i (record res.decision b (s.votes i)) }
    | none => s) s

def extend (s : Network policy) (b : ProperBlock)
    (voters : List (Fin policy.finalizers.length)) : Network policy :=
  ballots { s with blocks := insert b s.blocks } b voters

theorem Reachable.ballots (h : Reachable anchor s) (hb : b ∈ s.blocks)
    (voters : List (Fin policy.finalizers.length)) :
    Reachable anchor (s.ballots b voters) ∧ (s.ballots b voters).blocks = s.blocks := by
  induction voters generalizing s with
  | nil => exact ⟨h, rfl⟩
  | cons i voters ih =>
    rw [Network.ballots, List.foldl_cons]
    split
    · rename_i res fsi' hvote
      obtain ⟨c, hcore, hvote⟩ := Option.bind_eq_some_iff.mp hvote
      exact ih (h.tail (.present hb hcore hvote)) hb
    · exact ih h hb

theorem Reachable.extend {blocks : List ProperBlock} (h : Reachable anchor s)
    (hblocks : s.blocks = {x | x ∈ blocks}) (hb : b.1 = .child parent.1 ref claim)
    (hparent : parent ∈ blocks) (hid : ∀ x ∈ blocks, x.1.ref.blockId ≠ ref.blockId)
    (hclaim : claim = parent.1.claim ∨ ∃ x, x ≤ parent ∧
      x.1.ref.blockNum = claim.blockNum ∧ Backed s.votes x claim.isStrongQc)
    (voters : List (Fin policy.finalizers.length)) : Reachable anchor (s.extend b voters) ∧
      (s.extend b voters).blocks = {x | x ∈ b :: blocks} := by
  have hstep : Step s { s with blocks := insert b s.blocks } :=
    .propose hb (hblocks ▸ hparent) (hblocks ▸ hid) hclaim
  obtain ⟨hreach, hsame⟩ := Reachable.ballots (h.tail hstep) (Set.mem_insert b _) voters
  refine ⟨hreach, hsame.trans ?_⟩
  rw [hblocks]
  ext x
  simp

def forkPolicy : FinalizerPolicy := unitPolicy 1 2 [0, 1, 2]

theorem forkPolicy_accepted : forkPolicy.Accepted := unitPolicy_accepted (by decide +kernel)

def forkRoot : ProperBlock := ⟨.genesis ⟨stampId 7 1, ⟨1⟩, 0, 1, 0⟩, by decide +kernel⟩

def leftChild : ProperBlock :=
  ⟨.child forkRoot.1 ⟨stampId 8 2, ⟨2⟩, 0, 1, 0⟩ ⟨1, false⟩, by decide +kernel⟩

def rightChild : ProperBlock :=
  ⟨.child forkRoot.1 ⟨stampId 10 2, ⟨4⟩, 0, 1, 0⟩ ⟨1, false⟩, by decide +kernel⟩

def leftGrandchild : ProperBlock :=
  ⟨.child leftChild.1 ⟨stampId 9 3, ⟨5⟩, 0, 1, 0⟩ ⟨2, true⟩, by decide +kernel⟩

def leftTip : ProperBlock :=
  ⟨.child leftGrandchild.1 ⟨stampId 12 4, ⟨6⟩, 0, 1, 0⟩ ⟨3, true⟩, by decide +kernel⟩

def forkNetwork : Network forkPolicy :=
  ((start forkPolicy forkRoot).extend leftChild ([0, 1] : List (Fin 3))).extend rightChild
    ([2] : List (Fin 3))

def forkEnd : Network forkPolicy :=
  (forkNetwork.extend leftGrandchild ([0, 1, 2] : List (Fin 3))).extend leftTip
    ([0, 2] : List (Fin 3))

theorem forkNetwork_reachable : Reachable forkRoot forkNetwork ∧
    forkNetwork.blocks = {x | x ∈ [rightChild, leftChild, forkRoot]} := by
  have hstart : (start forkPolicy forkRoot).blocks = {x | x ∈ [forkRoot]} := by
    ext x
    rw [Set.mem_ofPred_eq, List.mem_singleton, Subtype.ext_iff]
    exact le_genesis_iff
  obtain ⟨hleft, hblocks⟩ := Reachable.extend .refl hstart (Eq.refl leftChild.1)
    (List.mem_singleton.mpr rfl) (by decide +kernel) (.inl rfl) ([0, 1] : List (Fin 3))
  exact hleft.extend hblocks (Eq.refl rightChild.1) (by decide +kernel) (by decide +kernel)
    (.inl rfl) ([2] : List (Fin 3))

/-- The third finalizer, who voted on the other branch, votes weak on the second block of
this one and strong again on the third. -/
theorem forkEnd_reachable : Reachable forkRoot forkEnd ∧
    forkEnd.blocks = {x | x ∈ [leftTip, leftGrandchild, rightChild, leftChild, forkRoot]} := by
  obtain ⟨hfork, hblocks⟩ := forkNetwork_reachable
  have hchild : Backed forkNetwork.votes leftChild true :=
    ⟨⟨some [true, true, false], none⟩, by decide +kernel⟩
  obtain ⟨hgrand, hblocks'⟩ := hfork.extend hblocks (Eq.refl leftGrandchild.1) (by decide +kernel)
    (by decide +kernel) (.inr ⟨leftChild, le_rfl, by decide +kernel, hchild⟩)
    ([0, 1, 2] : List (Fin 3))
  refine hgrand.extend hblocks' (Eq.refl leftTip.1) (by decide +kernel) (by decide +kernel)
    (.inr ⟨leftGrandchild, le_rfl, by decide +kernel, ?_⟩) ([0, 2] : List (Fin 3))
  exact ⟨⟨some [true, true, false], none⟩, by decide +kernel⟩

theorem isLastFinal_of_core {b f : ProperBlock} (hle : f ≤ b)
    (h : b.1.core.map FinalityCore.lastFinalBlockNum = some f.1.ref.blockNum) :
    IsLastFinal b f := by
  obtain ⟨c, hcore, hnum⟩ := Option.map_eq_some_iff.mp h
  exact ⟨hle, c, hcore, hnum.symm⟩

theorem forkEnd_lastFinal_agree :
    (∀ b ∈ forkEnd.blocks, ∃ f, IsLastFinal b f) ∧
    (∀ b₁ ∈ forkEnd.blocks, ∀ b₂ ∈ forkEnd.blocks, ∀ f₁ f₂, IsLastFinal b₁ f₁ →
      IsLastFinal b₂ f₂ → f₁ ≤ f₂ ∨ f₂ ≤ f₁) ∧
    (∀ b ∈ forkEnd.blocks, ∀ i, ∃ c, b.1.core = some c ∧
      (decideVote (forkEnd.fsi i) ⟨b.1.ref, c⟩).isSome) ∧
    IsLastFinal leftTip leftChild ∧ IsLastFinal rightChild forkRoot := by
  obtain ⟨hexists, hagree, hdefined⟩ := lastFinal_agree forkPolicy_accepted forkEnd_reachable.1
  refine ⟨hexists, hagree, hdefined, ?_, ?_⟩
  · exact isLastFinal_of_core (.inr (.inr (.inl rfl))) (by decide +kernel)
  · exact isLastFinal_of_core (.inr rfl) (by decide +kernel)

/-- At most one block of each time gathers a quorum, and a strong quorum settles the block that
is claimed: what gathers a quorum at a later time extends it. -/
theorem quorums_settle (hpolicy : policy.Accepted) {anchor : ProperBlock} {s : Network policy}
    (h : Reachable anchor s) {b d : ProperBlock} {strong strong' : Bool}
    (hb : Backed s.votes b strong) (hd : Backed s.votes d strong') :
    anchor ≤ d ∧ (b.1.ref.timestamp = d.1.ref.timestamp → b = d) ∧
      (strong = true → (savannaTree.just b).1.ref.timestamp < d.1.ref.timestamp →
        savannaTree.just b ≤ d) := by
  have hp := hpolicy.valid
  have hhonest := (inv_reachable hp h).honest
  have hcert := hd.certified hp
  refine ⟨hcert.anchor_le hp.sum_lt hhonest, fun htime => ?_, fun hstrong hlater => ?_⟩
  · exact (hb.certified hp).eq_of_time hp.sum_lt hhonest hcert htime
  · subst hstrong
    exact (hb.strongCertified hp).just_le hp.sum_lt hhonest hcert hlater

theorem leftTip_settles : Backed forkEnd.votes leftGrandchild true ∧
    Backed forkEnd.votes leftTip true ∧ forkRoot ≤ leftTip ∧
    (leftGrandchild.1.ref.timestamp = leftTip.1.ref.timestamp → leftGrandchild = leftTip) ∧
    savannaTree.just leftGrandchild = leftChild ∧ leftChild ≤ leftTip := by
  have hstrong : Backed forkEnd.votes leftGrandchild true :=
    ⟨⟨some [true, true, false], none⟩, by decide +kernel⟩
  have htip : Backed forkEnd.votes leftTip true :=
    ⟨⟨some [true, false, true], none⟩, by decide +kernel⟩
  have hjust : savannaTree.just leftGrandchild = leftChild := by decide +kernel
  obtain ⟨hroot, htime, hsettled⟩ :=
    quorums_settle forkPolicy_accepted forkEnd_reachable.1 hstrong htip
  refine ⟨hstrong, htip, hroot, htime, hjust, ?_⟩
  rw [hjust] at hsettled
  exact hsettled rfl (by decide +kernel)

end Network
end FlonCore
