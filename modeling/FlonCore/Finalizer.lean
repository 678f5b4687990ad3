import FlonCore.FinalityCore

/-!
# The vote decision of a finalizer

A finalizer keeps the block of its last vote, the block it is locked on, and the
latest time it voted on a branch its last vote does not extend. `decideVote`
checks a proposal against this safety information, chooses between a strong and
a weak vote, and updates the information when it votes. It reads the
proposal's core, so like the core's lookups it is undefined where an index is
out of range.
-/

namespace FlonCore

open Option
structure FinalizerSafetyInformation where
  (lastVote lock : BlockRef)
  otherBranchLatestTime : BlockTimestamp
deriving DecidableEq, Repr

/-- `unset_fsi`, the default-constructed record. -/
def FinalizerSafetyInformation.unset : FinalizerSafetyInformation := ⟨.unset, .unset, .zero⟩

inductive VoteDecision
  | noVote
  | strongVote
  | weakVote
deriving DecidableEq, Repr

structure VoteResult where
  decision : VoteDecision
  (safetyCheck livenessCheck monotonyCheck : Bool)
deriving DecidableEq, Repr

/-- What voting reads of a block state: the reference `make_block_ref` builds and the core. -/
structure BlockView where
  ref : BlockRef
  core : FinalityCore
deriving DecidableEq, Repr

namespace BlockView

def timestamp (bsp : BlockView) : BlockTimestamp := bsp.ref.timestamp
def id (bsp : BlockView) : BlockId := bsp.ref.blockId

end BlockView

namespace FinalizerSafetyInformation
variable (fsi : FinalizerSafetyInformation) (bsp : BlockView)

def monotonyCheck : Bool :=
  fsi.lastVote.empty || decide (fsi.lastVote.timestamp < bsp.timestamp)

def lockChecks : Option (Bool × Bool) :=
  if fsi.lock.empty then some (false, false)
  else do
    let qcTime ← bsp.core.latestQcBlockTimestamp
    if fsi.lock.timestamp < qcTime then some (true, false)
    else
      let safety ← bsp.core.extendsBlock fsi.lock.blockId
      return (false, safety)

def chooseVote (qcTime : BlockTimestamp) : Option (VoteDecision × BlockTimestamp) :=
  if fsi.lastVote.timestamp ≤ qcTime then some (.strongVote, fsi.otherBranchLatestTime)
  else do
    let onBranch ← bsp.core.extendsBlock fsi.lastVote.blockId
    if onBranch then
      if fsi.otherBranchLatestTime ≤ qcTime then return (.strongVote, fsi.otherBranchLatestTime)
      else return (.weakVote, fsi.otherBranchLatestTime)
    else return (.weakVote, fsi.lastVote.timestamp)

def afterVote (qcTime : BlockTimestamp) (decision : VoteDecision)
    (otherBranch : BlockTimestamp) : Option FinalizerSafetyInformation :=
  if decision = .strongVote then
    if fsi.lock.timestamp < qcTime then do
      let lock ← bsp.core.getBlockReference bsp.core.latestQcClaim.blockNum
      return ⟨bsp.ref, lock, .zero⟩
    else some ⟨bsp.ref, fsi.lock, .zero⟩
  else some ⟨bsp.ref, fsi.lock, otherBranch⟩

end FinalizerSafetyInformation

/-- `finalizer::decide_vote`: the result and the updated safety information. -/
def decideVote (fsi : FinalizerSafetyInformation) (bsp : BlockView) :
    Option (VoteResult × FinalizerSafetyInformation) :=
  if fsi.monotonyCheck bsp then do
    let (liveness, safety) ← fsi.lockChecks bsp
    if liveness || safety then
      let qcTime ← bsp.core.latestQcBlockTimestamp
      let (decision, otherBranch) ← fsi.chooseVote bsp qcTime
      let fsi' ← fsi.afterVote bsp qcTime decision otherBranch
      return (⟨decision, safety, liveness, true⟩, fsi')
    else return (⟨.noVote, safety, liveness, true⟩, fsi)
  else some (⟨.noVote, false, false, false⟩, fsi)

/-- `finalizer::maybe_update_fsi`: adopt a strong vote of ours found in a received QC. -/
def FinalizerSafetyInformation.maybeUpdateFsi (fsi : FinalizerSafetyInformation)
    (bsp : BlockView) : Option (Bool × FinalizerSafetyInformation) := do
  let latest ← bsp.core.getBlockReference bsp.core.latestQcClaim.blockNum
  if fsi.lock.timestamp < latest.timestamp ∧ fsi.lastVote.timestamp < bsp.timestamp then
    return (true, ⟨bsp.ref, latest, .zero⟩)
  else return (false, fsi)

open FinalizerSafetyInformation

variable {fsi fsi' : FinalizerSafetyInformation} {bsp : BlockView} {res : VoteResult}

theorem lockChecks_eq_some {liveness safety : Bool}
    (h : fsi.lockChecks bsp = some (liveness, safety)) (hvote : (liveness || safety) = true) :
    fsi.lock.empty = false ∧ ∃ qcTime, bsp.core.latestQcBlockTimestamp = some qcTime ∧
      (fsi.lock.timestamp < qcTime ∨ bsp.core.extendsBlock fsi.lock.blockId = some true) := by
  unfold lockChecks at h
  split_ifs at h with hempty
  · cases h
    cases hvote
  · obtain ⟨qcTime, hq, h⟩ := bind_eq_some_iff.mp h
    refine ⟨by simpa using hempty, qcTime, hq, ?_⟩
    split_ifs at h with hlt
    · exact .inl hlt
    · obtain ⟨safety', hext, h⟩ := bind_eq_some_iff.mp h
      cases h
      right
      simpa using hext.trans (congrArg some (by simpa using hvote))

variable {qcTime otherBranch : BlockTimestamp}

theorem chooseVote_eq_some {decision : VoteDecision}
    (h : fsi.chooseVote bsp qcTime = some (decision, otherBranch)) :
    (decision = .strongVote ∧ (fsi.lastVote.timestamp ≤ qcTime ∨
      (bsp.core.extendsBlock fsi.lastVote.blockId = some true ∧
        fsi.otherBranchLatestTime ≤ qcTime))) ∨
    (decision = .weakVote ∧
      ((bsp.core.extendsBlock fsi.lastVote.blockId = some true ∧
        otherBranch = fsi.otherBranchLatestTime) ∨ otherBranch = fsi.lastVote.timestamp)) := by
  unfold chooseVote at h
  by_cases hle : fsi.lastVote.timestamp ≤ qcTime
  · rw [if_pos hle] at h
    cases h
    exact .inl ⟨rfl, .inl hle⟩
  · rw [if_neg hle, bind_eq_bind, bind_eq_some_iff] at h
    obtain ⟨onBranch, hext, h⟩ := h
    cases onBranch with
    | true =>
      rw [if_pos rfl] at h
      split_ifs at h with ho
      · cases h
        exact .inl ⟨rfl, .inr ⟨hext, ho⟩⟩
      · cases h
        exact .inr ⟨rfl, .inl ⟨hext, rfl⟩⟩
    | false =>
      cases h
      exact .inr ⟨rfl, .inr rfl⟩

theorem decideVote_cases (h : decideVote fsi bsp = some (res, fsi')) :
    (res.decision = .noVote ∧ fsi' = fsi) ∨
    ∃ qcTime otherBranch, fsi.monotonyCheck bsp = true ∧ fsi.lock.empty = false ∧
      bsp.core.latestQcBlockTimestamp = some qcTime ∧
      (fsi.lock.timestamp < qcTime ∨ bsp.core.extendsBlock fsi.lock.blockId = some true) ∧
      fsi.chooseVote bsp qcTime = some (res.decision, otherBranch) ∧
      fsi.afterVote bsp qcTime res.decision otherBranch = some fsi' := by
  unfold decideVote at h
  split_ifs at h with hmono
  · obtain ⟨⟨liveness, safety⟩, hlock, h⟩ := bind_eq_some_iff.mp h
    dsimp only at h
    split_ifs at h with hvote
    · obtain ⟨hempty, qcTime, hq, hclear⟩ := lockChecks_eq_some hlock hvote
      rw [hq, bind_eq_bind, bind_some, bind_eq_bind, bind_eq_some_iff] at h
      obtain ⟨⟨decision, otherBranch⟩, hchoose, h⟩ := h
      obtain ⟨fsi'', hafter, h⟩ := bind_eq_some_iff.mp h
      cases h
      exact .inr ⟨qcTime, otherBranch, hmono, hempty, hq, hclear, hchoose, hafter⟩
    · cases h
      exact .inl ⟨rfl, rfl⟩
  · cases h
    exact .inl ⟨rfl, rfl⟩

theorem afterVote_strong (h : fsi.afterVote bsp qcTime .strongVote otherBranch = some fsi') :
    fsi'.lastVote = bsp.ref ∧ fsi'.otherBranchLatestTime = .zero ∧
      (if fsi.lock.timestamp < qcTime then
        bsp.core.getBlockReference bsp.core.latestQcClaim.blockNum = some fsi'.lock
      else fsi'.lock = fsi.lock) := by
  unfold afterVote at h
  rw [if_pos rfl] at h
  split_ifs at h ⊢ with hlt
  · obtain ⟨lock, hlock, h⟩ := bind_eq_some_iff.mp h
    cases h
    exact ⟨rfl, rfl, hlock⟩
  · cases h
    exact ⟨rfl, rfl, rfl⟩

theorem afterVote_weak (h : fsi.afterVote bsp qcTime .weakVote otherBranch = some fsi') :
    fsi' = ⟨bsp.ref, fsi.lock, otherBranch⟩ := by
  unfold afterVote at h
  exact (Option.some.inj h).symm

variable (fsi)

theorem lockChecks_isSome (hq : bsp.core.latestQcBlockTimestamp.isSome)
    (hext : ∀ id, (bsp.core.extendsBlock id).isSome) :
    ∃ checks, fsi.lockChecks bsp = some checks := by
  obtain ⟨qcTime, hq⟩ := isSome_iff_exists.mp hq
  obtain ⟨safety, hsafety⟩ := isSome_iff_exists.mp (hext fsi.lock.blockId)
  unfold lockChecks
  rw [hq, hsafety, bind_eq_bind, bind_some, bind_eq_bind, bind_some]
  split_ifs
  · exact ⟨_, rfl⟩
  · exact ⟨_, rfl⟩
  · exact ⟨_, rfl⟩

theorem chooseVote_isSome (qcTime : BlockTimestamp)
    (hext : ∀ id, (bsp.core.extendsBlock id).isSome) :
    ∃ choice, fsi.chooseVote bsp qcTime = some choice := by
  obtain ⟨onBranch, hext⟩ := isSome_iff_exists.mp (hext fsi.lastVote.blockId)
  unfold chooseVote
  rw [hext, bind_eq_bind, bind_some]
  split_ifs
  · exact ⟨_, rfl⟩
  · exact ⟨_, rfl⟩
  · exact ⟨_, rfl⟩
  · exact ⟨_, rfl⟩

theorem afterVote_isSome (qcTime otherBranch : BlockTimestamp) (decision : VoteDecision)
    (href : (bsp.core.getBlockReference bsp.core.latestQcClaim.blockNum).isSome) :
    ∃ fsi', fsi.afterVote bsp qcTime decision otherBranch = some fsi' := by
  obtain ⟨ref, href⟩ := isSome_iff_exists.mp href
  unfold afterVote
  rw [href, bind_eq_bind, bind_some]
  split_ifs
  · exact ⟨_, rfl⟩
  · exact ⟨_, rfl⟩
  · exact ⟨_, rfl⟩

variable {fsi}

theorem decideVote_isSome_of_lookups (hq : bsp.core.latestQcBlockTimestamp.isSome)
    (hext : ∀ id, (bsp.core.extendsBlock id).isSome)
    (href : fsi.monotonyCheck bsp = true →
      (bsp.core.getBlockReference bsp.core.latestQcClaim.blockNum).isSome) :
    (decideVote fsi bsp).isSome := by
  obtain ⟨⟨liveness, safety⟩, hlocks⟩ := lockChecks_isSome fsi hq hext
  obtain ⟨qcTime, hq⟩ := isSome_iff_exists.mp hq
  obtain ⟨⟨decision, otherBranch⟩, hchoice⟩ := chooseVote_isSome fsi qcTime hext
  unfold decideVote
  simp only [hlocks, hq, hchoice, bind_eq_bind, bind_some]
  split_ifs with hmono hvote
  · obtain ⟨fsi', hafter⟩ := afterVote_isSome fsi qcTime otherBranch decision (href hmono)
    rw [hafter]
    rfl
  · rfl
  · rfl

end FlonCore
