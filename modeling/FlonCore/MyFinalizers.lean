import FlonCore.AggregatingQc
import FlonCore.Finalizer
import FlonCore.Library.Assoc

/-!
# The finalizers of a node and their safety file

A node votes with the finalizers whose keys it was given. It saves their safety
information, together with that of keys it was given in the past, before it
hands out a vote. A write that fails leaves the old or the new file and stops
the node from voting until it is restarted.
-/

namespace FlonCore
open Library List Option

/-- A block reference as the safety file holds it, without generation numbers. -/
structure StoredRef where
  blockId : BlockId
  timestamp : BlockTimestamp
  finalityDigest : Digest
deriving DecidableEq, Repr

structure StoredFsi where
  (lastVote lock : StoredRef)
  otherBranchLatestTime : BlockTimestamp
deriving DecidableEq, Repr

def packV0 (ref : BlockRef) : StoredRef := ⟨ref.blockId, ref.timestamp, ref.finalityDigest⟩

def unpackV0 (ref : StoredRef) : BlockRef := ⟨ref.blockId, ref.timestamp, ref.finalityDigest, 0, 0⟩

def packV1 (fsi : FinalizerSafetyInformation) : StoredFsi :=
  ⟨packV0 fsi.lastVote, packV0 fsi.lock, fsi.otherBranchLatestTime⟩

def unpackV1 (fsi : StoredFsi) : FinalizerSafetyInformation :=
  ⟨unpackV0 fsi.lastVote, unpackV0 fsi.lock, fsi.otherBranchLatestTime⟩

/-- The content of a safety file. Version 0 has a flag in place of the last time on another
branch, and no checksum. -/
inductive SafetyFile
  | badMagic
  | badVersion
  | v0 (entries : List (PublicKey × StoredRef × StoredRef × Bool))
  | v1 (entries : List (PublicKey × StoredFsi)) (checksum : UInt32)
deriving DecidableEq, Repr

abbrev FsiMap := List (PublicKey × FinalizerSafetyInformation)

def loadFinalizerSafetyInfoV0 (entries : List (PublicKey × StoredRef × StoredRef × Bool)) :
    FsiMap :=
  (entries.map fun (key, lastVote, lock, votesForked) =>
    (key, ⟨unpackV0 lastVote, unpackV0 lock,
      if votesForked then lastVote.timestamp else .zero⟩)).foldl emplace []

def loadFinalizerSafetyInfoV1 (entries : List (PublicKey × StoredFsi)) : FsiMap :=
  (entries.map fun (key, fsi) => (key, unpackV1 fsi)).foldl emplace []

/-- What voting takes from elsewhere: signing, which can fail, the bytes that are signed, and
the checksum of the safety file. -/
structure VotingEnv (bls : BlsScheme) where
  PrivateKey : Type
  sign : PrivateKey → List UInt8 → Option bls.Sig
  (digestBytes createWeakDigest : Digest → List UInt8)
  crc : List (PublicKey × StoredFsi) → UInt32

structure VotingBlock extends BlockView where
  strongDigest : Digest
  activeFinalizerPolicy : FinalizerPolicy
  pendingFinalizerPolicy : Option FinalizerPolicy

/-- A vote as it is handed to `process_vote`, with the block it is for. -/
structure Vote (bls : BlsScheme) where
  message : VoteMessage bls
  (activeAuthority pendingAuthority : Option FinalizerAuthority)
  block : VotingBlock

namespace Vote
variable {bls : BlsScheme}

def key (v : Vote bls) : PublicKey := v.message.finalizerKey
def timestamp (v : Vote bls) : BlockTimestamp := v.block.timestamp

end Vote

/-- How `durable_file::replace` ends. A failure may come after the new file was put in place. -/
inductive WriteOutcome
  | written
  | failed (promoted : Bool)
deriving DecidableEq, Repr

variable {bls : BlsScheme} {env : VotingEnv bls}

def loadFinalizerSafetyInfo (env : VotingEnv bls) (persistFilePath : String)
    (file : Option SafetyFile) : Except Failure FsiMap := do
  eosAssert (persistFilePath != "") .finalizerSafetyException
    "path for storing finalizer safety persistence file not specified"
  match file with
  | none => return []
  | some .badMagic => .error ⟨.finalizerSafetyException,
      "bad magic number in finalizer safety persistence file: ${p}"⟩
  | some .badVersion => .error ⟨.finalizerSafetyException,
      "Incorrect version number in finalizer safety persistence file: ${p}"⟩
  | some (.v0 entries) => return loadFinalizerSafetyInfoV0 entries
  | some (.v1 entries checksum) =>
    eosAssert (checksum == env.crc entries) .finalizerSafetyException
      "bad checksum reading finalizer safety persistence file: ${p}"
    return loadFinalizerSafetyInfoV1 entries

structure Finalizer (env : VotingEnv bls) where
  privKey : env.PrivateKey
  fsi : FinalizerSafetyInformation

def Finalizer.maybeVote (f : Finalizer env) (pubKey : PublicKey) (bsp : VotingBlock) :
    Option (Option (VoteMessage bls) × Finalizer env) := do
  let (res, fsi) ← decideVote f.fsi bsp.toBlockView
  let f' : Finalizer env := ⟨f.privKey, fsi⟩
  match res.decision with
  | .noVote => return (none, f')
  | .strongVote =>
    let sig := env.sign f.privKey (env.digestBytes bsp.strongDigest)
    return (sig.map fun sig => ⟨bsp.id, true, pubKey, sig⟩, f')
  | .weakVote =>
    let sig := env.sign f.privKey (env.createWeakDigest bsp.strongDigest)
    return (sig.map fun sig => ⟨bsp.id, false, pubKey, sig⟩, f')

def inPolicy (p : FinalizerPolicy) (key : PublicKey) : Option FinalizerAuthority :=
  p.finalizers.find? fun f => f.publicKey == key

/-- Did the finalizer with this key vote strong in a QC signature? Undefined when the vote
vector is absent or too short. -/
def hasVotedStrong (p : FinalizerPolicy) (qc : VoteBits) (key : PublicKey) : Option Bool :=
  match p.finalizers.findIdx? fun f => f.publicKey == key with
  | none => some false
  | some index => qc.strongVotes.bind fun bits => bits[index]?

structure MyFinalizers (env : VotingEnv bls) where
  persistFilePath : String
  hasVoted : Bool
  finalizers : List (PublicKey × Finalizer env)
  inactiveSafetyInfo : FsiMap
  defaultFsi : FinalizerSafetyInformation
  safetyWriteFailed : Bool

namespace MyFinalizers

def construct (env : VotingEnv bls) (persistFilePath : String) : MyFinalizers env :=
  ⟨persistFilePath, false, [], [], .unset, false⟩

variable (m : MyFinalizers env)

def records : FsiMap :=
  m.inactiveSafetyInfo ++ m.finalizers.map fun f => (f.1, f.2.fsi)

def safetyFile : SafetyFile :=
  let entries := m.records.map fun (key, fsi) => (key, packV1 fsi)
  .v1 entries (env.crc entries)

def saveFinalizerSafetyInfo (file : Option SafetyFile)
    (outcome : WriteOutcome) : Bool × MyFinalizers env × Option SafetyFile :=
  if m.safetyWriteFailed then (false, m, file)
  else if m.persistFilePath = "" then (false, { m with safetyWriteFailed := true }, file)
  else match outcome with
    | .written => (true, m, some m.safetyFile)
    | .failed promoted => (false, { m with safetyWriteFailed := true },
        if promoted then some m.safetyFile else file)

/-- `set_keys`, with the key texts already parsed. -/
def setKeys (file : Option SafetyFile)
    (finalizerKeys : List (PublicKey × env.PrivateKey)) : Except Failure (MyFinalizers env) :=
  if finalizerKeys.isEmpty then .ok m
  else do
    let safetyInfo ← loadFinalizerSafetyInfo env m.persistFilePath file
    let finalizers := finalizerKeys.foldl (fun fs key =>
      assign fs key.1 ⟨key.2, (find safetyInfo key.1).getD m.defaultFsi⟩) m.finalizers
    let inactive := (keysOf finalizerKeys).foldl eraseKey safetyInfo
    return { m with finalizers := finalizers, inactiveSafetyInfo := inactive }

def setDefaultSafetyInformation (fsi : FinalizerSafetyInformation) : MyFinalizers env :=
  { m with
    finalizers := m.finalizers.map fun f =>
      if !f.2.fsi.lastVote.empty || !f.2.fsi.lock.empty then f else (f.1, ⟨f.2.privKey, fsi⟩)
    defaultFsi := fsi }

def voteWith (bsp : VotingBlock) (f : PublicKey × Finalizer env) :
    Option (Option (Vote bls) × PublicKey × Finalizer env) :=
  let activeAuth := inPolicy bsp.activeFinalizerPolicy f.1
  let pendingAuth := bsp.pendingFinalizerPolicy.bind fun p => inPolicy p f.1
  if activeAuth.isSome || pendingAuth.isSome then do
    let (message, f') ← f.2.maybeVote f.1 bsp
    return (message.map fun message => ⟨message, activeAuth, pendingAuth, bsp⟩, f.1, f')
  else some (none, f)

def voteWithAll (bsp : VotingBlock) : List (PublicKey × Finalizer env) →
    Option (List (Vote bls) × List (PublicKey × Finalizer env))
  | [] => some ([], [])
  | f :: fs => do
    let (vote, f') ← voteWith bsp f
    let (votes, fs') ← voteWithAll bsp fs
    return (vote.toList ++ votes, f' :: fs')

/-- `maybe_vote` up to the release of the lock: the votes that are then passed on. -/
def maybeVote (m : MyFinalizers env) (file : Option SafetyFile) (bsp : VotingBlock)
    (outcome : WriteOutcome) : Option (List (Vote bls) × MyFinalizers env × Option SafetyFile) :=
  if m.finalizers.isEmpty || m.safetyWriteFailed then some ([], m, file)
  else do
    let (votes, finalizers) ← voteWithAll bsp m.finalizers
    if votes.isEmpty then return ([], { m with finalizers := finalizers }, file)
    else
      let saved := saveFinalizerSafetyInfo
        { m with finalizers := finalizers, hasVoted := true } file outcome
      return (if saved.1 then votes else [], saved.2)

/-- The condition in the loop of `maybe_update_fsi`. The pending policy is looked at only when
the finalizer's vote is not among those of the active one. -/
def votedStrongIn (bsp : VotingBlock) (qc : Qc bls) (key : PublicKey) : Option Bool :=
  match hasVotedStrong bsp.activeFinalizerPolicy qc.activePolicySig.toVoteBits key with
  | some false =>
    match bsp.pendingFinalizerPolicy with
    | none => some false
    | some p => qc.pendingPolicySig.bind fun sig => hasVotedStrong p sig.toVoteBits key
  | inActive => inActive

def updateWith (bsp : VotingBlock) (qc : Qc bls) (f : PublicKey × Finalizer env) :
    Option (Bool × PublicKey × Finalizer env) := do
  let voted ← votedStrongIn bsp qc f.1
  if voted then
    let (updated, fsi) ← f.2.fsi.maybeUpdateFsi bsp.toBlockView
    return (updated, f.1, ⟨f.2.privKey, fsi⟩)
  else return (false, f)

def updateWithAll (bsp : VotingBlock) (qc : Qc bls) : List (PublicKey × Finalizer env) →
    Option (Bool × List (PublicKey × Finalizer env))
  | [] => some (false, [])
  | f :: fs => do
    let (updated, f') ← updateWith bsp qc f
    let (rest, fs') ← updateWithAll bsp qc fs
    return (updated || rest, f' :: fs')

/-- `maybe_update_fsi`, with whether it saved. `has_voted` is read before the lock is taken. -/
def maybeUpdateFsi (m : MyFinalizers env) (file : Option SafetyFile) (bsp : VotingBlock)
    (qc : Qc bls) (seenVoted : Bool) (outcome : WriteOutcome) :
    Option (Except Failure (Bool × MyFinalizers env × Option SafetyFile)) :=
  if m.finalizers.isEmpty || seenVoted then some (.ok (false, m, file))
  else if bsp.pendingFinalizerPolicy.isSome && !qc.pendingPolicySig.isSome then
    some (.error ⟨.invalidQcClaim, "qc ${bn} expected to have a pending policy signature"⟩)
  else do
    let (updated, finalizers) ← updateWithAll bsp qc m.finalizers
    let m' := { m with finalizers := finalizers }
    if updated then return .ok (m'.saveFinalizerSafetyInfo file outcome)
    else return .ok (false, m', file)

end MyFinalizers

open MyFinalizers

variable {bsp : VotingBlock}

def FinalizerSafetyInformation.Advances (a b : FinalizerSafetyInformation) : Prop :=
  a.lastVote.empty = false →
    b.lastVote.empty = false ∧ a.lastVote.timestamp ≤ b.lastVote.timestamp

theorem FinalizerSafetyInformation.Advances.refl (a : FinalizerSafetyInformation) :
    a.Advances a := fun h => ⟨h, le_refl _⟩

variable {view : BlockView}

theorem lastVote_lt_of_monotonyCheck {fsi : FinalizerSafetyInformation}
    (h : fsi.monotonyCheck view = true) (hlast : fsi.lastVote.empty = false) :
    fsi.lastVote.timestamp < view.timestamp := by
  simpa [FinalizerSafetyInformation.monotonyCheck, hlast] using h

variable {fsi fsi' : FinalizerSafetyInformation}

theorem decideVote_lastVote
    {res : VoteResult} (h : decideVote fsi view = some (res, fsi')) :
    (res.decision = .noVote ∧ fsi' = fsi) ∨
      (fsi.monotonyCheck view = true ∧ fsi'.lastVote = view.ref) := by
  rcases decideVote_cases h with hno | ⟨qcTime, otherBranch, hmono, -, -, -, hchoose, hafter⟩
  · exact .inl hno
  · refine .inr ⟨hmono, ?_⟩
    rcases chooseVote_eq_some hchoose with ⟨hd, -⟩ | ⟨hd, -⟩
    · rw [hd] at hafter
      exact (afterVote_strong hafter).1
    · rw [hd] at hafter
      rw [afterVote_weak hafter]

theorem decideVote_advances
    {res : VoteResult} (hne : view.ref.empty = false)
    (h : decideVote fsi view = some (res, fsi')) : fsi.Advances fsi' := by
  rcases decideVote_lastVote h with ⟨-, rfl⟩ | ⟨hmono, hvote⟩
  · exact .refl _
  · intro hlast
    rw [hvote]
    exact ⟨hne, (lastVote_lt_of_monotonyCheck hmono hlast).le⟩

theorem maybeUpdateFsi_advances
    {updated : Bool} (hne : view.ref.empty = false)
    (h : fsi.maybeUpdateFsi view = some (updated, fsi')) : fsi.Advances fsi' := by
  unfold FinalizerSafetyInformation.maybeUpdateFsi at h
  obtain ⟨latest, -, h⟩ := bind_eq_some_iff.mp h
  split_ifs at h with hnew
  · cases h
    exact fun _ => ⟨hne, hnew.2.le⟩
  · cases h
    exact .refl _

def Moved (fs fs' : List (PublicKey × Finalizer env)) : Prop :=
  List.Forall₂ (fun f f' => f'.1 = f.1 ∧ f.2.fsi.Advances f'.2.fsi) fs fs'

variable {fs fs' : List (PublicKey × Finalizer env)}

theorem Moved.keysOf_eq (h : Moved fs fs') : keysOf fs' = keysOf fs := by
  induction h with
  | nil => rfl
  | cons hf _ ih =>
    simp only [keysOf, map_cons] at ih ⊢
    rw [hf.1, ih]

theorem Finalizer.maybeVote_fsi {f f' : Finalizer env} {key : PublicKey}
    {message : Option (VoteMessage bls)} (h : f.maybeVote key bsp = some (message, f')) :
    ∃ res, decideVote f.fsi bsp.toBlockView = some (res, f'.fsi) ∧
      ∀ msg, message = some msg → res.decision ≠ .noVote ∧ msg.finalizerKey = key := by
  unfold Finalizer.maybeVote at h
  obtain ⟨⟨res, fsi⟩, hdecide, h⟩ := bind_eq_some_iff.mp h
  dsimp only at h
  refine ⟨res, ?_⟩
  cases hd : res.decision with
  | noVote =>
    rw [hd] at h
    cases h
    exact ⟨hdecide, nofun⟩
  | strongVote | weakVote =>
    rw [hd] at h
    cases h
    refine ⟨hdecide, fun msg hmsg => ⟨by simp, ?_⟩⟩
    obtain ⟨sig, -, rfl⟩ := map_eq_some_iff.mp hmsg
    rfl

theorem voteWith_spec (hne : bsp.ref.empty = false) {f f' : PublicKey × Finalizer env}
    {vote : Option (Vote bls)} (h : voteWith bsp f = some (vote, f')) :
    f'.1 = f.1 ∧ f.2.fsi.Advances f'.2.fsi ∧ ∀ v, vote = some v → v.key = f.1 ∧ v.block = bsp ∧
      f.2.fsi.monotonyCheck bsp.toBlockView = true ∧ f'.2.fsi.lastVote = bsp.ref := by
  unfold voteWith at h
  dsimp only at h
  split_ifs at h with hauth
  · obtain ⟨⟨message, g⟩, hvote, h⟩ := bind_eq_some_iff.mp h
    cases h
    obtain ⟨res, hdecide, hmessage⟩ := Finalizer.maybeVote_fsi hvote
    refine ⟨rfl, decideVote_advances hne hdecide, ?_⟩
    intro v hv
    obtain ⟨msg, hmsg, rfl⟩ := map_eq_some_iff.mp hv
    obtain ⟨hdecision, hkey⟩ := hmessage msg hmsg
    rcases decideVote_lastVote hdecide with ⟨hno, -⟩ | hlast
    · exact absurd hno hdecision
    · exact ⟨hkey, rfl, hlast⟩
  · cases h
    exact ⟨rfl, .refl _, nofun⟩

theorem voteWithAll_spec (hne : bsp.ref.empty = false)
    {votes : List (Vote bls)} (h : voteWithAll bsp fs = some (votes, fs')) :
    Moved fs fs' ∧ (votes.map Vote.key).Sublist (keysOf fs) ∧ ∀ v ∈ votes, v.block = bsp ∧
      ∃ f f', (v.key, f) ∈ fs ∧ (v.key, f') ∈ fs' ∧
        f.fsi.monotonyCheck bsp.toBlockView = true ∧ f'.fsi.lastVote = bsp.ref := by
  induction fs generalizing fs' votes with
  | nil =>
    cases h
    exact ⟨.nil, List.Sublist.refl _, by simp⟩
  | cons f fs ih =>
    rw [voteWithAll, bind_eq_bind, bind_eq_some_iff] at h
    obtain ⟨⟨vote, f'⟩, hvote, h⟩ := h
    obtain ⟨⟨rest, gs⟩, hrest, h⟩ := bind_eq_some_iff.mp h
    cases h
    obtain ⟨hkey, hadv, hspec⟩ := voteWith_spec hne hvote
    obtain ⟨hmoved, hkeys, hvotes⟩ := ih hrest
    refine ⟨.cons ⟨hkey, hadv⟩ hmoved, ?_, ?_⟩
    · cases vote with
      | none => exact hkeys.cons _
      | some v =>
        simp only [toList_some, singleton_append, map_cons, (hspec v rfl).1, keysOf]
        exact hkeys.cons_cons _
    · intro v hv
      rcases mem_append.mp hv with hv | hv
      · obtain ⟨hvkey, hblock, hmono, hlast⟩ := hspec v (mem_toList.mp hv)
        refine ⟨hblock, f.2, f'.2, ?_, ?_, hmono, hlast⟩
        · rw [hvkey]
          exact mem_cons_self
        · rw [hvkey, ← hkey]
          exact mem_cons_self
      · obtain ⟨hblock, g, g', hg, hg', hrest⟩ := hvotes v hv
        exact ⟨hblock, g, g', mem_cons_of_mem _ hg, mem_cons_of_mem _ hg', hrest⟩

theorem updateWithAll_moved (hne : bsp.ref.empty = false) {qc : Qc bls} {updated : Bool}
    (h : updateWithAll bsp qc fs = some (updated, fs')) : Moved fs fs' := by
  induction fs generalizing fs' updated with
  | nil =>
    cases h
    exact .nil
  | cons f fs ih =>
    rw [updateWithAll, bind_eq_bind, bind_eq_some_iff] at h
    obtain ⟨⟨u, f'⟩, hone, h⟩ := h
    obtain ⟨⟨rest, gs⟩, hrest, h⟩ := bind_eq_some_iff.mp h
    cases h
    refine .cons ?_ (ih hrest)
    unfold updateWith at hone
    obtain ⟨voted, -, hone⟩ := bind_eq_some_iff.mp hone
    split_ifs at hone with hvoted
    · obtain ⟨⟨u', fsi⟩, hfsi, hone⟩ := bind_eq_some_iff.mp hone
      cases hone
      exact ⟨rfl, maybeUpdateFsi_advances hne hfsi⟩
    · cases hone
      exact ⟨rfl, .refl _⟩

theorem setDefaultSafetyInformation_moved (m : MyFinalizers env)
    (fsi : FinalizerSafetyInformation) :
    Moved m.finalizers (m.setDefaultSafetyInformation fsi).finalizers := by
  unfold setDefaultSafetyInformation Moved
  rw [forall₂_map_right_iff]
  refine forall₂_same.mpr fun f _ => ?_
  split_ifs with hset
  · exact ⟨rfl, .refl _⟩
  · refine ⟨rfl, fun hlast => ?_⟩
    simp [hlast] at hset

end FlonCore
