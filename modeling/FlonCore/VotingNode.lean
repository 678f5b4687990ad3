import FlonCore.MyFinalizers

/-!
# Runs of a voting node

A run of a node over restarts with changing sets of keys. `maybe_vote` releases
the lock after the save and only then passes its votes on, one by one, so calls
of other threads and a crash can come in between. The log records every
successful save, with the votes it is made for, and every vote passed on.
-/

namespace FlonCore
open Library List
variable {bls : BlsScheme} {env : VotingEnv bls}

inductive VoteEvent (bls : BlsScheme)
  | saved (call : ℕ) (records : FsiMap) (votes : List (Vote bls))
  | passed (call : ℕ) (vote : Vote bls)

structure NodeProcess (env : VotingEnv bls) where
  mine : MyFinalizers env
  calls : List (ℕ × List (Vote bls))

structure VotingNode (env : VotingEnv bls) where
  path : String
  file : Option SafetyFile
  process : Option (NodeProcess env)
  nextCall : ℕ
  log : List (VoteEvent bls)

namespace VotingNode

def start (env : VotingEnv bls) (path : String) (file : Option SafetyFile) : VotingNode env :=
  ⟨path, file, none, 0, []⟩

/-- The node after a call gave up the lock, `votes` being left to pass on if it saved. -/
def release (n : VotingNode env) (p : NodeProcess env) (saved : Bool) (votes : List (Vote bls))
    (after : MyFinalizers env × Option SafetyFile) : VotingNode env :=
  if saved then
    { n with
      file := after.2
      process := some ⟨after.1, p.calls ++ [(n.nextCall, votes)]⟩
      nextCall := n.nextCall + 1
      log := n.log ++ [.saved n.nextCall after.1.records votes] }
  else { n with file := after.2, process := some ⟨after.1, p.calls⟩ }

inductive Step : VotingNode env → VotingNode env → Prop
  | boot {n : VotingNode env} : n.process = none →
      Step n { n with process := some ⟨.construct env n.path, []⟩ }
  | setKeys {n : VotingNode env} {p : NodeProcess env} {m : MyFinalizers env}
      (keys : List (PublicKey × env.PrivateKey)) : n.process = some p → p.mine.finalizers = [] →
      p.mine.setKeys n.file keys = .ok m → Step n { n with process := some ⟨m, p.calls⟩ }
  | setDefault {n : VotingNode env} {p : NodeProcess env} (fsi : FinalizerSafetyInformation) :
      n.process = some p →
      Step n { n with process := some ⟨p.mine.setDefaultSafetyInformation fsi, p.calls⟩ }
  | vote {n : VotingNode env} {p : NodeProcess env} {votes : List (Vote bls)}
      {after : MyFinalizers env × Option SafetyFile} (bsp : VotingBlock)
      (outcome : WriteOutcome) : n.process = some p → bsp.ref.empty = false →
      p.mine.maybeVote n.file bsp outcome = some (votes, after) →
      Step n (n.release p (!votes.isEmpty) votes after)
  | pass {n : VotingNode env} {p : NodeProcess env} {call : ℕ} {vote : Vote bls}
      {votes : List (Vote bls)} (before later : List (ℕ × List (Vote bls))) :
      n.process = some p →
      p.calls = before ++ (call, vote :: votes) :: later →
      Step n { n with
        process := some ⟨p.mine, before ++ (call, votes) :: later⟩
        log := n.log ++ [.passed call vote] }
  | updateFsi {n : VotingNode env} {p : NodeProcess env} {saved seenVoted : Bool}
      {after : MyFinalizers env × Option SafetyFile} (bsp : VotingBlock) (qc : Qc bls)
      (outcome : WriteOutcome) : n.process = some p → bsp.ref.empty = false →
      (seenVoted = true → p.mine.hasVoted = true) →
      p.mine.maybeUpdateFsi n.file bsp qc seenVoted outcome = some (.ok (saved, after)) →
      Step n (n.release p saved [] after)
  | crash {n : VotingNode env} : Step n { n with process := none }

/-- The states a node gets to from any file. -/
inductive Reachable (path : String) (file : Option SafetyFile) : VotingNode env → Prop
  | start : Reachable path file (start env path file)
  | step {n n' : VotingNode env} : Reachable path file n → Step n n' → Reachable path file n'

end VotingNode

variable {log : List (VoteEvent bls)}

variable (log)

def Authorised (v : Vote bls) : Prop :=
  ∃ call records votes, .saved call records votes ∈ log ∧ v ∈ votes

def Covers (records : FsiMap) (v : Vote bls) : Prop :=
  ∃ fsi, (v.key, fsi) ∈ records ∧ fsi.lastVote.empty = false ∧
    v.timestamp ≤ fsi.lastVote.timestamp

/-- Saves are numbered in order and made for later and later votes; a call passes at most one
vote per finalizer. -/
def Ordered : VoteEvent bls → VoteEvent bls → Prop
  | .saved c _ us, .saved d _ vs =>
    c < d ∧ ∀ u ∈ us, ∀ v ∈ vs, u.key = v.key → u.timestamp < v.timestamp
  | .passed c u, .passed d v => c = d → u.key ≠ v.key
  | _, _ => True

def SavedBefore (d c : ℕ) : Prop :=
  ∃ before later records votes, log = before ++ .saved c records votes :: later ∧
    ∃ records' votes', .saved d records' votes' ∈ before

structure LogInv : Prop where
  ordered : log.Pairwise Ordered
  covers : ∀ c records votes, .saved c records votes ∈ log → ∀ v ∈ votes, Covers records v
  keys_nodup : ∀ c records votes, .saved c records votes ∈ log → (votes.map Vote.key).Nodup
  passed : ∀ pre post c v, log = pre ++ .passed c v :: post →
    ∃ records votes, .saved c records votes ∈ pre ∧ v ∈ votes

variable {log} {pre post : List (VoteEvent bls)}

theorem LogInv.lt_or_savedBefore (h : LogInv log) {c d : ℕ}
    {u v : Vote bls} (hlog : log = pre ++ .passed c u :: post) (hv : .passed d v ∈ post)
    (hkey : u.key = v.key) :
    u.timestamp < v.timestamp ∨ (v.timestamp < u.timestamp ∧ SavedBefore pre d c) := by
  obtain ⟨recordsC, votesC, hc, huc⟩ := h.passed pre post c u hlog
  obtain ⟨mid, rest, rfl⟩ := append_of_mem hv
  obtain ⟨recordsD, votesD, hd, hvd⟩ :=
    h.passed (pre ++ .passed c u :: mid) rest d v (by simp [hlog])
  have hord := h.ordered
  have hne : c ≠ d := by
    rw [hlog, pairwise_append] at hord
    exact fun he => (pairwise_cons.mp hord.2.1).1 _ hv he hkey
  obtain ⟨before, later, rfl⟩ := append_of_mem hc
  have hd' : (.saved d recordsD votesD : VoteEvent bls) ∈
      before ++ .saved c recordsC votesC :: (later ++ .passed c u :: mid) := by simpa using hd
  rw [hlog, append_assoc, cons_append, pairwise_append, pairwise_cons] at hord
  obtain ⟨-, ⟨hafter, -⟩, hcross⟩ := hord
  rcases mem_append.mp hd' with hmem | hmem
  · right
    obtain ⟨-, hlt⟩ := hcross _ hmem _ mem_cons_self
    exact ⟨hlt v hvd u huc hkey.symm, before, later, recordsC, votesC, rfl, recordsD, votesD, hmem⟩
  · left
    rcases mem_cons.mp hmem with heq | hmem
    · cases heq
      exact absurd rfl hne
    · have hmem' : (.saved d recordsD votesD : VoteEvent bls) ∈
          later ++ .passed c u :: (mid ++ .passed d v :: rest) := by
        rcases mem_append.mp hmem with hm | hm
        · exact mem_append_left _ hm
        · rcases mem_cons.mp hm with hm | hm
          · cases hm
          · exact mem_append_right _ (mem_cons_of_mem _ (mem_append_left _ hm))
      exact (hafter _ hmem').2 u huc v hvd hkey

variable {records : FsiMap} {votes : List (Vote bls)} {c : ℕ} {v : Vote bls}

theorem authorised_append_saved : Authorised (log ++ [.saved c records votes]) v ↔
      Authorised log v ∨ v ∈ votes := by
  constructor
  · rintro ⟨d, r, vs, hmem, hv⟩
    rcases mem_append.mp hmem with hmem | hmem
    · exact .inl ⟨d, r, vs, hmem, hv⟩
    · cases mem_singleton.mp hmem
      exact .inr hv
  · rintro (⟨d, r, vs, hmem, hv⟩ | hv)
    · exact ⟨d, r, vs, mem_append_left _ hmem, hv⟩
    · exact ⟨c, records, votes, mem_append_right _ (mem_singleton_self _), hv⟩

theorem saved_mem_append_passed {c d : ℕ} : .saved c records votes ∈ log ++ [.passed d v] ↔
      .saved c records votes ∈ log := by
  simp

theorem authorised_append_passed {u v : Vote bls} :
    Authorised (log ++ [.passed c u]) v ↔ Authorised log v := by
  unfold Authorised
  simp only [saved_mem_append_passed]

theorem split_append_one {e f : VoteEvent bls} (h : log ++ [e] = pre ++ f :: post) :
    (pre = log ∧ f = e) ∨ ∃ post', log = pre ++ f :: post' := by
  rcases eq_nil_or_concat post with rfl | ⟨post', g, rfl⟩
  · obtain ⟨rfl, he⟩ := append_inj' h rfl
    exact .inl ⟨rfl, (List.cons.inj he).1.symm⟩
  · rw [concat_eq_append, ← cons_append, ← append_assoc] at h
    exact .inr ⟨post', (append_inj' h rfl).1⟩

theorem LogInv.append_saved (h : LogInv log)
    (hlt : ∀ d r vs, .saved d r vs ∈ log → d < c) (hcovers : ∀ v ∈ votes, Covers records v)
    (hkeys : (votes.map Vote.key).Nodup)
    (hlater : ∀ u, Authorised log u → ∀ v ∈ votes, u.key = v.key → u.timestamp < v.timestamp) :
    LogInv (log ++ [.saved c records votes]) := by
  refine ⟨?_, ?_, ?_, ?_⟩
  · rw [pairwise_append]
    refine ⟨h.ordered, pairwise_singleton _ _, ?_⟩
    intro e he f hf
    cases mem_singleton.mp hf
    cases e with
    | saved d r us => exact ⟨hlt d r us he, fun u hu => hlater u ⟨d, r, us, he, hu⟩⟩
    | passed d u => trivial
  · intro d r vs hmem
    rcases mem_append.mp hmem with hmem | hmem
    · exact h.covers d r vs hmem
    · cases mem_singleton.mp hmem
      exact hcovers
  · intro d r vs hmem
    rcases mem_append.mp hmem with hmem | hmem
    · exact h.keys_nodup d r vs hmem
    · cases mem_singleton.mp hmem
      exact hkeys
  · intro pre post d v hsplit
    rcases split_append_one hsplit with ⟨-, he⟩ | ⟨post', hlog⟩
    · cases he
    · exact h.passed pre post' d v hlog

theorem LogInv.append_passed (h : LogInv log) (hsaved : .saved c records votes ∈ log)
    (hv : v ∈ votes)
    (hfresh : ∀ u, .passed c u ∈ log → u.key ≠ v.key) : LogInv (log ++ [.passed c v]) := by
  refine ⟨?_, ?_, ?_, ?_⟩
  · rw [pairwise_append]
    refine ⟨h.ordered, pairwise_singleton _ _, ?_⟩
    intro e he f hf
    cases mem_singleton.mp hf
    cases e with
    | saved d r us => trivial
    | passed d u =>
      rintro rfl
      exact hfresh u he
  · intro d r vs hmem
    exact h.covers d r vs (saved_mem_append_passed.mp hmem)
  · intro d r vs hmem
    exact h.keys_nodup d r vs (saved_mem_append_passed.mp hmem)
  · intro pre post d w hsplit
    rcases split_append_one hsplit with ⟨rfl, he⟩ | ⟨post', hlog⟩
    · cases he
      exact ⟨records, votes, hsaved, hv⟩
    · exact h.passed pre post' d w hlog

end FlonCore
