import FlonCore.FinalityCoreRuns
import FlonCore.VotingNode

/-!
# Voting across crashes

The records in the file and in memory cover every vote that was ever saved for,
whatever writes fail and whichever keys a restarted node is given. This orders
the votes of a finalizer along the saves. They are passed on in this order
unless calls overlap.
-/

namespace FlonCore
open Library List
open MyFinalizers
variable {bls : BlsScheme} {env : VotingEnv bls} {v : Vote bls}

theorem Covers.append_moved {inactive : FsiMap} {fs fs' : List (PublicKey × Finalizer env)}
    (hmoved : Moved fs fs') (h : Covers (inactive ++ fs.map fun f => (f.1, f.2.fsi)) v) :
    Covers (inactive ++ fs'.map fun f => (f.1, f.2.fsi)) v := by
  obtain ⟨fsi, hmem, hlast, hle⟩ := h
  rcases mem_append.mp hmem with hmem | hmem
  · exact ⟨fsi, mem_append_left _ hmem, hlast, hle⟩
  · obtain ⟨f, hf, heq⟩ := mem_map.mp hmem
    obtain ⟨hfkey, rfl⟩ := Prod.mk.inj heq
    obtain ⟨i, hi, rfl⟩ := getElem_of_mem hf
    obtain ⟨hlen, hrel⟩ := forall₂_iff_get.mp hmoved
    have hi' : i < fs'.length := hlen ▸ hi
    obtain ⟨hkey, hadv⟩ := hrel i hi hi'
    obtain ⟨hlast', hle'⟩ := hadv hlast
    refine ⟨(fs'[i]).2.fsi, mem_append_right _ ?_, hlast', hle.trans hle'⟩
    exact mem_map.mpr ⟨fs'[i], getElem_mem hi', Prod.ext (hkey.trans hfkey) rfl⟩

variable {m : MyFinalizers env}

theorem loadFinalizerSafetyInfo_safetyFile {path : String}
    (hpath : path ≠ "") (hnodup : (keysOf m.records).Nodup) :
    loadFinalizerSafetyInfo env path (some m.safetyFile) =
      .ok (m.records.map fun e => (e.1, unpackV1 (packV1 e.2))) := by
  have hentries : loadFinalizerSafetyInfoV1 (m.records.map fun e => (e.1, packV1 e.2)) =
      m.records.map fun e => (e.1, unpackV1 (packV1 e.2)) := by
    unfold loadFinalizerSafetyInfoV1
    rw [map_map, foldl_emplace]
    · rfl
    · simpa [keysOf, Function.comp_def] using hnodup
  simp [loadFinalizerSafetyInfo, safetyFile, hpath, eosAssert, hentries]
  rfl

variable {records : FsiMap}

theorem Covers.stored (h : Covers records v) :
    Covers (records.map fun e => (e.1, unpackV1 (packV1 e.2))) v := by
  obtain ⟨fsi, hmem, hlast, hle⟩ := h
  exact ⟨_, mem_map_of_mem hmem, hlast, hle⟩

/-- A save leaves the records in memory alone. On disk it leaves the old file or puts the new
one; it succeeds only with the new one in place. -/
theorem saveFinalizerSafetyInfo_cases (m : MyFinalizers env) (file : Option SafetyFile)
    (outcome : WriteOutcome) {saved : Bool} {after : MyFinalizers env × Option SafetyFile}
    (h : m.saveFinalizerSafetyInfo file outcome = (saved, after)) :
    (after.1 = m ∨ after.1 = { m with safetyWriteFailed := true }) ∧
    ((after.2 = some m.safetyFile ∧ m.persistFilePath ≠ "") ∨
      (saved = false ∧ after.2 = file)) := by
  unfold saveFinalizerSafetyInfo at h
  split_ifs at h with hfailed hpath
  · cases h
    exact ⟨.inl rfl, .inr ⟨rfl, rfl⟩⟩
  · cases h
    exact ⟨.inr rfl, .inr ⟨rfl, rfl⟩⟩
  · cases outcome with
    | written =>
      cases h
      exact ⟨.inl rfl, .inl ⟨rfl, hpath⟩⟩
    | failed promoted =>
      cases h
      cases promoted with
      | true => exact ⟨.inr rfl, .inl ⟨rfl, hpath⟩⟩
      | false => exact ⟨.inr rfl, .inr ⟨rfl, rfl⟩⟩

namespace VotingNode

def FileCovers (path : String) (file : Option SafetyFile) (log : List (VoteEvent bls))
    (env : VotingEnv bls) : Prop :=
  ∀ v, Authorised log v → ∃ records, loadFinalizerSafetyInfo env path file = .ok records ∧
    Covers records v

structure MemoryCovers (path : String) (m : MyFinalizers env) (log : List (VoteEvent bls)) :
    Prop where
  path_eq : m.persistFilePath = path
  keys_nodup : (keysOf m.records).Nodup
  covers : m.finalizers ≠ [] → ∀ v, Authorised log v → Covers m.records v

structure CallsOpen (calls : List (ℕ × List (Vote bls))) (log : List (VoteEvent bls)) : Prop where
  nodup : (keysOf calls).Nodup
  saved : ∀ c rest, (c, rest) ∈ calls → ∃ records done,
    .saved c records (done ++ rest) ∈ log ∧ ∀ v, .passed c v ∈ log → v ∈ done

variable {log : List (VoteEvent bls)}

theorem CallsOpen.append_saved {calls : List (ℕ × List (Vote bls))}
    (h : CallsOpen calls log) (hlog : LogInv log) {next : ℕ}
    {votes : List (Vote bls)} (hlt : ∀ c r vs, .saved c r vs ∈ log → c < next) :
    CallsOpen (calls ++ [(next, votes)]) (log ++ [.saved next records votes]) := by
  have hfresh : next ∉ keysOf calls := by
    rintro hmem
    obtain ⟨rest, hrest⟩ := mem_keysOf.mp hmem
    obtain ⟨r, done, hsaved, -⟩ := h.saved next rest hrest
    exact lt_irrefl _ (hlt _ _ _ hsaved)
  refine ⟨?_, ?_⟩
  · have hnodup := h.nodup
    simp only [keysOf, map_append, map_cons, map_nil] at hnodup hfresh ⊢
    exact List.Nodup.append hnodup (nodup_singleton _) (by simpa using hfresh)
  · intro c rest hmem
    rcases mem_append.mp hmem with hmem | hmem
    · obtain ⟨r, done, hsaved, hdone⟩ := h.saved c rest hmem
      refine ⟨r, done, mem_append_left _ hsaved, fun v hv => hdone v ?_⟩
      simpa using hv
    · cases mem_singleton.mp hmem
      refine ⟨records, [], mem_append_right _ (mem_singleton_self _), ?_⟩
      intro v hv
      have hv' : .passed next v ∈ log := by simpa using hv
      obtain ⟨pre, post, hsplit⟩ := append_of_mem hv'
      obtain ⟨r, vs, hsaved, -⟩ := hlog.passed pre post next v hsplit
      have hmem' : .saved next r vs ∈ log := hsplit ▸ mem_append_left _ hsaved
      exact absurd (hlt _ _ _ hmem') (lt_irrefl _)

theorem CallsOpen.pass {before later : List (ℕ × List (Vote bls))} {c : ℕ} {votes : List (Vote bls)}
    (h : CallsOpen (before ++ (c, v :: votes) :: later) log) :
    CallsOpen (before ++ (c, votes) :: later) (log ++ [.passed c v]) := by
  have hnodup := h.nodup
  refine ⟨by simpa [keysOf] using hnodup, ?_⟩
  intro d rest hmem
  have hother : ∀ d rest, (d, rest) ∈ before ++ later → d ≠ c ∧ ∃ r done,
      .saved d r (done ++ rest) ∈ log ∧ ∀ u, .passed d u ∈ log → u ∈ done := by
    intro d rest hd
    refine ⟨?_, h.saved d rest ?_⟩
    · rintro rfl
      simp only [keysOf, map_append, map_cons] at hnodup
      refine (nodup_middle.mp hnodup).notMem ?_
      rw [← map_append]
      exact mem_map_of_mem hd
    · rcases mem_append.mp hd with hd | hd
      · exact mem_append_left _ hd
      · exact mem_append_right _ (mem_cons_of_mem _ hd)
  by_cases hd : (d, rest) ∈ before ++ later
  · obtain ⟨hne, r, done, hsaved, hdone⟩ := hother d rest hd
    refine ⟨r, done, mem_append_left _ hsaved, fun u hu => hdone u ?_⟩
    simpa [hne] using hu
  · have heq : d = c ∧ rest = votes := by
      simp only [mem_append, mem_cons, not_or] at hmem hd
      simpa [hd.1, hd.2] using hmem
    obtain ⟨rfl, rfl⟩ := heq
    obtain ⟨r, done, hsaved, hdone⟩ :=
      h.saved d (v :: rest) (mem_append_right _ mem_cons_self)
    refine ⟨r, done ++ [v], ?_, ?_⟩
    · simpa using hsaved
    · intro u hu
      rcases mem_append.mp hu with hu | hu
      · exact mem_append_left _ (hdone u hu)
      · cases mem_singleton.mp hu
        exact mem_append_right _ (mem_singleton_self _)

structure Inv (n : VotingNode env) : Prop where
  log : LogInv n.log
  calls_lt : ∀ c records votes, .saved c records votes ∈ n.log → c < n.nextCall
  file : FileCovers n.path n.file n.log env
  memory : ∀ p, n.process = some p → MemoryCovers n.path p.mine n.log
  calls : ∀ p, n.process = some p → CallsOpen p.calls n.log

theorem inv_start (path : String) (file : Option SafetyFile) : Inv (start env path file) := by
  refine ⟨⟨.nil, nofun, nofun, ?_⟩, nofun, ?_, nofun, nofun⟩
  · intro pre post c v h
    simp [start] at h
  · rintro v ⟨c, records, votes, h, -⟩
    cases h

variable {path : String}

theorem keysOf_records (m : MyFinalizers env) :
    keysOf m.records = keysOf m.inactiveSafetyInfo ++ keysOf m.finalizers := by
  simp [records, keysOf, Function.comp_def]

theorem MemoryCovers.moved {m m' : MyFinalizers env} (h : MemoryCovers path m log)
    (hpath : m'.persistFilePath = m.persistFilePath)
    (hinactive : m'.inactiveSafetyInfo = m.inactiveSafetyInfo)
    (hmoved : Moved m.finalizers m'.finalizers) : MemoryCovers path m' log := by
  refine ⟨hpath.trans h.path_eq, ?_, ?_⟩
  · rw [keysOf_records, hinactive, hmoved.keysOf_eq, ← keysOf_records]
    exact h.keys_nodup
  · intro hne v hv
    have hne' : m.finalizers ≠ [] := by
      rintro hnil
      rw [hnil] at hmoved
      exact hne (forall₂_nil_left_iff.mp hmoved)
    have hcovers := h.covers hne' v hv
    unfold records at hcovers ⊢
    rw [hinactive]
    exact hcovers.append_moved hmoved

theorem MemoryCovers.fileCovers (h : MemoryCovers path m log)
    (hne : m.finalizers ≠ []) (hpath : path ≠ "") :
    FileCovers path (some m.safetyFile) log env := fun v hv =>
  ⟨_, loadFinalizerSafetyInfo_safetyFile hpath h.keys_nodup, (h.covers hne v hv).stored⟩

theorem loadFinalizerSafetyInfo_nodup {file : Option SafetyFile}
    (h : loadFinalizerSafetyInfo env path file = .ok records) : (keysOf records).Nodup := by
  unfold loadFinalizerSafetyInfo at h
  obtain ⟨-, h⟩ := seq_eq_ok.mp h
  split at h
  · cases h
    exact nodup_nil
  · cases h
  · cases h
  · cases h
    exact nodup_foldl_emplace _ nodup_nil
  · rw [seq_eq_ok] at h
    cases h.2
    exact nodup_foldl_emplace _ nodup_nil

theorem MemoryCovers.setKeys {n : VotingNode env} {m m' : MyFinalizers env}
    (h : MemoryCovers n.path m n.log) (hfile : FileCovers n.path n.file n.log env)
    (hempty : m.finalizers = []) {keys : List (PublicKey × env.PrivateKey)}
    (hset : m.setKeys n.file keys = .ok m') : MemoryCovers n.path m' n.log := by
  unfold MyFinalizers.setKeys at hset
  split_ifs at hset with hkeys
  · cases hset
    exact h
  · rw [bind_eq_ok, h.path_eq] at hset
    obtain ⟨safetyInfo, hload, hset⟩ := hset
    cases hset
    have hnodup := loadFinalizerSafetyInfo_nodup hload
    rw [hempty]
    refine ⟨rfl, ?_, ?_⟩
    · rw [keysOf_records]
      refine List.Nodup.append (nodup_foldl_eraseKey _ hnodup) (nodup_foldl_assign _ nodup_nil) ?_
      intro k hk hk'
      obtain ⟨v, hv⟩ := mem_keysOf.mp hk
      obtain ⟨w, hw⟩ := mem_keysOf.mp hk'
      rcases mem_of_mem_foldl_assign hw with ⟨key, hkey, he⟩ | hw
      · refine (mem_foldl_eraseKey.mp hv).2 (mem_keysOf.mpr ⟨key.2, ?_⟩)
        rw [(Prod.mk.inj he).1]
        exact hkey
      · cases hw
    · intro _ v hv
      obtain ⟨records, hload', fsi, hmem, hcover⟩ := hfile v hv
      cases Except.ok.inj (hload.symm.trans hload')
      by_cases hk : v.key ∈ keysOf keys
      · have hconfigured : v.key ∈ keysOf (keys.foldl (fun fs key => assign fs key.1
            (⟨key.2, (find safetyInfo key.1).getD m.defaultFsi⟩ : Finalizer env)) []) :=
          mem_keysOf_foldl_assign (.inl hk)
        obtain ⟨f, hf⟩ := mem_keysOf.mp hconfigured
        have hfsi : f.fsi = fsi := by
          rcases mem_of_mem_foldl_assign hf with ⟨key, -, he⟩ | hf'
          · obtain ⟨hkey, rfl⟩ := Prod.mk.inj he
            rw [hkey, ← find_eq_some hnodup] at hmem
            simp [hmem]
          · cases hf'
        refine ⟨fsi, mem_append_right _ ?_, hcover⟩
        exact mem_map.mpr ⟨_, hf, by rw [hfsi]⟩
      · exact ⟨fsi, mem_append_left _ (mem_foldl_eraseKey.mpr ⟨hmem, hk⟩), hcover⟩

variable {n : VotingNode env} {p : NodeProcess env} {votes : List (Vote bls)} {saved : Bool}
  {after : MyFinalizers env × Option SafetyFile}

structure Released (m : MyFinalizers env) (file : Option SafetyFile) (saved : Bool)
    (after : MyFinalizers env × Option SafetyFile) : Prop where
  path_eq : after.1.persistFilePath = m.persistFilePath
  inactive_eq : after.1.inactiveSafetyInfo = m.inactiveSafetyInfo
  moved : Moved m.finalizers after.1.finalizers
  file_eq : (after.2 = some after.1.safetyFile ∧ m.persistFilePath ≠ "" ∧ m.finalizers ≠ []) ∨
    (saved = false ∧ after.2 = file)

variable {file : Option SafetyFile} {outcome : WriteOutcome}

theorem Released.save {m m' : MyFinalizers env}
    (h : m'.saveFinalizerSafetyInfo file outcome = (saved, after))
    (hne : m.finalizers ≠ []) (hpath : m'.persistFilePath = m.persistFilePath)
    (hinactive : m'.inactiveSafetyInfo = m.inactiveSafetyInfo)
    (hmoved : Moved m.finalizers m'.finalizers) :
    Released m file saved after ∧ after.1.finalizers = m'.finalizers := by
  obtain ⟨hafter, hfile⟩ := saveFinalizerSafetyInfo_cases m' file outcome h
  have hsame : after.1.persistFilePath = m'.persistFilePath ∧
      after.1.inactiveSafetyInfo = m'.inactiveSafetyInfo ∧
      after.1.finalizers = m'.finalizers ∧ after.1.safetyFile = m'.safetyFile := by
    rcases hafter with he | he
    · rw [he]
      exact ⟨rfl, rfl, rfl, rfl⟩
    · rw [he]
      exact ⟨rfl, rfl, rfl, rfl⟩
  obtain ⟨hpath', hinactive', hfinalizers, hsafety⟩ := hsame
  refine ⟨⟨hpath'.trans hpath, hinactive'.trans hinactive, hfinalizers ▸ hmoved, ?_⟩, hfinalizers⟩
  rw [hsafety, ← hpath]
  rcases hfile with ⟨hnew, hne'⟩ | hold
  · exact .inl ⟨hnew, hne', hne⟩
  · exact .inr hold

theorem moved_refl (fs : List (PublicKey × Finalizer env)) : Moved fs fs :=
  forall₂_same.mpr fun _ _ => ⟨rfl, .refl _⟩

variable {bsp : VotingBlock}

theorem released_maybeVote (hne : bsp.ref.empty = false)
    (h : m.maybeVote file bsp outcome = some (votes, after)) :
    Released m file (!votes.isEmpty) after ∧
      (votes = [] ∨
        voteWithAll bsp m.finalizers = some (votes, after.1.finalizers)) := by
  unfold maybeVote at h
  split_ifs at h with hskip
  · cases h
    exact ⟨⟨rfl, rfl, moved_refl _, .inr ⟨rfl, rfl⟩⟩, .inl rfl⟩
  · have hfs : m.finalizers ≠ [] := by
      rintro hnil
      simp [hnil] at hskip
    obtain ⟨⟨cast, fs⟩, hcast, h⟩ := Option.bind_eq_some_iff.mp h
    obtain ⟨hmoved, -, -⟩ := voteWithAll_spec hne hcast
    dsimp only at h
    by_cases hnone : cast.isEmpty = true
    · rw [if_pos hnone] at h
      cases h
      exact ⟨⟨rfl, rfl, hmoved, .inr ⟨rfl, rfl⟩⟩, .inl rfl⟩
    · rw [if_neg hnone] at h
      rcases hsave : saveFinalizerSafetyInfo
        { m with finalizers := fs, hasVoted := true } file outcome with ⟨ok, after'⟩
      rw [hsave] at h
      cases h
      obtain ⟨hreleased, hfinalizers⟩ := Released.save hsave hfs rfl rfl hmoved
      cases ok with
      | true =>
        rw [Bool.not_eq_true] at hnone
        rw [if_pos rfl, hnone, hfinalizers]
        exact ⟨hreleased, .inr hcast⟩
      | false => exact ⟨hreleased, .inl rfl⟩

theorem released_maybeUpdateFsi {qc : Qc bls} {seenVoted : Bool} (hne : bsp.ref.empty = false)
    (h : m.maybeUpdateFsi file bsp qc seenVoted outcome = some (.ok (saved, after))) :
    Released m file saved after := by
  unfold maybeUpdateFsi at h
  split_ifs at h with hskip hpending
  · cases h
    exact ⟨rfl, rfl, moved_refl _, .inr ⟨rfl, rfl⟩⟩
  · cases h
  · have hfs : m.finalizers ≠ [] := by
      rintro hnil
      simp [hnil] at hskip
    obtain ⟨⟨updated, fs⟩, hupdate, h⟩ := Option.bind_eq_some_iff.mp h
    have hmoved := updateWithAll_moved hne hupdate
    dsimp only at h
    split_ifs at h with hupdated
    · exact (Released.save (Except.ok.inj (Option.some.inj h)) hfs rfl rfl hmoved).1
    · cases h
      exact ⟨rfl, rfl, hmoved, .inr ⟨rfl, rfl⟩⟩

/-- A call that gives up the lock keeps the invariant, if the votes it saved for are new. -/
theorem Inv.release (h : Inv n) (hp : n.process = some p)
    (hr : Released p.mine n.file saved after)
    (hvotes : saved = true → (votes.map Vote.key).Nodup ∧ ∀ v ∈ votes, Covers after.1.records v ∧
      ∀ u, Authorised n.log u → u.key = v.key → u.timestamp < v.timestamp) :
    Inv (n.release p saved votes after) := by
  have hmemory := (h.memory p hp).moved hr.path_eq hr.inactive_eq hr.moved
  have hfile : ∀ log, MemoryCovers n.path after.1 log → after.2 = some after.1.safetyFile →
      p.mine.persistFilePath ≠ "" → p.mine.finalizers ≠ [] → FileCovers n.path after.2 log env := by
    intro log hcovers hnew hpath hne
    rw [hnew]
    refine hcovers.fileCovers ?_ ((h.memory p hp).path_eq ▸ hpath)
    rintro hnil
    have hmoved := hr.moved
    rw [hnil] at hmoved
    exact hne (forall₂_nil_right_iff.mp hmoved)
  have hcalls := h.calls p hp
  unfold VotingNode.release
  cases saved with
  | false =>
    refine ⟨h.log, h.calls_lt, ?_, ?_, ?_⟩
    · rcases hr.file_eq with ⟨hnew, hpath, hne⟩ | ⟨-, hold⟩
      · exact hfile _ hmemory hnew hpath hne
      · exact hold ▸ h.file
    · rintro q ⟨⟩
      exact hmemory
    · rintro q ⟨⟩
      exact hcalls
  | true =>
    obtain ⟨hkeys, hnew⟩ := hvotes rfl
    have hmemory' : MemoryCovers n.path after.1
        (n.log ++ [.saved n.nextCall after.1.records votes]) := by
      refine ⟨hmemory.path_eq, hmemory.keys_nodup, fun hne v hv => ?_⟩
      rcases authorised_append_saved.mp hv with hv | hv
      · exact hmemory.covers hne v hv
      · exact (hnew v hv).1
    refine ⟨?_, ?_, ?_, ?_, ?_⟩
    · exact h.log.append_saved h.calls_lt (fun v hv => (hnew v hv).1) hkeys
        fun u hu v hv => (hnew v hv).2 u hu
    · intro c r vs hmem
      rcases mem_append.mp hmem with hmem | hmem
      · exact (h.calls_lt c r vs hmem).trans (Nat.lt_succ_self _)
      · cases mem_singleton.mp hmem
        exact Nat.lt_succ_self _
    · rcases hr.file_eq with ⟨hnew, hpath, hne⟩ | ⟨hfalse, -⟩
      · exact hfile _ hmemory' hnew hpath hne
      · cases hfalse
    · rintro q ⟨⟩
      exact hmemory'
    · rintro q ⟨⟩
      exact hcalls.append_saved h.log h.calls_lt

theorem votes_new (h : Inv n) (hp : n.process = some p) (hne : bsp.ref.empty = false)
    (hvotes : voteWithAll bsp p.mine.finalizers = some (votes, m.finalizers)) :
    (votes.map Vote.key).Nodup ∧ ∀ v ∈ votes, Covers m.records v ∧
      ∀ u, Authorised n.log u → u.key = v.key → u.timestamp < v.timestamp := by
  have hmemory := h.memory p hp
  obtain ⟨-, hkeys, hspec⟩ := voteWithAll_spec hne hvotes
  have hnodup := hmemory.keys_nodup
  rw [keysOf_records] at hnodup
  refine ⟨(nodup_append.mp hnodup).2.1.sublist hkeys, fun v hv => ?_⟩
  obtain ⟨hblock, f, f', hf, hf', hmono, hlast⟩ := hspec v hv
  have htime : v.timestamp = bsp.ref.timestamp := by rw [Vote.timestamp, hblock]; rfl
  constructor
  · refine ⟨f'.fsi, mem_append_right _ (mem_map.mpr ⟨_, hf', rfl⟩), ?_⟩
    rw [hlast, htime]
    exact ⟨hne, le_refl _⟩
  · intro u hu hkey
    obtain ⟨fsi, hmem, hlast', hle⟩ := hmemory.covers (ne_nil_of_mem hf) u hu
    have hmem' : (u.key, f.fsi) ∈ p.mine.records := by
      rw [hkey]
      exact mem_append_right _ (mem_map.mpr ⟨_, hf, rfl⟩)
    cases eq_of_mem hmemory.keys_nodup hmem hmem'
    rw [htime]
    exact lt_of_le_of_lt hle (lastVote_lt_of_monotonyCheck hmono hlast')

theorem Inv.step {n n' : VotingNode env} (h : Inv n) (hstep : Step n n') : Inv n' := by
  cases hstep with
  | boot hp =>
    refine ⟨h.log, h.calls_lt, h.file, ?_, ?_⟩
    · rintro q ⟨⟩
      exact ⟨rfl, nodup_nil, fun hne => absurd rfl hne⟩
    · rintro q ⟨⟩
      exact ⟨nodup_nil, nofun⟩
  | @setKeys p _ keys hp hempty hset =>
    refine ⟨h.log, h.calls_lt, h.file, ?_, ?_⟩
    · rintro q ⟨⟩
      exact (h.memory _ hp).setKeys h.file hempty hset
    · rintro q ⟨⟩
      exact h.calls p hp
  | @setDefault p fsi hp =>
    refine ⟨h.log, h.calls_lt, h.file, ?_, ?_⟩
    · rintro q ⟨⟩
      exact (h.memory _ hp).moved rfl rfl (setDefaultSafetyInformation_moved _ _)
    · rintro q ⟨⟩
      exact h.calls p hp
  | @vote p votes _ bsp outcome hp hne hvote =>
    obtain ⟨hreleased, hvotes⟩ := released_maybeVote hne hvote
    refine h.release hp hreleased fun hsaved => ?_
    rcases hvotes with rfl | hvotes
    · cases hsaved
    · exact votes_new h hp hne hvotes
  | @pass p c v votes before later hp hcalls =>
    have hopen := h.calls p hp
    rw [hcalls] at hopen
    obtain ⟨records, done, hsaved, hdone⟩ :=
      hopen.saved c (v :: votes) (mem_append_right _ mem_cons_self)
    have hkeys := h.log.keys_nodup _ _ _ hsaved
    have hfresh : ∀ u, .passed c u ∈ n.log → u.key ≠ v.key := by
      intro u hu heq
      rw [map_append, map_cons] at hkeys
      exact (nodup_append.mp hkeys).2.2 _ (mem_map_of_mem (hdone u hu)) _ mem_cons_self heq
    refine ⟨h.log.append_passed hsaved (mem_append_right _ mem_cons_self) hfresh, ?_, ?_, ?_, ?_⟩
    · intro d r vs hmem
      exact h.calls_lt d r vs (saved_mem_append_passed.mp hmem)
    · intro u hu
      exact h.file u (authorised_append_passed.mp hu)
    · rintro q ⟨⟩
      have hmemory := h.memory p hp
      exact ⟨hmemory.path_eq, hmemory.keys_nodup, fun hne u hu =>
        hmemory.covers hne u (authorised_append_passed.mp hu)⟩
    · rintro q ⟨⟩
      exact hopen.pass
  | updateFsi bsp qc outcome hp hne _ hupdate =>
    exact h.release hp (released_maybeUpdateFsi hne hupdate) fun _ => ⟨nodup_nil, nofun⟩
  | crash => exact ⟨h.log, h.calls_lt, h.file, nofun, nofun⟩

theorem Reachable.inv (h : Reachable path file n) : Inv n := by
  induction h with
  | start => exact inv_start path file
  | step _ hstep ih => exact ih.step hstep

def Sequential (log : List (VoteEvent bls)) : Prop :=
  ∀ pre post c records votes, log = pre ++ .saved c records votes :: post →
    ∀ d records' votes', .saved d records' votes' ∈ pre → ∀ v, .passed d v ∉ post

def passedVotes (key : PublicKey) (log : List (VoteEvent bls)) : List (Vote bls) :=
  log.filterMap fun e => match e with
    | .passed _ v => if v.key = key then some v else none
    | .saved _ _ _ => none

theorem passedVotes_increasing (h : LogInv log) (hseq : Sequential log) (key : PublicKey) :
    (passedVotes key log).Pairwise fun u v => u.timestamp < v.timestamp := by
  have hpairs : ∀ pre post c u, log = pre ++ .passed c u :: post → ∀ d v, .passed d v ∈ post →
      u.key = v.key → u.timestamp < v.timestamp := by
    intro pre post c u hlog d v hv hkey
    rcases h.lt_or_savedBefore hlog hv hkey with hlt | ⟨-, hbefore⟩
    · exact hlt
    · obtain ⟨before, later, records, votes, rfl, records', votes', hd⟩ := hbefore
      have hsplit : log = before ++ .saved c records votes :: (later ++ .passed c u :: post) := by
        simp [hlog]
      refine absurd ?_ (hseq before _ c records votes hsplit d records' votes' hd v)
      exact mem_append_right _ (mem_cons_of_mem _ hv)
  unfold passedVotes
  rw [pairwise_filterMap]
  refine pairwise_of_split fun pre e post hlog f hf u hu v hv => ?_
  cases e with
  | saved c records votes => cases hu
  | passed c u' =>
    cases f with
    | saved d records votes => cases hv
    | passed d v' =>
      dsimp only at hu hv
      split_ifs at hu hv with hku hkv
      cases hu
      cases hv
      exact hpairs pre post c u hlog d v hf (hku.trans hkv.symm)

/-- Votes are passed on only after a save that covers them, and a vote of a finalizer is never
followed by another with the same or an earlier block time, except by one whose call had saved
first and was overtaken. -/
theorem passed_after_save {path : String} {file : Option SafetyFile} {n : VotingNode env}
    (h : Reachable path file n) :
    (∀ pre post c u, n.log = pre ++ .passed c u :: post →
      (∃ records votes, .saved c records votes ∈ pre ∧ Covers records u) ∧
      ∀ d v, .passed d v ∈ post → u.key = v.key →
        u.timestamp < v.timestamp ∨ (v.timestamp < u.timestamp ∧ SavedBefore pre d c)) ∧
    (Sequential n.log → ∀ key,
      (passedVotes key n.log).Pairwise fun u v => u.timestamp < v.timestamp) := by
  have hlog := h.inv.log
  refine ⟨fun pre post c u hsplit => ⟨?_, ?_⟩, fun hseq key => passedVotes_increasing hlog hseq key⟩
  · obtain ⟨records, votes, hsaved, hu⟩ := hlog.passed pre post c u hsplit
    refine ⟨records, votes, hsaved, hlog.covers c records votes ?_ u hu⟩
    rw [hsplit]
    exact mem_append_left _ hsaved
  · intro d v hv hkey
    exact hlog.lt_or_savedBefore hsplit hv hkey

end VotingNode

def plainEnv : VotingEnv .ideal :=
  ⟨Unit, fun _ _ => some BlsScheme.ideal.zero, fun _ => [1], fun _ => [0], fun _ => 0⟩

def firstKey : PublicKey := ⟨[1]⟩
def secondKey : PublicKey := ⟨[2]⟩
def pairPolicy : FinalizerPolicy := ⟨1, 2, [⟨"", 1, firstKey⟩, ⟨"", 1, secondKey⟩]⟩

def genesisRef : BlockRef := ⟨stampId 5 1, ⟨7⟩, 0, 1, 0⟩
def childBlock : VotingBlock :=
  ⟨⟨⟨stampId 6 2, ⟨8⟩, 0, 1, 0⟩, ⟨[⟨1, 1, false⟩, ⟨2, 1, true⟩], [genesisRef], .zero⟩⟩, 0,
    pairPolicy, none⟩
def grandchildBlock : VotingBlock :=
  ⟨⟨⟨stampId 7 3, ⟨9⟩, 0, 1, 0⟩,
    ⟨[⟨1, 1, false⟩, ⟨2, 1, true⟩, ⟨3, 1, true⟩],
      [genesisRef, ⟨stampId 6 2, ⟨8⟩, 0, 1, 0⟩], .zero⟩⟩, 0, pairPolicy, none⟩

section
open VotingNode

theorem overtaken_vote : ∃ n : VotingNode plainEnv, Reachable "safety.dat" none n ∧
    ∃ pre c d u v, n.log = pre ++ [.passed c u, .passed d v] ∧ u.key = v.key ∧
      v.timestamp < u.timestamp := by
  refine ⟨_, .step (.step (.step (.step (.step (.step (.step .start (.boot rfl))
    (.setDefault ⟨.unset, genesisRef, .zero⟩ rfl)) (.setKeys [(firstKey, ())] rfl rfl rfl))
    (.vote childBlock .written rfl (by decide +kernel) (by with_unfolding_all rfl)))
    (.vote grandchildBlock .written rfl (by decide +kernel) (by with_unfolding_all rfl)))
    (.pass [_] [] rfl rfl)) (.pass [] [_] rfl rfl), [_, _], 1, 0, _, _, rfl, ?_, ?_⟩
  · rfl
  · decide

/-- Both finalizers vote on the child. The save for the grandchild fails, and the node is
started again with only one of the keys. -/
theorem restarted_node_votes : ∃ (n : VotingNode plainEnv) (records records' : FsiMap)
    (u v w : Vote .ideal), Reachable "safety.dat" none n ∧
      n.log = [.saved 0 records [u, v], .passed 0 u, .passed 0 v, .saved 1 records' [w],
        .passed 1 w] ∧
      (u.key, u.timestamp) = (firstKey, ⟨8⟩) ∧ (v.key, v.timestamp) = (secondKey, ⟨8⟩) ∧
      (w.key, w.timestamp) = (firstKey, ⟨9⟩) := by
  refine ⟨_, _, _, _, _, _, .step (.step (.step (.step (.step (.step (.step (.step (.step (.step
    (.step (.step (.step .start (.boot rfl))
    (.setDefault ⟨.unset, genesisRef, .zero⟩ rfl))
    (.setKeys [(firstKey, ()), (secondKey, ())] rfl rfl rfl))
    (.vote childBlock .written rfl (by decide +kernel) (by with_unfolding_all rfl)))
    (.pass [] [] rfl rfl))
    (.pass [] [] rfl rfl))
    (.vote grandchildBlock (.failed false) rfl (by decide +kernel) (by with_unfolding_all rfl)))
    .crash)
    (.boot rfl))
    (.setDefault ⟨.unset, genesisRef, .zero⟩ rfl))
    (.setKeys [(firstKey, ())] rfl rfl (by with_unfolding_all rfl)))
    (.vote grandchildBlock .written rfl (by decide +kernel) (by with_unfolding_all rfl)))
    (.pass [] [] rfl rfl), rfl, rfl, rfl, rfl⟩

theorem restarted_votes_covered : ∃ n : VotingNode plainEnv, Reachable "safety.dat" none n ∧
    (passedVotes firstKey n.log).map Vote.timestamp = [⟨8⟩, ⟨9⟩] ∧
    (∀ pre post c u, n.log = pre ++ .passed c u :: post →
      (∃ records votes, .saved c records votes ∈ pre ∧ Covers records u) ∧
      ∀ d v, .passed d v ∈ post → u.key = v.key →
        u.timestamp < v.timestamp ∨ (v.timestamp < u.timestamp ∧ SavedBefore pre d c)) ∧
    ∀ key, (passedVotes key n.log).Pairwise fun u v => u.timestamp < v.timestamp := by
  obtain ⟨n, records, records', u, v, w, hn, hlog, hu, hv, hw⟩ := restarted_node_votes
  have hseq : Sequential n.log := by
    intro pre post c r votes hsplit d r' votes' hd x hx
    rw [hlog] at hsplit
    rcases pre with _ | ⟨a, _ | ⟨b, _ | ⟨e, _ | ⟨f, _ | ⟨g, pre⟩⟩⟩⟩⟩
    all_goals simp at hsplit
    · cases hd
    · obtain ⟨rfl, rfl, rfl, -, rfl⟩ := hsplit
      simp at hd hx
      omega
  obtain ⟨hpassed, hordered⟩ := passed_after_save hn
  refine ⟨n, hn, ?_, hpassed, hordered hseq⟩
  rw [Prod.mk.injEq] at hu hv hw
  simp [hlog, passedVotes, hu, hv, hw, firstKey, secondKey]
end
end FlonCore
