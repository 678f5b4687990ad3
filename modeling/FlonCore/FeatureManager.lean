import FlonCore.ProtocolFeatures

/-!
# The feature manager follows the chain

A manager that has activated features and popped blocks is in the state of a
new one that activates only the features still on the chain. Activation appends
to the list of features and links one entry of the table; unwinding past the
block of the last activation takes exactly that back.
-/

namespace FlonCore
open Library List Option
open Outcome

theorem lt_notActive_iff {n : UInt32} : n < notActive ↔ n ≠ notActive := by
  rw [UInt32.lt_iff_toNat_lt, Ne, ← UInt32.toNat_inj]
  have hn := n.toNat_lt
  have hlast : notActive.toNat = 4294967295 := rfl
  omega

namespace ProtocolFeatureManager
variable {pfs : ProtocolFeatureSet} {m m' : ProtocolFeatureManager} {d : Digest} {n b : UInt32}
  {acts : List (Digest × UInt32)}

theorem activateFeature_eq_ok : m.activateFeature d n = .ok m' ↔
    m.initialized = true ∧ ∃ feature, m.protocolFeatureSet.find d = some feature ∧
      (∀ last ∈ m.activatedProtocolFeatures.getLast?, last.activationBlockNum ≤ n) ∧
      ∃ codename, feature.builtinFeature = some codename ∧
        ∃ entry, m.builtinProtocolFeatures[codename.index]? = some entry ∧
          entry.activationBlockNum = notActive ∧
          m' = { m with
            activatedProtocolFeatures := m.activatedProtocolFeatures ++ [⟨feature, n⟩]
            builtinProtocolFeatures := m.builtinProtocolFeatures.set codename.index
              ⟨m.headOfBuiltinActivationList, n⟩
            headOfBuiltinActivationList := some codename.index } := by
  rw [activateFeature, seq_eq_ok, eosAssert_eq_ok]
  refine and_congr_right fun _ => ?_
  cases hfind : m.protocolFeatureSet.find d with
  | none => simp
  | some feature =>
    simp only [seq_eq_ok, eosAssert_eq_ok, decide_eq_true_eq, Option.some.injEq, exists_eq_left']
    refine and_congr_right fun _ => ?_
    cases hcode : feature.builtinFeature with
    | none => simp
    | some codename =>
      cases hentry : m.builtinProtocolFeatures[codename.index]? with
      | none => simp [hentry]
      | some entry =>
        simp only [seq_eq_ok, eosAssert_eq_ok, decide_eq_true_eq, Option.some.injEq,
          exists_eq_left', hentry]
        refine and_congr_right fun _ => ?_
        simp [pure, Except.pure, eq_comm]

theorem init_nil : (ofSet pfs).init [] = .ok { ofSet pfs with initialized := true } := rfl

theorem init_concat : (ofSet pfs).init (acts ++ [(d, n)]) = .ok m' ↔
    ∃ m, (ofSet pfs).init acts = .ok m ∧ m.activateFeature d n = .ok m' := by
  simp only [init, eosAssert_eq_ok, foldlM_append, bind_eq_ok, foldlM_cons, foldlM_nil]
  simp [pure, Except.pure, ofSet]

def active (e : BuiltinProtocolFeatureEntry) : Bool := e.activationBlockNum ≠ notActive

structure Replayed (m : ProtocolFeatureManager) (acts : List (Digest × UInt32)) : Prop where
  initialized : m.initialized = true
  nums : m.activatedProtocolFeatures.map (·.activationBlockNum) = acts.map Prod.snd
  sorted : acts.Pairwise fun a b => a.2 ≤ b.2
  inactive : ∀ e ∈ m.builtinProtocolFeatures, e.activationBlockNum = notActive → e = {}
  count : m.builtinProtocolFeatures.countP active = acts.length
  lookup : ∀ (f : BuiltinProtocolFeatureT) (n : UInt32), n ≠ notActive →
    ((∃ e, m.builtinProtocolFeatures[f.index]? = some e ∧ e.activationBlockNum = n) ↔
      ∃ e ∈ m.activatedProtocolFeatures, e.feature.builtinFeature = some f ∧
        e.activationBlockNum = n)

theorem replayed_nil : Replayed { ofSet pfs with initialized := true } [] where
  initialized := rfl
  nums := rfl
  sorted := .nil
  inactive e he _ := eq_of_mem_replicate he
  count := by simp [ofSet, countP_replicate, active]
  lookup f n hn := by
    have hnone : ∀ e, (List.replicate pfs.recognizedBuiltin.length
        ({} : BuiltinProtocolFeatureEntry))[f.index]? = some e → e.activationBlockNum ≠ n := by
      intro e he
      rw [eq_of_mem_replicate (mem_of_getElem? he)]
      exact hn.symm
    simpa [ofSet] using hnone

theorem Replayed.sorted_concat (h : Replayed m acts)
    (hlast : ∀ last ∈ m.activatedProtocolFeatures.getLast?, last.activationBlockNum ≤ n) :
    (acts ++ [(d, n)]).Pairwise fun a b => a.2 ≤ b.2 := by
  rw [pairwise_append]
  refine ⟨h.sorted, pairwise_singleton _ _, fun a ha c hc => ?_⟩
  rw [mem_singleton.mp hc]
  obtain ⟨front, last, rfl⟩ :=
    (eq_nil_or_concat' acts).resolve_left (ne_nil_of_mem ha)
  have hmap := congrArg List.getLast? h.nums
  rw [getLast?_map, map_append, map_singleton, getLast?_concat, map_eq_some_iff] at hmap
  obtain ⟨e, he, hnum⟩ := hmap
  have hle : last.2 ≤ n := hnum ▸ hlast e he
  obtain ha | ha := mem_append.mp ha
  · exact UInt32.le_trans ((pairwise_append.mp h.sorted).2.2 a ha last (by simp)) hle
  · rwa [mem_singleton.mp ha]

theorem Replayed.activate (h : Replayed m acts) (hn : n ≠ notActive)
    (hact : m.activateFeature d n = .ok m') : Replayed m' (acts ++ [(d, n)]) := by
  obtain ⟨hinit, feature, -, hlast, codename, hcode, entry, hentry, hold, rfl⟩ :=
    activateFeature_eq_ok.mp hact
  have hi : codename.index < m.builtinProtocolFeatures.length :=
    (List.getElem?_eq_some_iff.mp hentry).1
  have hget : m.builtinProtocolFeatures[codename.index] = entry :=
    (List.getElem?_eq_some_iff.mp hentry).2
  constructor
  case initialized => exact hinit
  case nums => simp [h.nums]
  case sorted => exact h.sorted_concat hlast
  case inactive =>
    intro e he hnot
    obtain he | rfl := mem_or_eq_of_mem_set he
    · exact h.inactive e he hnot
    · exact absurd hnot hn
  case count =>
    have hfree : active entry = false := by simp [active, hold]
    have hnew : active ⟨m.headOfBuiltinActivationList, n⟩ = true := by simp [active, hn]
    rw [countP_set hi, hget, h.count, hfree, hnew]
    simp
  case lookup =>
    intro f k hk
    simp only [mem_append, mem_singleton, or_and_right, exists_or, exists_eq_left, hcode]
    rw [← h.lookup f k hk]
    by_cases hf : f = codename
    · subst hf
      have hnone : ¬ ∃ e, m.builtinProtocolFeatures[f.index]? = some e ∧
          e.activationBlockNum = k := by
        rintro ⟨e, he, rfl⟩
        rw [hentry, Option.some.injEq] at he
        exact hk (he ▸ hold)
      simp only [getElem?_set_self hi, hnone, Option.some.injEq, exists_eq_left', true_and,
        false_or]
    · have hne : codename.index ≠ f.index := fun hidx =>
        hf (BuiltinProtocolFeatureT.index_injective hidx).symm
      have hcodes : codename ≠ f := Ne.symm hf
      simp [getElem?_set_ne hne, hcodes]

theorem replayed_of_init (hnum : ∀ a ∈ acts, a.2 ≠ notActive)
    (h : (ofSet pfs).init acts = .ok m) : Replayed m acts := by
  induction acts using List.reverseRecOn generalizing m with
  | nil =>
    rw [init_nil, Except.ok.injEq] at h
    exact h ▸ replayed_nil
  | append_singleton acts a ih =>
    obtain ⟨m₀, h₀, hact⟩ := init_concat.mp h
    have hpast := ih (fun a ha => hnum a (mem_append_left _ ha)) h₀
    exact hpast.activate (hnum a (by simp)) hact

variable {entries : List BuiltinProtocolFeatureEntry}

theorem unwind_mono {fuel more : ℕ}
    {head : Option ℕ} {r : List BuiltinProtocolFeatureEntry × Option ℕ} (hle : fuel ≤ more)
    (h : unwind b fuel entries head = some r) : unwind b more entries head = some r := by
  induction fuel generalizing more entries head with
  | zero =>
    cases head with
    | none => cases more <;> exact h
    | some i => cases h
  | succ fuel ih =>
    obtain ⟨more, rfl⟩ : ∃ k, more = k + 1 := ⟨more - 1, by omega⟩
    cases head with
    | none => exact h
    | some i =>
      simp only [unwind, bind_eq_bind, bind_eq_some_iff] at h ⊢
      obtain ⟨e, he, h⟩ := h
      refine ⟨e, he, ?_⟩
      split at h
      case isTrue hnum =>
        rw [if_pos hnum]
        exact h
      case isFalse hnum =>
        rw [if_neg hnum]
        exact ih (by omega) h

theorem unwind_kept {fuel i : ℕ} {p : Option ℕ}
    (hi : i < entries.length) (hle : n ≤ b) :
    unwind b (fuel + 1) (entries.set i ⟨p, n⟩) (some i) = some (entries.set i ⟨p, n⟩, some i) := by
  simp only [unwind, getElem?_set_self hi, bind_eq_bind, bind_some, if_pos hle]
  rfl

theorem unwind_undo {fuel i : ℕ} {p : Option ℕ}
    (hfree : entries[i]? = some {}) (hlt : b < n) :
    unwind b (fuel + 1) (entries.set i ⟨p, n⟩) (some i) = unwind b fuel entries p := by
  obtain ⟨hi, hget⟩ := List.getElem?_eq_some_iff.mp hfree
  have hreset : (entries.set i ⟨p, n⟩).set i {} = entries := by
    rw [set_set, ← hget, set_getElem_self]
  have hnot : ¬ n ≤ b := UInt32.not_le.mpr hlt
  simp only [unwind, getElem?_set_self hi, bind_eq_bind, bind_some, if_neg hnot, hreset]

section
variable (hnum : ∀ a ∈ acts, a.2 ≠ notActive) (h : (ofSet pfs).init acts = .ok m)
include hnum h

theorem unwind_init :
    ∃ entries head,
      unwind b (acts.length + 1) m.builtinProtocolFeatures m.headOfBuiltinActivationList =
        some (entries, head) ∧
      (ofSet pfs).init (acts.filter fun a => a.2 ≤ b) = .ok { m with
        activatedProtocolFeatures :=
          m.activatedProtocolFeatures.rdropWhile fun e => b < e.activationBlockNum
        builtinProtocolFeatures := entries
        headOfBuiltinActivationList := head } := by
  induction acts using List.reverseRecOn generalizing m with
  | nil =>
    rw [init_nil, Except.ok.injEq] at h
    subst h
    exact ⟨_, _, rfl, rfl⟩
  | append_singleton acts a ih =>
    obtain ⟨d, n⟩ := a
    obtain ⟨m₀, h₀, hact⟩ := init_concat.mp h
    have hpastnum : ∀ a ∈ acts, a.2 ≠ notActive := fun a ha => hnum a (mem_append_left _ ha)
    have hpast := replayed_of_init hpastnum h₀
    have hsorted := (replayed_of_init hnum h).sorted
    obtain ⟨-, feature, -, -, codename, -, entry, hentry, hold, rfl⟩ :=
      activateFeature_eq_ok.mp hact
    by_cases hle : n ≤ b
    · -- the last activation stays, so all do
      have hall : (acts ++ [(d, n)]).filter (fun a => a.2 ≤ b) = acts ++ [(d, n)] := by
        refine filter_eq_self.mpr fun a ha => decide_eq_true ?_
        obtain ha | ha := mem_append.mp ha
        · exact UInt32.le_trans ((pairwise_append.mp hsorted).2.2 a ha (d, n) (by simp)) hle
        · rwa [mem_singleton.mp ha]
      have hnot : ¬ b < n := UInt32.not_lt.mpr hle
      refine ⟨_, _, unwind_kept (List.getElem?_eq_some_iff.mp hentry).1 hle, ?_⟩
      rw [hall, h, rdropWhile_concat_neg _ _ _ (by simpa using hnot)]
    · -- the last activation is taken back
      have hlt : b < n := UInt32.not_le.mp hle
      have hfree : m₀.builtinProtocolFeatures[codename.index]? = some {} := by
        rw [hentry, hpast.inactive entry (mem_of_getElem? hentry) hold]
      obtain ⟨entries, head, hrun, hkept⟩ := ih hpastnum h₀
      refine ⟨entries, head, ?_, ?_⟩
      · rw [length_append, unwind_undo hfree hlt]
        exact hrun
      · have hdrop : (acts ++ [(d, n)]).filter (fun a => a.2 ≤ b) =
            acts.filter fun a => a.2 ≤ b := by simp [hle]
        rw [hdrop, rdropWhile_concat_pos _ _ _ (by simpa using hlt)]
        exact hkept

theorem poppedBlocksTo_of_init (b : UInt32) :
    ∃ m', m.poppedBlocksTo b = .returns m' ∧
      (ofSet pfs).init (acts.filter fun a => a.2 ≤ b) = .ok m' := by
  have hm := replayed_of_init hnum h
  obtain ⟨entries, head, hrun, hkept⟩ := unwind_init hnum h
  have hfuel : acts.length + 1 ≤ m.builtinProtocolFeatures.length + 1 :=
    Nat.succ_le_succ (hm.count ▸ countP_le_length)
  refine ⟨_, ?_, hkept⟩
  rw [poppedBlocksTo, hm.initialized, unwind_mono hfuel hrun]
  rfl

end

theorem isBuiltinActivated_iff (hm : Replayed m acts) {f : BuiltinProtocolFeatureT}
    (hn : n < notActive) : m.isBuiltinActivated f n = true ↔
      ∃ e ∈ m.activatedProtocolFeatures, e.feature.builtinFeature = some f ∧
        e.activationBlockNum ≤ n := by
  have hentry : m.isBuiltinActivated f n = true ↔
      ∃ e, m.builtinProtocolFeatures[f.index]? = some e ∧ e.activationBlockNum ≤ n := by
    unfold isBuiltinActivated
    cases m.builtinProtocolFeatures[f.index]? with
    | none => simp
    | some e => simp
  have hne : ∀ k : UInt32, k ≤ n → k ≠ notActive := fun k hk =>
    lt_notActive_iff.mp (UInt32.lt_of_le_of_lt hk hn)
  rw [hentry]
  constructor
  · rintro ⟨e, he, hle⟩
    obtain ⟨e', he', hf, hnum⟩ := (hm.lookup f _ (hne _ hle)).mp ⟨e, he, rfl⟩
    exact ⟨e', he', hf, hnum ▸ hle⟩
  · rintro ⟨e, he, hf, hle⟩
    obtain ⟨e', he', hnum⟩ := (hm.lookup f _ (hne _ hle)).mpr ⟨e, he, hf, rfl⟩
    exact ⟨e', he', hnum ▸ hle⟩

end ProtocolFeatureManager

inductive ManagerCall
  | activateFeature (featureDigest : Digest) (blockNum : UInt32)
  | poppedBlocksTo (blockNum : UInt32)
deriving DecidableEq, Repr

namespace ManagerCall

def run (m : ProtocolFeatureManager) : ManagerCall → Outcome Failure ProtocolFeatureManager
  | activateFeature d n => .ofExcept (m.activateFeature d n)
  | poppedBlocksTo b => m.poppedBlocksTo b

def runAll (pfs : ProtocolFeatureSet) (calls : List ManagerCall) :
    Outcome Failure ProtocolFeatureManager := do
  let m ← .ofExcept ((ProtocolFeatureManager.ofSet pfs).init [])
  calls.foldlM run m

def popped : List ManagerCall → List UInt32
  | [] => []
  | activateFeature _ _ :: calls => popped calls
  | poppedBlocksTo b :: calls => b :: popped calls

def surviving : List ManagerCall → List (Digest × UInt32)
  | [] => []
  | activateFeature d n :: calls =>
    if (popped calls).all (n ≤ ·) then (d, n) :: surviving calls else surviving calls
  | poppedBlocksTo _ :: calls => surviving calls

theorem popped_append (calls later : List ManagerCall) :
    popped (calls ++ later) = popped calls ++ popped later := by
  induction calls with
  | nil => rfl
  | cons c calls ih =>
    cases c with
    | activateFeature d n => exact ih
    | poppedBlocksTo b => exact congrArg (b :: ·) ih

theorem surviving_concat_activateFeature (calls : List ManagerCall) (d : Digest) (n : UInt32) :
    surviving (calls ++ [activateFeature d n]) = surviving calls ++ [(d, n)] := by
  induction calls with
  | nil => rfl
  | cons c calls ih =>
    cases c with
    | activateFeature d' n' =>
      simp only [cons_append, surviving, popped_append, popped, append_nil, ih]
      split <;> rfl
    | poppedBlocksTo b => exact ih

theorem surviving_concat_poppedBlocksTo (calls : List ManagerCall) (b : UInt32) :
    surviving (calls ++ [poppedBlocksTo b]) = (surviving calls).filter fun a => a.2 ≤ b := by
  induction calls with
  | nil => rfl
  | cons c calls ih =>
    cases c with
    | activateFeature d n =>
      simp only [cons_append, surviving, popped_append, popped, ih, all_append,
        all_cons, all_nil, Bool.and_true]
      by_cases hb : n ≤ b
      · rw [decide_eq_true hb, Bool.and_true]
        split
        · rw [filter_cons_of_pos (by simpa using hb)]
        · rfl
      · rw [decide_eq_false hb, Bool.and_false, if_neg Bool.false_ne_true]
        split
        · rw [filter_cons_of_neg (by simpa using hb)]
        · rfl
    | poppedBlocksTo b' => exact ih

variable {calls : List ManagerCall}

theorem mem_of_mem_surviving {a : Digest × UInt32}
    (h : a ∈ surviving calls) : activateFeature a.1 a.2 ∈ calls := by
  induction calls with
  | nil => cases h
  | cons c calls ih =>
    cases c with
    | activateFeature d n =>
      simp only [surviving] at h
      split at h
      · obtain rfl | h := mem_cons.mp h
        · exact mem_cons_self
        · exact mem_cons_of_mem _ (ih h)
      · exact mem_cons_of_mem _ (ih h)
    | poppedBlocksTo b => exact mem_cons_of_mem _ (ih h)

variable {pfs : ProtocolFeatureSet}

theorem runAll_concat {c : ManagerCall}
    {m' : ProtocolFeatureManager} : runAll pfs (calls ++ [c]) = .returns m' ↔
      ∃ m, runAll pfs calls = .returns m ∧ run m c = .returns m' := by
  simp only [runAll, foldlM_append, bind_eq_returns, foldlM_cons, foldlM_nil, pure_eq_returns]
  simp only [exists_eq_right]
  constructor
  · rintro ⟨m₀, h₀, m, hm, hrun⟩
    exact ⟨m, ⟨m₀, h₀, hm⟩, hrun⟩
  · rintro ⟨m, ⟨m₀, h₀, hm⟩, hrun⟩
    exact ⟨m₀, h₀, m, hm, hrun⟩

theorem init_surviving {m : ProtocolFeatureManager}
    (hnum : ∀ d n, activateFeature d n ∈ calls → n ≠ notActive)
    (h : runAll pfs calls = .returns m) :
    (ProtocolFeatureManager.ofSet pfs).init (surviving calls) = .ok m := by
  induction calls using List.reverseRecOn generalizing m with
  | nil => simpa [runAll, surviving, bind_eq_returns, pure_eq_returns] using h
  | append_singleton calls c ih =>
    obtain ⟨m₀, h₀, hrun⟩ := runAll_concat.mp h
    have hpast := ih (fun d n hmem => hnum d n (mem_append_left _ hmem)) h₀
    cases c with
    | activateFeature d n =>
      rw [surviving_concat_activateFeature]
      exact ProtocolFeatureManager.init_concat.mpr ⟨m₀, hpast, by simpa [run] using hrun⟩
    | poppedBlocksTo b =>
      have hacts : ∀ a ∈ surviving calls, a.2 ≠ notActive := fun a ha =>
        hnum a.1 a.2 (mem_append_left _ (mem_of_mem_surviving ha))
      obtain ⟨m', hpop, hinit⟩ := ProtocolFeatureManager.poppedBlocksTo_of_init hacts hpast b
      rw [surviving_concat_poppedBlocksTo, hinit]
      simp only [run, hpop, returns.injEq] at hrun
      rw [hrun]

end ManagerCall

open ManagerCall in
/-- After any successful calls the manager is the one that replays the surviving activations,
it tells which builtin features are active by its list, and it can pop any blocks. -/
theorem feature_manager_follows_chain {pfs : ProtocolFeatureSet} {calls : List ManagerCall}
    {m : ProtocolFeatureManager}
    (hnum : ∀ d n, activateFeature d n ∈ calls → n < notActive)
    (h : runAll pfs calls = .returns m) :
    (ProtocolFeatureManager.ofSet pfs).init (surviving calls) = .ok m ∧
    (∀ f n, n < notActive → (m.isBuiltinActivated f n = true ↔
      ∃ e ∈ m.activatedProtocolFeatures, e.feature.builtinFeature = some f ∧
        e.activationBlockNum ≤ n)) ∧
    ∀ b, ∃ m', m.poppedBlocksTo b = .returns m' := by
  have hne : ∀ d n, activateFeature d n ∈ calls → n ≠ notActive := fun d n hmem =>
    lt_notActive_iff.mp (hnum d n hmem)
  have hacts : ∀ a ∈ surviving calls, a.2 ≠ notActive := fun a ha =>
    hne a.1 a.2 (mem_of_mem_surviving ha)
  have hinit := init_surviving hne h
  refine ⟨hinit, fun f n hn => ?_, fun b => ?_⟩
  · exact ProtocolFeatureManager.isBuiltinActivated_iff
      (ProtocolFeatureManager.replayed_of_init hacts hinit) hn
  · obtain ⟨m', hpop, -⟩ := ProtocolFeatureManager.poppedBlocksTo_of_init hacts hinit b
    exact ⟨m', hpop⟩

def twoFeatures : ProtocolFeatureSet :=
  ⟨[⟨1, 1, [], 0, false, true, some .preactivateFeature⟩,
      ⟨2, 2, [1], 0, true, true, some .onlyLinkToExistingPermission⟩],
    [some 1, some 2]⟩

open ManagerCall in
theorem feature_manager_after_fork : ∃ m,
    runAll twoFeatures [activateFeature 1 5, activateFeature 2 7, poppedBlocksTo 6,
      activateFeature 2 7] = .returns m ∧
    (ProtocolFeatureManager.ofSet twoFeatures).init [(1, 5), (2, 7)] = .ok m ∧
    (m.isBuiltinActivated .onlyLinkToExistingPermission 6 = true ↔
      ∃ e ∈ m.activatedProtocolFeatures,
        e.feature.builtinFeature = some .onlyLinkToExistingPermission ∧
        e.activationBlockNum ≤ 6) := by
  obtain ⟨m, hm⟩ := isReturns_iff.mp (by decide +kernel :
    (runAll twoFeatures [activateFeature 1 5, activateFeature 2 7, poppedBlocksTo 6,
      activateFeature 2 7]).isReturns = true)
  have hnum : ∀ d n, activateFeature d n ∈ [activateFeature 1 5, activateFeature 2 7,
      poppedBlocksTo 6, activateFeature 2 7] → n < notActive := by
    intro d n hmem
    simp only [mem_cons, activateFeature.injEq, not_mem_nil, reduceCtorEq, false_or,
      or_false] at hmem
    obtain ⟨-, rfl⟩ | ⟨-, rfl⟩ | ⟨-, rfl⟩ := hmem <;> decide
  obtain ⟨hinit, hactive, -⟩ := feature_manager_follows_chain hnum hm
  exact ⟨m, hm, hinit, hactive _ 6 (by decide)⟩

end FlonCore
