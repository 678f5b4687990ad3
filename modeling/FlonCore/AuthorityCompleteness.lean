import FlonCore.AuthoritySoundness
import FlonCore.Library.Assoc

/-!
# When the authority checker finds every granted permission

The cache remembers that a permission is not satisfied also when a cycle or the depth
limit kept it from being evaluated to the end, and that answer is used wherever the
permission is needed later. Where the permissions below the one that is asked form no
cycle and stay within the limit, nothing is cut short: the answer is then exactly
whether the permission is granted, in whatever order accounts are listed.
-/

namespace FlonCore
open Library Function List Option
open ThresholdRule
variable {Key : Type}

structure Authority.Regular (auth : Authority Key) : Prop where
  threshold : auth.threshold ≠ 0
  weights : (auth.factors.map fun f => f.weight.toNat).sum < 2 ^ 32

theorem Authority.Regular.of_validate [LinearOrder Key] {auth : Authority Key}
    (h : auth.validate = true) : auth.Regular := by
  unfold Authority.validate at h
  split_ifs at h with hsize hthreshold
  refine ⟨hthreshold, ?_⟩
  have hlength : auth.factors.length ≤ 2 ^ 16 := by
    rw [auth.factors_perm.length_eq]
    simp only [List.length_append, List.length_map]
    omega
  have hsum : (auth.factors.map fun f => f.weight.toNat).sum ≤
      auth.factors.length * (2 ^ 16 - 1) := by
    refine (List.sum_le_card_nsmul _ (2 ^ 16 - 1) ?_).trans_eq (by simp)
    simp only [List.mem_map]
    rintro _ ⟨f, -, rfl⟩
    have hlt := f.weight.toNat_lt
    omega
  calc (auth.factors.map fun f => f.weight.toNat).sum
      ≤ auth.factors.length * (2 ^ 16 - 1) := hsum
    _ ≤ 2 ^ 16 * (2 ^ 16 - 1) := Nat.mul_le_mul_right _ hlength
    _ < 2 ^ 32 := by norm_num

namespace AuthorityChecker
variable [DecidableEq Key] {checker : AuthorityChecker Key} {p q : PermissionLevel}

structure Exact (checker : AuthorityChecker Key) (cache : PermissionCache) : Prop
    extends checker.Sound cache where
  unsatisfied : ∀ p, cache p = some .permissionUnsatisfied → ¬ checker.Granted p
  given : ∀ p, checker.grants.given p →
    permissionStatusInCache cache p = some .permissionSatisfied

variable {cache : PermissionCache} {s : CheckerState Key} {auth : Authority Key}

theorem initializePermissionCache_exact : checker.Exact checker.initializePermissionCache := by
  refine ⟨initializePermissionCache_sound, ?_, ?_⟩
  · intro p hp
    unfold initializePermissionCache at hp
    split_ifs at hp
    exact absurd hp (by simp)
  · rintro p (h | h)
    · simp [permissionStatusInCache, initializePermissionCache, h]
    · unfold permissionStatusInCache initializePermissionCache
      split_ifs <;> rfl

theorem status_eq_none (h : permissionStatusInCache cache p = none) : cache p = none := by
  unfold permissionStatusInCache at h
  cases hp : cache p with
  | none => rfl
  | some status => simp [hp] at h

theorem Exact.status (h : checker.Exact cache) {status : PermissionCacheStatus}
    (hstatus : permissionStatusInCache cache p = some status)
    (hne : status ≠ .permissionSatisfied) : cache p = some status := by
  unfold permissionStatusInCache at hstatus
  cases hp : cache p with
  | some status' => rwa [hp] at hstatus
  | none =>
    rw [hp] at hstatus
    have hgiven := h.given ⟨p.actor, 0⟩ (.inl (h.unnamed (by simp [hstatus])))
    simp only [permissionStatusInCache, hstatus, Option.some.injEq] at hgiven
    exact absurd hgiven hne

theorem Exact.not_given (h : checker.Exact cache)
    (hnone : permissionStatusInCache cache p = none) : ¬ checker.grants.given p := by
  intro hgiven
  rw [h.given p hgiven] at hnone
  exact absurd hnone (by simp)

theorem Exact.update (h : checker.Exact cache) (hnot : ¬ checker.grants.given p)
    (hauth : checker.permissionToAuthority p = some auth) (status : PermissionCacheStatus)
    (hsat : status = .permissionSatisfied → checker.Granted p)
    (hunsat : status = .permissionUnsatisfied → ¬ checker.Granted p) :
    checker.Exact (update cache p (some status)) := by
  refine ⟨h.toSound.update hauth hsat, ?_, ?_⟩
  · intro q hq
    by_cases hqp : q = p
    · subst hqp
      rw [update_self] at hq
      exact hunsat (Option.some.inj hq)
    · rw [update_of_ne hqp] at hq
      exact h.unsatisfied q hq
  · intro q hq
    have hstatus := h.given q hq
    have hqp : q ≠ p := by
      rintro rfl
      exact hnot hq
    have hactor : (⟨q.actor, 0⟩ : PermissionLevel) ≠ p := by
      rintro rfl
      exact permissionToAuthority_named hauth rfl
    unfold permissionStatusInCache at hstatus ⊢
    rwa [update_of_ne hqp, update_of_ne hactor]

variable (checker)

def Free (cache : PermissionCache) (p : PermissionLevel) : Prop :=
  ∀ q, Relation.ReflTransGen checker.grants.Edge p q → cache q ≠ some .beingEvaluated

structure Answers (s : CheckerState Key) (G : Prop) (res : Bool × CheckerState Key) : Prop where
  exact : checker.Exact res.2.cache
  answer : res.1 = true ↔ G
  evaluated : ∀ q, res.2.cache q = some .beingEvaluated ↔ s.cache q = some .beingEvaluated

structure Ready (n : ℕ) (cache : PermissionCache) (auth : Authority Key) : Prop where
  regular : auth.Regular
  depth : ∀ a ∈ auth.accounts, checker.grants.WithinDepth n a.permission
  free : ∀ a ∈ auth.accounts, checker.Free cache a.permission

variable {checker}

theorem Ready.of_evaluated {n : ℕ} {cache' : PermissionCache} (h : checker.Ready n cache auth)
    (hevaluated : ∀ q, cache' q = some .beingEvaluated ↔ cache q = some .beingEvaluated) :
    checker.Ready n cache' auth :=
  ⟨h.regular, h.depth, fun a ha q hq hbeing => h.free a ha q hq ((hevaluated q).mp hbeing)⟩

theorem not_granted_of_none (hgiven : ¬ checker.grants.given p)
    (hauth : checker.permissionToAuthority p = none) : ¬ checker.Granted p := by
  intro h
  have hrule : checker.grants.rule p = none := congrArg (Option.map checker.rule) hauth
  rcases ThresholdSystem.derives_iff.mp h with hp | ⟨r, hr, -⟩
  · exact hgiven hp
  · rw [hrule] at hr
    exact absurd hr (by simp)

variable {n : ℕ} {nested : Option (Evaluator Key)}

def NestedAnswers (checker : AuthorityChecker Key) (n : ℕ) (nested : Option (Evaluator Key)) :
    Prop :=
  ∀ m, n = m + 1 → ∃ ev, nested = some ev ∧ ∀ auth s, checker.Exact s.cache →
    checker.Ready m s.cache auth →
      checker.Answers s ((checker.rule auth).Met checker.Granted) (ev auth s)

theorem Exact.cached (h : checker.Exact s.cache) (hfree : checker.Free s.cache p)
    {status : PermissionCacheStatus} (hstatus : permissionStatusInCache s.cache p = some status) :
    checker.Answers s (checker.Granted p) (status == .permissionSatisfied, s) := by
  refine ⟨h, ?_, fun _ => Iff.rfl⟩
  cases status with
  | permissionSatisfied => exact iff_of_true rfl (h.toSound.status hstatus)
  | permissionUnsatisfied =>
    exact iff_of_false (by simp) (h.unsatisfied p (h.status hstatus (by simp)))
  | beingEvaluated => exact absurd (h.status hstatus (by simp)) (hfree p .refl)

section
variable (hgiven : ¬ checker.grants.given p) (hauth : checker.permissionToAuthority p = some auth)
include hauth

theorem grants_rule :
    checker.grants.rule p = some (checker.rule auth) :=
  congrArg (Option.map checker.rule) hauth

include hgiven

theorem granted_iff_met : checker.Granted p ↔ (checker.rule auth).Met checker.Granted := by
  constructor
  · intro h
    rcases ThresholdSystem.derives_iff.mp h with hp | ⟨r, hr, hmet⟩
    · exact absurd hp hgiven
    · cases (grants_rule hauth).symm.trans hr
      exact hmet
  · exact .of_met (grants_rule hauth)

theorem edge_of_account {a : PermissionLevelWeight} (ha : a ∈ auth.accounts) :
    checker.grants.Edge p a.permission := by
  refine ⟨checker.rule auth, ⟨hgiven, grants_rule hauth⟩, a.weight.toNat, ?_⟩
  exact mem_map_of_mem ha

theorem Ready.of_expand (hregular : auth.Regular)
    (hdepth : checker.grants.WithinDepth (n + 1) p) (hfree : checker.Free s.cache p) :
    checker.Ready n (update s.cache p (some .beingEvaluated)) auth := by
  refine ⟨hregular, fun a ha => hdepth _ (edge_of_account hgiven hauth ha), fun a ha q hq => ?_⟩
  have hedge := edge_of_account hgiven hauth ha
  have hqp : q ≠ p := by
    rintro rfl
    exact hdepth.not_loop (.head' hedge hq)
  rw [update_of_ne hqp]
  exact hfree q (.head hedge hq)

theorem Answers.close {res : Bool × CheckerState Key} (hnone : s.cache p = none)
    (h : checker.Answers { s with cache := update s.cache p (some .beingEvaluated) }
      (checker.Granted p) res) : checker.Answers s (checker.Granted p) (res.1, { res.2 with
      cache := update res.2.cache p
        (some (if res.1 then .permissionSatisfied else .permissionUnsatisfied)) }) := by
  refine ⟨h.exact.update hgiven hauth _ ?_ ?_, h.answer, fun q => ?_⟩
  · intro hstatus
    refine h.answer.mp ?_
    by_contra hfalse
    simp [hfalse] at hstatus
  · intro hstatus hgranted
    simp [h.answer.mpr hgranted] at hstatus
  · have hevaluated := h.evaluated q
    dsimp only at hevaluated ⊢
    by_cases hqp : q = p
    · subst hqp
      rw [update_self, hnone]
      split_ifs <;> simp
    · rwa [update_of_ne hqp] at hevaluated ⊢

end

def AllRegular (checker : AuthorityChecker Key) : Prop :=
  ∀ p auth, checker.permissionToAuthority p = some auth → auth.Regular

variable {total : UInt32} {f : Factor Key}

omit [DecidableEq Key] in
theorem addTo_eq {counts : Bool} {P : PermissionLevel → Prop}
    (h : counts = true ↔ checker.Earned P f) (hfits : total.toNat + f.weight.toNat < 2 ^ 32) :
    (f.addTo counts total).toNat = total.toNat + checker.earnedWeight P f := by
  unfold Factor.addTo
  split_ifs with hcounts
  · rw [earnedWeight, if_pos (h.mp hcounts), UInt32.toNat_add, UInt16.toNat_toUInt32,
      Nat.mod_eq_of_lt hfits]
  · rw [earnedWeight, if_neg fun hearned => hcounts (h.mpr hearned), add_zero]

structure Tallied (checker : AuthorityChecker Key) (auth : Authority Key)
    (start : CheckerState Key) (rest : List (Factor Key)) (total : UInt32)
    (s : CheckerState Key) : Prop where
  exact : checker.Exact s.cache
  evaluated : ∀ q, s.cache q = some .beingEvaluated ↔ start.cache q = some .beingEvaluated
  mem : ∀ f ∈ rest, f ∈ auth.factors
  sum : total.toNat + (rest.map (checker.earnedWeight checker.Granted)).sum =
    (checker.rule auth).weight checker.Granted
  fits : total.toNat + (rest.map fun f => f.weight.toNat).sum < 2 ^ 32
  below : ¬ auth.threshold ≤ total

theorem Tallied.start (h : checker.Exact s.cache) (hready : checker.Ready n s.cache auth) :
    checker.Tallied auth s auth.factors 0 s := by
  refine ⟨h, fun _ => Iff.rfl, fun _ hf => hf, ?_, ?_, ?_⟩
  · rw [sum_earnedWeight]
    exact Nat.zero_add _
  · simpa using hready.regular.weights
  · intro hle
    exact hready.regular.threshold (UInt32.toNat_inj.mp (Nat.le_zero.mp hle))

variable {start : CheckerState Key} {rest : List (Factor Key)}

section
variable (h : checker.Tallied auth start (f :: rest) total s)
  (hvisit : checker.Answers s (checker.Earned checker.Granted f) (checker.visit nested f s))
include h hvisit

theorem Tallied.visit :
    (f.addTo (checker.visit nested f s).1 total).toNat +
        (rest.map (checker.earnedWeight checker.Granted)).sum =
      (checker.rule auth).weight checker.Granted ∧
    (f.addTo (checker.visit nested f s).1 total).toNat + (rest.map fun f => f.weight.toNat).sum <
      2 ^ 32 := by
  have htotal := h.sum
  have hfits := h.fits
  rw [map_cons, sum_cons] at htotal hfits
  have hadd : (f.addTo (checker.visit nested f s).1 total).toNat =
      total.toNat + checker.earnedWeight checker.Granted f :=
    addTo_eq hvisit.answer (by omega)
  have hle : checker.earnedWeight checker.Granted f ≤ f.weight.toNat := by
    unfold earnedWeight
    split_ifs <;> omega
  omega

theorem Tallied.next
    (hbelow : ¬ auth.threshold ≤ f.addTo (checker.visit nested f s).1 total) :
    checker.Tallied auth start rest (f.addTo (checker.visit nested f s).1 total)
      (checker.visit nested f s).2 := by
  obtain ⟨htotal, hfits⟩ := h.visit hvisit
  exact ⟨hvisit.exact, fun q => (hvisit.evaluated q).trans (h.evaluated q),
    fun g hg => h.mem g (mem_cons_of_mem f hg), htotal, hfits, hbelow⟩

end

section
variable (hregular : checker.AllRegular) (hnested : checker.NestedAnswers n nested)
  (h : checker.Exact s.cache)
include hregular hnested h

theorem visitPermission_answers (hdepth : checker.grants.WithinDepth n p)
    (hfree : checker.Free s.cache p) :
    checker.Answers s (checker.Granted p) (checker.visitPermission nested p s) := by
  unfold visitPermission
  cases hstatus : permissionStatusInCache s.cache p with
  | some status => exact h.cached hfree hstatus
  | none =>
    have hgiven := h.not_given hstatus
    have hunknown (hnot : ¬ checker.Granted p) : checker.Answers s (checker.Granted p) (false, s) :=
      ⟨h, iff_of_false (by simp) hnot, fun _ => Iff.rfl⟩
    cases hauth : checker.permissionToAuthority p with
    | none =>
      have hnot := hunknown (not_granted_of_none hgiven hauth)
      cases nested with
      | none => exact hnot
      | some ev => exact hnot
    | some auth =>
      cases n with
      | zero => exact absurd ⟨hgiven, grants_rule hauth⟩ (hdepth _)
      | succ m =>
        obtain ⟨ev, rfl, hev⟩ := hnested m rfl
        have hexact := h.update hgiven hauth .beingEvaluated (by simp) (by simp)
        have hres := hev auth { s with cache := update s.cache p (some .beingEvaluated) }
          hexact (.of_expand hgiven hauth (hregular p auth hauth) hdepth hfree)
        rw [← granted_iff_met hgiven hauth] at hres
        exact hres.close hgiven hauth (status_eq_none hstatus)

variable (hready : checker.Ready n s.cache auth)
include hready

theorem visit_answers (hf : f ∈ auth.factors) :
    checker.Answers s (checker.Earned checker.Granted f) (checker.visit nested f s) := by
  cases f with
  | account a =>
    have ha : a ∈ auth.accounts := by simpa using auth.factors_perm.mem_iff.mp hf
    exact visitPermission_answers hregular hnested h (hready.depth a ha) (hready.free a ha)
  | key k =>
    change checker.Answers s (k.key ∈ checker.providedKeys) (checker.visitKey k.key s)
    unfold visitKey
    split_ifs with hk
    · exact ⟨h, iff_of_true rfl hk, fun _ => Iff.rfl⟩
    · exact ⟨h, iff_of_false (by simp) hk, fun _ => Iff.rfl⟩
  | wait w => exact ⟨h, Iff.rfl, fun _ => Iff.rfl⟩

omit h hready in
theorem Tallied.visit_answers (h : checker.Tallied auth start (f :: rest) total s)
    (hready : checker.Ready n start.cache auth) :
    checker.Answers s (checker.Earned checker.Granted f) (checker.visit nested f s) :=
  AuthorityChecker.visit_answers hregular hnested h.exact (hready.of_evaluated h.evaluated)
    (h.mem f mem_cons_self)

theorem tally_answers :
    checker.Answers s ((checker.rule auth).Met checker.Granted)
      (checker.tally nested auth.threshold auth.factors 0 s) := by
  refine tally_rule (I := checker.Tallied auth s)
    (Q := fun r s' => checker.Answers s ((checker.rule auth).Met checker.Granted) (r, s'))
    ?_ ?_ ?_ (.start h hready)
  · intro f rest total s' hs' hreached
    have hres := hs'.visit_answers hregular hnested hready
    obtain ⟨htotal, -⟩ := hs'.visit hres
    rw [UInt32.le_iff_toNat_le] at hreached
    refine ⟨hres.exact, iff_of_true rfl (hreached.trans (by omega)), fun q => ?_⟩
    exact (hres.evaluated q).trans (hs'.evaluated q)
  · intro f rest total s' hs' hbelow
    exact hs'.next (hs'.visit_answers hregular hnested hready) hbelow
  · intro total s' hs'
    have htotal := hs'.sum
    have hbelow := hs'.below
    refine ⟨hs'.exact, iff_of_false (by simp) fun hmet => hbelow ?_, hs'.evaluated⟩
    exact hmet.trans_eq (by simpa using htotal.symm)

theorem evaluate_answers :
    checker.Answers s ((checker.rule auth).Met checker.Granted)
      (checker.evaluate nested auth s) := by
  obtain ⟨hexact, hanswer, hevaluated⟩ := tally_answers hregular hnested h hready
  unfold evaluate
  dsimp only
  split_ifs
  · exact ⟨hexact, hanswer, hevaluated⟩
  · exact ⟨hexact, hanswer, hevaluated⟩

end

theorem nested_answers (hregular : checker.AllRegular) (n : ℕ) :
    checker.NestedAnswers n (checker.nested n) := by
  induction n with
  | zero => exact fun m hm => absurd hm (by simp)
  | succ n ih =>
    rintro m hm
    cases hm
    exact ⟨_, rfl, fun auth s h hready => evaluate_answers hregular ih h hready⟩

theorem satisfied_answers (hregular : checker.AllRegular)
    (hdepth : checker.grants.WithinDepth checker.recursionDepthLimit.toNat p)
    (usedKeys : Finset Key) :
    (checker.satisfied p ⟨checker.initializePermissionCache, usedKeys⟩).1 = true ↔
      checker.Granted p := by
  refine (visitPermission_answers hregular (nested_answers hregular _)
    initializePermissionCache_exact hdepth ?_).answer
  intro q _ hbeing
  dsimp only [initializePermissionCache] at hbeing
  split_ifs at hbeing
  exact absurd hbeing (by simp)

structure ReorderedAuthority (a b : Authority Key) : Prop where
  threshold : a.threshold = b.threshold
  keys : a.keys = b.keys
  accounts : a.accounts.Perm b.accounts
  waits : a.waits = b.waits

structure Reordered (checker checker' : AuthorityChecker Key) : Prop where
  permissions : ∀ level, Option.Rel ReorderedAuthority (checker.permissions level)
    (checker'.permissions level)
  recursionDepthLimit : checker.recursionDepthLimit = checker'.recursionDepthLimit
  providedKeys : checker.providedKeys = checker'.providedKeys
  providedPermissions : checker.providedPermissions = checker'.providedPermissions
  providedDelay : checker.providedDelay = checker'.providedDelay

variable {checker' : AuthorityChecker Key} {auth' : Authority Key}

omit [DecidableEq Key] in
theorem ReorderedAuthority.symm (h : ReorderedAuthority auth auth') :
    ReorderedAuthority auth' auth :=
  ⟨h.threshold.symm, h.keys.symm, h.accounts.symm, h.waits.symm⟩

omit [DecidableEq Key] in
theorem permissionToAuthority_eq (level : PermissionLevel) : checker.permissionToAuthority level =
    if level.actor ≠ 0 ∧ level.permission ≠ 0 then checker.permissions level else none := by
  unfold permissionToAuthority findPermission eosAssert
  by_cases hactor : level.actor = 0
  · simp [hactor, bind, Except.bind]
  · by_cases hpermission : level.permission = 0
    · simp [hpermission, bind, Except.bind]
    · simp [hactor, hpermission, bind, Except.bind, pure, Except.pure]

omit [DecidableEq Key] in
theorem permissions_of_authority (h : checker.permissionToAuthority p = some auth) :
    checker.permissions p = some auth := by
  rw [permissionToAuthority_eq] at h
  split_ifs at h
  exact h

section
variable (h : checker.Reordered checker')
include h

omit [DecidableEq Key] in
theorem Reordered.symm : checker'.Reordered checker := by
  refine ⟨fun level => ?_, h.recursionDepthLimit.symm, h.providedKeys.symm,
    h.providedPermissions.symm, h.providedDelay.symm⟩
  have hlevel := h.permissions level
  generalize checker.permissions level = a at hlevel
  generalize checker'.permissions level = b at hlevel
  cases hlevel with
  | some hrel => exact .some hrel.symm
  | none => exact .none

omit [DecidableEq Key] in
theorem Reordered.exists_authority (hauth : checker.permissionToAuthority p = some auth) :
    ∃ auth', checker'.permissionToAuthority p = some auth' ∧ ReorderedAuthority auth auth' := by
  have hlevel := h.permissions p
  rw [permissionToAuthority_eq] at hauth
  split_ifs at hauth with hnamed
  rw [hauth] at hlevel
  generalize hauth' : checker'.permissions p = b at hlevel
  cases hlevel with
  | some hrel => exact ⟨_, by rw [permissionToAuthority_eq, if_pos hnamed, hauth'], hrel⟩

theorem Reordered.met (hauth : ReorderedAuthority auth auth') {P : PermissionLevel → Prop}
    (hmet : (checker.rule auth).Met P) : (checker'.rule auth').Met P := by
  have hwait : checker'.visitWait = checker.visitWait := by
    funext w
    rw [visitWait, visitWait, h.providedDelay]
  have hweight : (checker'.rule auth').weight P = (checker.rule auth).weight P := by
    unfold weight
    congr 1
    · simp only [rule, hwait, h.providedKeys, hauth.keys, hauth.waits]
    · exact ((hauth.accounts.symm.map _).map _).sum_eq
  unfold ThresholdRule.Met
  rw [hweight]
  exact (congrArg UInt32.toNat hauth.threshold).symm.trans_le hmet

theorem Reordered.given_iff (q : PermissionLevel) :
    checker.grants.given q ↔ checker'.grants.given q := by
  change _ ∈ _ ∨ _ ∈ _ ↔ _ ∈ _ ∨ _ ∈ _
  rw [h.providedPermissions]

theorem Reordered.granted (hp : checker.Granted p) : checker'.Granted p := by
  refine ThresholdSystem.Derives.map (fun q => (h.given_iff q).mp) ?_ hp
  intro q r hr
  obtain ⟨auth, hauth, rfl⟩ := map_eq_some_iff.mp hr
  obtain ⟨auth', hauth', hrel⟩ := h.exists_authority hauth
  exact ⟨checker'.rule auth', grants_rule hauth', fun P hmet => h.met hrel hmet⟩

theorem Reordered.expands {r : ThresholdRule PermissionLevel} (hr : checker.grants.Expands p r) :
    ∃ auth auth', r = checker.rule auth ∧ ReorderedAuthority auth auth' ∧
      checker'.grants.Expands p (checker'.rule auth') := by
  obtain ⟨hgiven, hrule⟩ := hr
  obtain ⟨auth, hauth, rfl⟩ := map_eq_some_iff.mp hrule
  obtain ⟨auth', hauth', hrel⟩ := h.exists_authority hauth
  exact ⟨auth, auth', rfl, hrel, fun hq => hgiven ((h.given_iff p).mpr hq), grants_rule hauth'⟩

theorem Reordered.withinDepth {n : ℕ} (hdepth : checker.grants.WithinDepth n p) :
    checker'.grants.WithinDepth n p := by
  refine hdepth.map ?_ ?_
  · intro q r hr
    obtain ⟨auth, auth', -, -, hexpands⟩ := h.symm.expands hr
    exact ⟨_, hexpands⟩
  · rintro q q' ⟨r, hr, w, hw⟩
    obtain ⟨auth, auth', rfl, hrel, hexpands⟩ := h.symm.expands hr
    exact ⟨_, hexpands, w, (hrel.accounts.map _).mem_iff.mp hw⟩

end

omit [DecidableEq Key] in
theorem ReorderedAuthority.regular (h : ReorderedAuthority auth auth') (hauth : auth.Regular) :
    auth'.Regular := by
  have hperm : auth'.factors.Perm auth.factors := by
    refine auth'.factors_perm.trans (.trans ?_ auth.factors_perm.symm)
    rw [h.keys, h.waits]
    exact ((h.accounts.symm.map _).append_right _).append_right _
  refine ⟨h.threshold ▸ hauth.threshold, ?_⟩
  rw [(hperm.map _).sum_eq]
  exact hauth.weights

/-- Where no cycle and no depth limit cuts the evaluation short, a permission is accepted
exactly if it is granted, in whatever order the accounts are listed. -/
theorem satisfied_complete [LinearOrder Key] (checker : AuthorityChecker Key)
    (hvalid : ∀ level auth, checker.permissions level = some auth → auth.validate = true)
    {p : PermissionLevel}
    (hdepth : checker.grants.WithinDepth checker.recursionDepthLimit.toNat p)
    (usedKeys : Finset Key) :
    ((checker.satisfiedAlone p usedKeys).1 = true ↔
      checker.grants.DerivesIn checker.recursionDepthLimit.toNat p) ∧
    ∀ checker', checker.Reordered checker' →
      (checker'.satisfiedAlone p usedKeys).1 = (checker.satisfiedAlone p usedKeys).1 := by
  have hregular : checker.AllRegular := fun q auth hauth =>
    .of_validate (hvalid q auth (permissions_of_authority hauth))
  have hanswer := satisfied_answers hregular hdepth usedKeys
  refine ⟨hanswer.trans hdepth.derives_iff, fun checker' h => ?_⟩
  have hregular' : checker'.AllRegular := by
    intro q auth' hauth'
    obtain ⟨auth, hauth, hrel⟩ := h.symm.exists_authority hauth'
    exact hrel.symm.regular (hregular q auth hauth)
  have hanswer' := satisfied_answers hregular'
    (h.recursionDepthLimit ▸ h.withinDepth hdepth) usedKeys
  rw [Bool.eq_iff_iff]
  exact hanswer'.trans (.trans ⟨h.symm.granted, h.granted⟩ hanswer.symm)

def listedChecker (permissions : List (PermissionLevel × Authority ℕ)) (limit : UInt16) :
    AuthorityChecker ℕ where
  permissions := find permissions
  recursionDepthLimit := limit
  providedKeys := {8}
  providedPermissions := ∅
  providedDelay := 0

def active (actor : AccountName) : PermissionLevel := ⟨actor, 1⟩

theorem listedChecker_valid {permissions : List (PermissionLevel × Authority ℕ)} {limit : UInt16}
    (hkeys : (keysOf permissions).Nodup) (h : ∀ e ∈ permissions, e.2.validate = true)
    (level : PermissionLevel) (auth : Authority ℕ)
    (hauth : (listedChecker permissions limit).permissions level = some auth) :
    auth.validate = true :=
  h _ ((find_eq_some hkeys).mp hauth)

theorem withinDepth_succ (h : ∀ auth, checker.permissionToAuthority p = some auth →
    ∀ a ∈ auth.accounts, checker.grants.WithinDepth n a.permission) :
    checker.grants.WithinDepth (n + 1) p := by
  rintro q ⟨r, ⟨-, hr⟩, w, hw⟩
  obtain ⟨auth, hauth, rfl⟩ := map_eq_some_iff.mp hr
  obtain ⟨a, ha, hq⟩ := mem_map.mp hw
  cases hq
  exact h auth hauth a ha

theorem derivesIn_succ {n : ℕ} {auth : Authority Key}
    (hauth : checker.permissionToAuthority p = some auth)
    (h : (checker.rule auth).Met (checker.grants.DerivesIn n)) :
    checker.grants.DerivesIn (n + 1) p :=
  .inr ⟨_, grants_rule hauth, h⟩

def loopPermissions : List (PermissionLevel × Authority ℕ) :=
  [(active 1, ⟨2, [], [⟨active 2, 1⟩, ⟨active 3, 1⟩], []⟩),
    (active 2, ⟨1, [⟨8, 1⟩], [⟨active 3, 2⟩], []⟩),
    (active 3, ⟨1, [], [⟨active 2, 1⟩], []⟩)]

def swappedPermissions : List (PermissionLevel × Authority ℕ) :=
  [(active 1, ⟨2, [], [⟨active 3, 1⟩, ⟨active 2, 1⟩], []⟩),
    (active 2, ⟨1, [⟨8, 1⟩], [⟨active 3, 2⟩], []⟩),
    (active 3, ⟨1, [], [⟨active 2, 1⟩], []⟩)]

def deepPermissions : List (PermissionLevel × Authority ℕ) :=
  [(active 1, ⟨1, [], [⟨active 2, 1⟩, ⟨active 3, 1⟩], []⟩),
    (active 2, ⟨1, [], [⟨active 3, 1⟩], []⟩),
    (active 3, ⟨1, [], [⟨active 4, 1⟩], []⟩),
    (active 4, ⟨1, [⟨8, 1⟩], [], []⟩)]

theorem satisfied_complete_deep :
    ((listedChecker deepPermissions 6).satisfiedAlone (active 1) ∅).1 = true ∧
      (listedChecker deepPermissions 6).grants.DerivesIn 6 (active 1) := by
  have hsatisfied :
      ((listedChecker deepPermissions 6).satisfiedAlone (active 1) ∅).1 = true := by decide +kernel
  refine ⟨hsatisfied,
    (satisfied_complete _ (listedChecker_valid (by decide) (by decide)) ?_ ∅).1.mp hsatisfied⟩
  have h4 : ∀ n, (listedChecker deepPermissions 6).grants.WithinDepth (n + 1) (active 4) := by
    intro n
    refine withinDepth_succ fun auth hauth a ha => ?_
    cases hauth
    exact absurd ha not_mem_nil
  have h3 : ∀ n, (listedChecker deepPermissions 6).grants.WithinDepth (n + 2) (active 3) := by
    intro n
    refine withinDepth_succ fun auth hauth a ha => ?_
    cases hauth
    obtain rfl := mem_singleton.mp ha
    exact h4 n
  have h2 : (listedChecker deepPermissions 6).grants.WithinDepth 5 (active 2) := by
    refine withinDepth_succ fun auth hauth a ha => ?_
    cases hauth
    obtain rfl := mem_singleton.mp ha
    exact h3 2
  refine withinDepth_succ fun auth hauth a ha => ?_
  cases hauth
  rcases mem_pair.mp ha with rfl | rfl
  · exact h2
  · exact h3 3

theorem loopPermissions_derived :
    (listedChecker loopPermissions 6).grants.DerivesIn 6 (active 1) := by
  have h2 : ∀ n, (listedChecker loopPermissions 6).grants.DerivesIn (n + 1) (active 2) := by
    intro n
    refine derivesIn_succ rfl ?_
    exact Nat.le_add_right 1 _
  have h3 : ∀ n, (listedChecker loopPermissions 6).grants.DerivesIn (n + 2) (active 3) := by
    intro n
    refine derivesIn_succ rfl ?_
    simp [ThresholdRule.Met, weight, rule, h2]
  refine derivesIn_succ rfl ?_
  simp [ThresholdRule.Met, weight, rule, h2, h3]

theorem deepPermissions_derived :
    (listedChecker deepPermissions 3).grants.DerivesIn 3 (active 1) := by
  have h4 : (listedChecker deepPermissions 3).grants.DerivesIn 1 (active 4) :=
    derivesIn_succ rfl (Nat.le_add_right 1 _)
  have h3 : (listedChecker deepPermissions 3).grants.DerivesIn 2 (active 3) := by
    refine derivesIn_succ rfl ?_
    simp [ThresholdRule.Met, weight, rule, h4]
  refine derivesIn_succ rfl ?_
  simp [ThresholdRule.Met, weight, rule, h3]

/-- A cycle, and likewise the depth limit, keeps a granted permission from being found; in
the first case the order of two accounts decides. -/
theorem loop_and_depth_hide_granted :
    (∀ e ∈ loopPermissions ++ deepPermissions, e.2.validate = true) ∧
    (listedChecker loopPermissions 6).grants.DerivesIn 6 (active 1) ∧
    ((listedChecker loopPermissions 6).satisfiedAlone (active 1) ∅).1 = false ∧
    ((listedChecker swappedPermissions 6).satisfiedAlone (active 1) ∅).1 = true ∧
    (listedChecker deepPermissions 3).grants.DerivesIn 3 (active 1) ∧
    ((listedChecker deepPermissions 3).satisfiedAlone (active 1) ∅).1 = false :=
  ⟨by decide, loopPermissions_derived, by decide +kernel, by decide +kernel,
    deepPermissions_derived, by decide +kernel⟩

end AuthorityChecker
end FlonCore
