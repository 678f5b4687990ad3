import FlonCore.RequiredKeys

/-!
# When the reported keys suffice

For permissions that refer to each other without cycles and within the depth limit,
`get_required_keys` reports the keys that stay marked, and they satisfy the declared
authorizations exactly if those authorizations are granted by them. They are as long as
no authority that fails is around a permission which a declared one is granted through,
however many ways lead to that permission.
-/

namespace FlonCore
open Library List Relation
variable {Key : Type}

def Authority.references (auth : Authority Key) : List PermissionLevel :=
  auth.accounts.map (·.permission)

namespace AuthorityChecker
variable {checker : AuthorityChecker Key} {p q z : PermissionLevel}

theorem names_iff : checker.Names p q ↔
    ∃ auth, checker.permissionToAuthority p = some auth ∧ q ∈ auth.references := by
  simp only [Names, Authority.references, List.mem_map]

section
variable [DecidableEq Key] {K used : Finset Key} {n : ℕ}

def Valid [LinearOrder Key] (checker : AuthorityChecker Key) : Prop :=
  ∀ level auth, checker.permissions level = some auth → auth.validate = true

omit [DecidableEq Key] in
theorem Valid.regular [LinearOrder Key] (h : checker.Valid) : checker.AllRegular :=
  fun p auth hauth => .of_validate (h p auth (permissions_of_authority hauth))

def fresh (checker : AuthorityChecker Key) (K : Finset Key) : AuthorityChecker Key :=
  { checker with providedKeys := K, providedPermissions := ∅ }

/-- The permissions below `p` form no cycle and no chain of more than `n` authorities. -/
def Shallow (checker : AuthorityChecker Key) : ℕ → PermissionLevel → Prop
  | 0, p => checker.permissionToAuthority p = none
  | n + 1, p => ∀ q, checker.Names p q → checker.Shallow n q

theorem edge_fresh_iff : (checker.fresh K).grants.Edge p q ↔ checker.Names p q := by
  constructor
  · rintro ⟨r, ⟨-, hr⟩, w, hw⟩
    obtain ⟨auth, hauth, rfl⟩ := Option.map_eq_some_iff.mp hr
    obtain ⟨a, ha, hq⟩ := mem_map.mp hw
    exact ⟨auth, hauth, a, ha, (Prod.mk.inj hq).1⟩
  · rintro ⟨auth, hauth, a, ha, rfl⟩
    have hgiven : ¬ (checker.fresh K).grants.given p := not_given rfl
    exact edge_of_account hgiven hauth ha

theorem Shallow.withinDepth (h : checker.Shallow n p) :
    (checker.fresh K).grants.WithinDepth n p := by
  induction n generalizing p with
  | zero =>
    rintro r ⟨-, hr⟩
    obtain ⟨auth, hauth, -⟩ := Option.map_eq_some_iff.mp hr
    exact absurd (hauth.symm.trans h) (by simp)
  | succ n ih => exact fun q hq => ih (h q (edge_fresh_iff.mp hq))

omit [DecidableEq Key] in
theorem fresh_eq (hprovided : checker.providedPermissions = ∅) :
    checker.fresh checker.providedKeys = checker := by
  unfold fresh
  rw [← hprovided]

theorem Shallow.depth (h : checker.Shallow n p) (hprovided : checker.providedPermissions = ∅) :
    checker.grants.WithinDepth n p := by
  have hdepth := h.withinDepth (K := checker.providedKeys)
  rwa [fresh_eq hprovided] at hdepth

variable (checker)

/-- The tally of `p` looks at the account `q`. -/
def Looks (p q : PermissionLevel) : Prop :=
  ∃ auth, checker.permissionToAuthority p = some auth ∧
    ∃ a, .account a ∈ checker.visited auth ∧ a.permission = q

def LeansOn (p q : PermissionLevel) : Prop := checker.Looks p q ∧ checker.Granted q

/-- No authority that fails is on a way from `d` to a permission that `d` is granted through. -/
def Clear (d : PermissionLevel) : Prop :=
  ∀ q z, ReflTransGen checker.LeansOn d q → ReflTransGen checker.Looks d z →
    ReflTransGen checker.Looks z q → checker.Granted z

open Classical in
noncomputable def keptKeys (declared : List PermissionLevel) : Finset Key :=
  checker.providedKeys.filter fun k => ∃ d ∈ declared, ∃ q,
    checker.Kept (checker.visits checker.recursionDepthLimit.toNat d) q k

def KeptSuffice (declared : List PermissionLevel) : Prop :=
  ∀ d ∈ declared, (checker.fresh (checker.keptKeys declared)).Granted d

variable {checker} {k : Key} {b : Bool} {declared : List PermissionLevel}

theorem mem_visits_cases (h : (q, b) ∈ checker.visits (n + 1) p) :
    (q = p ∧ (b = true ↔ checker.Granted p)) ∨ ∃ r c, checker.Looks p r ∧
      (q, c) ∈ checker.visits n r ∧ (b = true ↔ checker.Granted p ∧ c = true) := by
  classical
  cases hauth : checker.permissionToAuthority p with
  | none =>
    rw [visits_none hauth] at h
    exact absurd h not_mem_nil
  | some auth =>
    rw [visits_succ hauth] at h
    rcases mem_cons.mp h with heq | h
    · obtain ⟨rfl, rfl⟩ := Prod.mk.inj heq
      exact .inl ⟨rfl, decide_eq_true_iff⟩
    · obtain ⟨⟨r, c⟩, hmem, heq⟩ := mem_map.mp h
      obtain ⟨rfl, rfl⟩ := Prod.mk.inj heq
      obtain ⟨a, ha, hmem⟩ := exists_account hmem
      exact .inr ⟨a.permission, c, ⟨auth, hauth, a, ha, rfl⟩, hmem, by simp⟩

theorem looks_of_mem_visits (h : (q, b) ∈ checker.visits n p) :
    ReflTransGen checker.Looks p q := by
  induction n generalizing p b with
  | zero => exact absurd h not_mem_nil
  | succ n ih =>
    rcases mem_visits_cases h with ⟨rfl, -⟩ | ⟨r, c, hlooks, hmem, -⟩
    · exact .refl
    · exact .head hlooks (ih hmem)

/-- A visit that is not kept is inside an authority that fails. -/
theorem exists_failing_of_mem_visits (h : (q, false) ∈ checker.visits n p) :
    ∃ z, ReflTransGen checker.Looks p z ∧ ReflTransGen checker.Looks z q ∧ ¬ checker.Granted z := by
  induction n generalizing p with
  | zero => exact absurd h not_mem_nil
  | succ n ih =>
    by_cases hp : checker.Granted p
    · rcases mem_visits_cases h with ⟨-, hb⟩ | ⟨r, c, hlooks, hmem, hb⟩
      · exact absurd (hb.mpr hp) (by simp)
      · cases c with
        | true => exact absurd (hb.mpr ⟨hp, rfl⟩) (by simp)
        | false =>
          obtain ⟨z, hz, hq, hfails⟩ := ih hmem
          exact ⟨z, .head hlooks hz, hq, hfails⟩
    · exact ⟨p, .refl, looks_of_mem_visits h, hp⟩

theorem mem_visits_of_looks (hprovided : checker.providedPermissions = ∅)
    (hdepth : checker.grants.WithinDepth n p) (h : ReflTransGen checker.Looks p q)
    (hknown : checker.permissionToAuthority q ≠ none) : q ∈ keysOf (checker.visits n p) := by
  induction h using ReflTransGen.head_induction_on generalizing n with
  | refl => exact mem_visits hprovided hdepth hknown
  | head hlooks _ ih =>
    obtain ⟨auth, hauth, a, ha, rfl⟩ := hlooks
    cases n with
    | zero => exact absurd ⟨not_given hprovided, grants_rule hauth⟩ (hdepth _)
    | succ n =>
      have hedge := edge_of_account (not_given hprovided) hauth (mem_accounts_of_visited ha)
      rw [visits_succ hauth]
      refine mem_cons_of_mem _ ?_
      change q ∈ keysOf (inside _ _)
      rw [keysOf_inside]
      exact accountVisits_subset ha (ih (hdepth _ hedge))

theorem reached_weight {threshold : UInt32} {factors : List (Factor Key)} (total : UInt32)
    (hfits : total.toNat + (factors.map fun f => f.weight.toNat).sum < 2 ^ 32)
    (h : threshold.toNat ≤
      total.toNat + (factors.map (checker.earnedWeight checker.Granted)).sum) :
    threshold.toNat ≤ total.toNat + ((checker.reached threshold factors total).map
      (checker.earnedWeight checker.Granted)).sum := by
  classical
  induction factors generalizing total with
  | nil => exact h
  | cons f rest ih =>
    rw [map_cons, sum_cons] at hfits h
    have hadd : (f.addTo (decide (checker.Earned checker.Granted f)) total).toNat =
        total.toNat + checker.earnedWeight checker.Granted f :=
      addTo_eq decide_eq_true_iff (by omega)
    have hle : checker.earnedWeight checker.Granted f ≤ f.weight.toNat := by
      unfold earnedWeight
      split_ifs <;> omega
    unfold reached
    dsimp only
    rw [map_cons, sum_cons, ← add_assoc]
    split_ifs with hreached
    · rw [UInt32.le_iff_toNat_le, hadd] at hreached
      rwa [map_nil, sum_nil, add_zero]
    · have hrest := ih (f.addTo (decide (checker.Earned checker.Granted f)) total)
        (by omega) (by omega)
      rwa [hadd] at hrest

theorem visited_weight {auth : Authority Key} (hregular : auth.Regular)
    (hmet : (checker.rule auth).Met checker.Granted) : auth.threshold.toNat ≤
      ((checker.visited auth).map (checker.earnedWeight checker.Granted)).sum := by
  unfold ThresholdRule.Met at hmet
  rw [← sum_earnedWeight] at hmet
  have hweight := reached_weight 0 (by simpa using hregular.weights)
    (hmet.trans_eq (Nat.zero_add _).symm)
  exact hweight.trans_eq (Nat.zero_add _)

omit [DecidableEq Key] in
theorem earnedWeight_le {checker' : AuthorityChecker Key} {P P' : PermissionLevel → Prop}
    {f : Factor Key} (h : checker.Earned P f → checker'.Earned P' f) :
    checker.earnedWeight P f ≤ checker'.earnedWeight P' f := by
  unfold earnedWeight
  by_cases hf : checker.Earned P f
  · rw [if_pos hf, if_pos (h hf)]
  · rw [if_neg hf]
    exact Nat.zero_le _

theorem mem_keptKeys : k ∈ checker.keptKeys declared ↔ ∃ d ∈ declared, ∃ q,
    checker.Kept (checker.visits checker.recursionDepthLimit.toNat d) q k := by
  classical
  rw [keptKeys, Finset.mem_filter, and_iff_right_iff_imp]
  rintro ⟨d, -, q, -, auth, -, hk, -⟩
  exact hk

structure ExactlyNeeded (checker : AuthorityChecker Key) (declared : List PermissionLevel) :
    Prop where
  satisfied : ∀ d ∈ declared, (checker.satisfiedAlone d ∅).1 = true
  needed : ∀ K ⊂ checker.providedKeys,
    ∃ d ∈ declared, ((checker.fresh K).satisfiedAlone d ∅).1 = false

theorem requireAll_cons : checker.requireAll (p :: declared) used = .ok K ↔
    (checker.satisfiedAlone p used).1 = true ∧
      checker.requireAll declared (checker.satisfiedAlone p used).2 = .ok K := by
  rw [← eosAssert_eq_ok]
  exact seq_eq_ok

theorem exists_requireAll (used : Finset Key)
    (h : ∀ d ∈ declared, ∀ used, (checker.satisfiedAlone d used).1 = true) :
    ∃ K, checker.requireAll declared used = .ok K := by
  induction declared generalizing used with
  | nil => exact ⟨used, rfl⟩
  | cons d rest ih =>
    obtain ⟨K, hK⟩ := ih _ fun e he => h e (mem_cons_of_mem d he)
    exact ⟨K, requireAll_cons.mpr ⟨h d mem_cons_self used, hK⟩⟩

theorem checkAll_of_requireAll {checkButDontFail : Bool}
    (h : checker.requireAll declared used = .ok K) :
    checker.checkAll checkButDontFail (declared.map fun d => (d, checker.providedDelay)) used =
      .ok K := by
  induction declared generalizing used with
  | nil => exact h
  | cons d rest ih =>
    obtain ⟨hsatisfied, hrest⟩ := requireAll_cons.mp h
    refine seq_eq_ok.mpr ⟨eosAssert_eq_ok.mpr ?_, ih hrest⟩
    rw [Bool.or_eq_true]
    exact .inl hsatisfied

theorem fresh_satisfied_iff (hregular : checker.AllRegular)
    (hshallow : checker.Shallow checker.recursionDepthLimit.toNat p) :
    ((checker.fresh K).satisfiedAlone p used).1 = true ↔ (checker.fresh K).Granted p := by
  have hregular' : (checker.fresh K).AllRegular := hregular
  exact satisfied_answers hregular' hshallow.withinDepth used

section
variable (hprovided : checker.providedPermissions = ∅) (hregular : checker.AllRegular)
include hprovided hregular

/-- Keys that contain those marked in a set of permissions grant every granted permission of
the set, if the set has the permissions that its own are granted through. -/
theorem granted_of_marked {S : PermissionLevel → Prop}
    (hS : ∀ p q, S p → checker.LeansOn p q → S q)
    (hK : ∀ p k, S p → checker.Marks p k → k ∈ K) (hdepth : checker.grants.WithinDepth n p)
    (hp : S p) (hgranted : checker.Granted p) : (checker.fresh K).Granted p := by
  have hgiven : ∀ p, ¬ checker.grants.given p := fun _ => not_given hprovided
  induction n generalizing p with
  | zero =>
    cases hauth : checker.permissionToAuthority p with
    | none => exact absurd hgranted (not_granted_of_none (hgiven p) hauth)
    | some auth => exact absurd ⟨hgiven p, grants_rule hauth⟩ (hdepth _)
  | succ n ih =>
    cases hauth : checker.permissionToAuthority p with
    | none => exact absurd hgranted (not_granted_of_none (hgiven p) hauth)
    | some auth =>
      have hauth' : (checker.fresh K).permissionToAuthority p = some auth := hauth
      refine .of_met (grants_rule hauth') ?_
      have hearned : ∀ f ∈ checker.visited auth, checker.Earned checker.Granted f →
          (checker.fresh K).Earned (checker.fresh K).Granted f := by
        intro f hf hearned
        cases f with
        | account a =>
          have hedge := edge_of_account (hgiven p) hauth (mem_accounts_of_visited hf)
          have hleans : checker.LeansOn p a.permission := ⟨⟨auth, hauth, a, hf, rfl⟩, hearned⟩
          exact ih (hdepth _ hedge) (hS p _ hp hleans) hearned
        | key kw => exact hK p kw.key hp ⟨auth, hauth, hearned, kw.weight, hf⟩
        | wait w => exact hearned
      have hmet := (granted_iff_met (hgiven p) hauth).mp hgranted
      calc auth.threshold.toNat
          ≤ ((checker.visited auth).map (checker.earnedWeight checker.Granted)).sum :=
            visited_weight (hregular p auth hauth) hmet
        _ ≤ ((checker.visited auth).map
              ((checker.fresh K).earnedWeight (checker.fresh K).Granted)).sum :=
            sum_le_sum fun f hf => earnedWeight_le (hearned f hf)
        _ ≤ (auth.factors.map ((checker.fresh K).earnedWeight (checker.fresh K).Granted)).sum :=
            ((reached_sublist _ _).map _).sum_le_sum fun _ _ => Nat.zero_le _
        _ = ((checker.fresh K).rule auth).weight (checker.fresh K).Granted := sum_earnedWeight _ _

theorem satisfiedAlone_iff (hshallow : checker.Shallow checker.recursionDepthLimit.toNat p) :
    (checker.satisfiedAlone p used).1 = true ↔ checker.Granted p :=
  satisfied_answers hregular (hshallow.depth hprovided) used

variable (hshallow : ∀ d ∈ declared, checker.Shallow checker.recursionDepthLimit.toNat d)
include hshallow

theorem requireAll_used (h : checker.requireAll declared used = .ok K) :
    k ∈ K ↔ k ∈ used ∨ k ∈ checker.keptKeys declared := by
  rw [mem_keptKeys]
  induction declared generalizing used with
  | nil =>
    cases h
    simp
  | cons d rest ih =>
    obtain ⟨-, hrest⟩ := requireAll_cons.mp h
    have hdepth := (hshallow d mem_cons_self).depth hprovided
    rw [ih (fun e he => hshallow e (mem_cons_of_mem d he)) hrest,
      satisfiedAlone_used hprovided hregular hdepth]
    simp only [mem_cons, exists_eq_or_imp, or_assoc]

theorem keptSuffice_of_clear (h : ∀ d ∈ declared, checker.Granted d ∧ checker.Clear d) :
    checker.KeptSuffice declared := by
  intro d hd
  have hdepth := (hshallow d hd).depth hprovided
  refine granted_of_marked hprovided hregular (S := ReflTransGen checker.LeansOn d)
    (fun _ _ hp hpq => hp.tail hpq) (fun q k hq hmarks => ?_) hdepth .refl (h d hd).1
  have hlooks : ReflTransGen checker.Looks d q := hq.lift id fun _ _ hpq => hpq.1
  have hknown : checker.permissionToAuthority q ≠ none := by
    obtain ⟨auth, hauth, -⟩ := hmarks
    simp [hauth]
  have hmem := mem_visits_of_looks hprovided hdepth hlooks hknown
  refine mem_keptKeys.mpr ⟨d, hd, q, ?_, hmarks⟩
  cases hfind : find (checker.visits checker.recursionDepthLimit.toNat d) q with
  | none => exact absurd hmem (find_eq_none.mp hfind)
  | some b =>
    cases b with
    | true => rfl
    | false =>
      obtain ⟨z, hz, hzq, hfails⟩ := exists_failing_of_mem_visits (mem_of_find_eq_some hfind)
      exact absurd ((h d hd).2 q z hq hz hzq) hfails

theorem getRequiredKeys_eq (h : checker.getRequiredKeys declared = .ok K) :
    K = checker.keptKeys declared := by
  unfold getRequiredKeys at h
  rw [← hprovided] at h
  ext k
  rw [requireAll_used hprovided hregular hshallow h]
  simp

theorem checkAuthorization_of_granted (h : ∀ d ∈ declared, checker.Granted d) :
    checker.checkAuthorization (declared.map fun d => (d, checker.providedDelay)) false false =
      eosAssert (checker.providedKeys ⊆ checker.keptKeys declared) .txIrrelevantSig
        "transaction bears irrelevant signatures from these keys: ${keys}" := by
  have hsatisfied : ∀ d ∈ declared, ∀ used, (checker.satisfiedAlone d used).1 = true :=
    fun d hd used => (satisfiedAlone_iff hprovided hregular (hshallow d hd)).mpr (h d hd)
  obtain ⟨K, hK⟩ := exists_requireAll ∅ hsatisfied
  have hkept : K = checker.keptKeys declared := by
    ext k
    rw [requireAll_used hprovided hregular hshallow hK]
    simp
  unfold checkAuthorization
  rw [checkAll_of_requireAll hK, hkept]
  simp [bind, Except.bind]

/-- A transaction with exactly the needed keys has all of them kept if the kept ones suffice. -/
theorem ExactlyNeeded.subset_iff (h : checker.ExactlyNeeded declared) :
    checker.providedKeys ⊆ checker.keptKeys declared ↔ checker.KeptSuffice declared := by
  have hsub : checker.keptKeys declared ⊆ checker.providedKeys := by
    classical exact Finset.filter_subset _ _
  constructor
  · intro hall d hd
    rw [Finset.Subset.antisymm hsub hall, fresh_eq hprovided]
    exact (satisfiedAlone_iff hprovided hregular (hshallow d hd)).mp (h.satisfied d hd)
  · intro hsuffice
    by_contra hmissing
    obtain ⟨d, hd, hfalse⟩ := h.needed _ ⟨hsub, hmissing⟩
    have htrue : ((checker.fresh (checker.keptKeys declared)).satisfiedAlone d ∅).1 = true :=
      (fresh_satisfied_iff hregular (hshallow d hd)).mpr (hsuffice d hd)
    exact absurd (hfalse.symm.trans htrue) (by simp)

end

end

theorem shallow_of_rank (rank : PermissionLevel → ℕ)
    (hpositive : ∀ p, checker.permissionToAuthority p ≠ none → 0 < rank p)
    (hlower : ∀ p q, checker.Names p q → rank q < rank p) {n : ℕ} (h : rank p ≤ n) :
    checker.Shallow n p := by
  induction n generalizing p with
  | zero =>
    by_contra hknown
    exact absurd (hpositive p hknown) (by omega)
  | succ n ih => exact fun q hq => ih (Nat.lt_succ_iff.mp ((hlower p q hq).trans_le h))

variable {permissions : List (PermissionLevel × Authority ℕ)} {limit : UInt16}

theorem listedChecker_authority (hkeys : (keysOf permissions).Nodup) {auth : Authority ℕ}
    (h : (listedChecker permissions limit).permissionToAuthority p = some auth) :
    (p, auth) ∈ permissions :=
  (find_eq_some hkeys).mp (permissions_of_authority h)

theorem listedChecker_shallow (hkeys : (keysOf permissions).Nodup) (rank : PermissionLevel → ℕ)
    (hpositive : ∀ e ∈ permissions, 0 < rank e.1)
    (hlower : ∀ e ∈ permissions, ∀ q ∈ e.2.references, rank q < rank e.1)
    (h : rank p ≤ limit.toNat) : (listedChecker permissions limit).Shallow limit.toNat p := by
  refine shallow_of_rank rank (fun q hq => ?_) (fun q r hqr => ?_) h
  · obtain ⟨auth, hauth⟩ := Option.ne_none_iff_exists'.mp hq
    exact hpositive _ (listedChecker_authority hkeys hauth)
  · obtain ⟨auth, hauth, hr⟩ := names_iff.mp hqr
    exact hlower _ (listedChecker_authority hkeys hauth) r hr

theorem listedChecker_looks (hkeys : (keysOf permissions).Nodup)
    (h : (listedChecker permissions limit).Looks p q) :
    ∃ e ∈ permissions, e.1 = p ∧ q ∈ e.2.references := by
  obtain ⟨auth, hauth, a, ha, rfl⟩ := h
  exact ⟨_, listedChecker_authority hkeys hauth, rfl, mem_map_of_mem (mem_accounts_of_visited ha)⟩

def sharedPermissions : List (PermissionLevel × Authority ℕ) :=
  [(active 1, ⟨1, [], [⟨active 2, 1⟩, ⟨active 3, 1⟩], []⟩),
    (active 2, ⟨2, [⟨7, 1⟩], [⟨active 4, 1⟩], []⟩),
    (active 3, ⟨1, [], [⟨active 4, 1⟩], []⟩),
    (active 4, ⟨1, [⟨8, 1⟩], [], []⟩)]

/-- Permission 5 can be reached through 3 and through 4, and 2 fails next to them. -/
def diamondPermissions : List (PermissionLevel × Authority ℕ) :=
  [(active 1, ⟨2, [], [⟨active 2, 1⟩, ⟨active 3, 1⟩, ⟨active 4, 1⟩], []⟩),
    (active 2, ⟨1, [⟨7, 1⟩], [], []⟩),
    (active 3, ⟨1, [], [⟨active 5, 1⟩], []⟩),
    (active 4, ⟨1, [], [⟨active 5, 1⟩], []⟩),
    (active 5, ⟨1, [⟨8, 1⟩], [], []⟩)]

theorem diamondPermissions_shallow (p : PermissionLevel) :
    (listedChecker diamondPermissions 6).Shallow (6 : UInt16).toNat p := by
  refine listedChecker_shallow (by decide) (fun level => 6 - level.actor.toNat) (by decide)
    (by decide) ?_
  exact Nat.sub_le _ _

theorem diamondPermissions_regular : (listedChecker diamondPermissions 6).AllRegular :=
  Valid.regular (listedChecker_valid (by decide) (by decide))

theorem diamondPermissions_granted (h : p ∈ [active 1, active 3, active 4, active 5]) :
    (listedChecker diamondPermissions 6).Granted p := by
  have hsatisfied : ∀ q ∈ [active 1, active 3, active 4, active 5],
      ((listedChecker diamondPermissions 6).satisfiedAlone q ∅).1 = true := by decide +kernel
  exact (satisfiedAlone_iff rfl diamondPermissions_regular
    (diamondPermissions_shallow p)).mp (hsatisfied p h)

theorem diamondPermissions_clear : (listedChecker diamondPermissions 6).Clear (active 1) := by
  have hlooks : ∀ {p q}, (listedChecker diamondPermissions 6).Looks p q →
      p ≠ active 2 ∧ (q = active 2 ∨ q ∈ [active 1, active 3, active 4, active 5]) := by
    intro p q h
    have hall : ∀ e ∈ diamondPermissions, ∀ q ∈ e.2.references,
        e.1 ≠ active 2 ∧ (q = active 2 ∨ q ∈ [active 1, active 3, active 4, active 5]) := by decide
    obtain ⟨e, he, rfl, hq⟩ := listedChecker_looks (by decide) h
    exact hall e he q hq
  intro q z hq hz hzq
  have hcases : z = active 2 ∨ z ∈ [active 1, active 3, active 4, active 5] := by
    rcases ReflTransGen.cases_tail hz with rfl | ⟨y, -, hy⟩
    · exact .inr mem_cons_self
    · exact (hlooks hy).2
  rcases hcases with rfl | hz
  · rcases ReflTransGen.cases_head hzq with rfl | ⟨y, hy, -⟩
    · rcases ReflTransGen.cases_tail hq with hone | ⟨y, -, hy⟩
      · exact absurd hone (by decide)
      · exact hy.2
    · exact absurd rfl (hlooks hy).1
  · exact diamondPermissions_granted hz

end AuthorityChecker
end FlonCore
