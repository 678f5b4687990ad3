import FlonCore.AuthorityCompleteness

/-!
# Which keys stay marked

The keys marked for an authority that fails are taken back, but a nested permission
that those keys satisfied stays satisfied in the cache. `visits` lists the permissions
that the check of a permission comes to when nothing is taken from the cache, in order
and each with whether all authorities around it are granted. The cache only leaves out
repeated visits, so a key stays marked exactly if the first visit to a permission that
marks it is inside granted authorities only.
-/

namespace FlonCore
open Library Function List Relation
variable {Key : Type}

namespace AuthorityChecker
variable [DecidableEq Key]

def accountVisits (visits : PermissionLevel → List (PermissionLevel × Bool)) :
    Factor Key → List (PermissionLevel × Bool)
  | .account a => visits a.permission
  | .key _ | .wait _ => []

open Classical in
/-- The visits `v` as parts of the check of an authority that is granted if `G`. -/
noncomputable def inside (G : Prop) (v : List (PermissionLevel × Bool)) :
    List (PermissionLevel × Bool) :=
  v.map fun e => (e.1, decide G && e.2)

section Visits
variable (checker : AuthorityChecker Key)

open Classical in
/-- The factors that the tally looks at, up to the one that reaches the threshold. -/
noncomputable def reached (threshold : UInt32) : List (Factor Key) → UInt32 → List (Factor Key)
  | [], _ => []
  | f :: rest, total =>
    let total' := f.addTo (decide (checker.Earned checker.Granted f)) total
    f :: if threshold ≤ total' then [] else reached threshold rest total'

noncomputable def visited (auth : Authority Key) : List (Factor Key) :=
  checker.reached auth.threshold auth.factors 0

open Classical in
noncomputable def visits : ℕ → PermissionLevel → List (PermissionLevel × Bool)
  | 0, _ => []
  | n + 1, p =>
    match checker.permissionToAuthority p with
    | none => []
    | some auth => (p, decide (checker.Granted p)) ::
        inside (checker.Granted p) ((checker.visited auth).flatMap (accountVisits (visits n)))

/-- The keys among some factors that a tally marks. -/
def OwnKey (factors : List (Factor Key)) (k : Key) : Prop :=
  k ∈ checker.providedKeys ∧ ∃ w, .key ⟨k, w⟩ ∈ factors

def Marks (q : PermissionLevel) (k : Key) : Prop :=
  ∃ auth, checker.permissionToAuthority q = some auth ∧ checker.OwnKey (checker.visited auth) k

/-- The first visit to `q` in `v` is inside granted authorities only, and it marks `k`. -/
def Kept (v : List (PermissionLevel × Bool)) (q : PermissionLevel) (k : Key) : Prop :=
  find v q = some true ∧ checker.Marks q k

/-- A permission that was evaluated has the permissions cached that its tally came to. -/
def Complete (cache : PermissionCache) : Prop :=
  ∀ q auth, checker.permissionToAuthority q = some auth → cache q ≠ none →
    cache q ≠ some .beingEvaluated → ∀ a, .account a ∈ checker.visited auth →
      checker.permissionToAuthority a.permission ≠ none → cache a.permission ≠ none

/-- What a part of a check does to the state: the permissions of `v` are in the cache after it,
and the keys are marked that are kept in `v`, and those of `own`. -/
structure Records (own : Key → Prop) (v : List (PermissionLevel × Bool))
    (s s' : CheckerState Key) : Prop where
  complete : checker.Complete s'.cache
  cached : ∀ q, s'.cache q ≠ none ↔ s.cache q ≠ none ∨ q ∈ keysOf v
  used : ∀ k, k ∈ s'.usedKeys ↔
    k ∈ s.usedKeys ∨ own k ∨ ∃ q, s.cache q = none ∧ checker.Kept v q k

end Visits

variable {checker : AuthorityChecker Key} {p q : PermissionLevel} {k : Key}
  {own own' : Key → Prop} {v v' : List (PermissionLevel × Bool)} {s s' s'' : CheckerState Key}

@[simp] theorem keysOf_inside {G : Prop} : keysOf (inside G v) = keysOf v := by
  simp [keysOf, inside, Function.comp_def]

theorem inside_of_true {G : Prop} (hG : G) : inside G v = v := by
  simp [inside, hG]

theorem not_mem_inside {G : Prop} (hG : ¬ G) : (q, true) ∉ inside G v := by
  simp [inside, hG]

theorem Kept.mem (h : checker.Kept v q k) : q ∈ keysOf v :=
  mem_keysOf.mpr ⟨true, mem_of_find_eq_some h.1⟩

theorem kept_append : checker.Kept (v ++ v') q k ↔
    checker.Kept v q k ∨ q ∉ keysOf v ∧ checker.Kept v' q k := by
  simp only [Kept, find_append, ← find_eq_none]
  cases find v q <;> simp

theorem Records.of_cached (h : checker.Complete s.cache)
    (hv : ∀ q ∈ keysOf v, s.cache q ≠ none) : checker.Records (fun _ => False) v s s := by
  refine ⟨h, fun q => ⟨.inl, fun hq => hq.elim id (hv q)⟩, fun k => ⟨.inl, ?_⟩⟩
  rintro (hk | hk | ⟨q, hq, hkept⟩)
  · exact hk
  · exact hk.elim
  · exact absurd hq (hv q hkept.mem)

theorem Records.nil (h : checker.Complete s.cache) : checker.Records (fun _ => False) [] s s :=
  .of_cached h fun _ hq => absurd hq not_mem_nil

theorem Records.append (h : checker.Records own v s s') (h' : checker.Records own' v' s' s'') :
    checker.Records (fun k => own k ∨ own' k) (v ++ v') s s'' := by
  refine ⟨h'.complete, fun q => ?_, fun k => ?_⟩
  · have hkeys : keysOf (v ++ v') = keysOf v ++ keysOf v' := map_append
    rw [hkeys, mem_append, h'.cached, h.cached, or_assoc]
  · have hnone : ∀ q, s'.cache q = none ↔ s.cache q = none ∧ q ∉ keysOf v := by
      intro q
      have hq := h.cached q
      tauto
    rw [h'.used, h.used]
    simp only [hnone, kept_append]
    constructor
    · rintro ((hk | hk | ⟨q, hq, hkept⟩) | hk | ⟨q, ⟨hq, hv⟩, hkept⟩)
      · exact .inl hk
      · exact .inr (.inl (.inl hk))
      · exact .inr (.inr ⟨q, hq, .inl hkept⟩)
      · exact .inr (.inl (.inr hk))
      · exact .inr (.inr ⟨q, hq, .inr ⟨hv, hkept⟩⟩)
    · rintro (hk | (hk | hk) | ⟨q, hq, hkept | ⟨hv, hkept⟩⟩)
      · exact .inl (.inl hk)
      · exact .inl (.inr (.inl hk))
      · exact .inr (.inl hk)
      · exact .inl (.inr (.inr ⟨q, hq, hkept⟩))
      · exact .inr (.inr ⟨q, ⟨hq, hv⟩, hkept⟩)

theorem Records.congr (h : checker.Records own v s s') (hown : ∀ k, own' k ↔ own k) :
    checker.Records own' v s s' :=
  ⟨h.complete, h.cached, fun k => by rw [hown, h.used]⟩

variable {auth : Authority Key} {n : ℕ} {f : Factor Key} {rest : List (Factor Key)}
  {total : UInt32} {nested : Option (Evaluator Key)}

section
variable (hprovided : checker.providedPermissions = ∅)
include hprovided

theorem not_given : ¬ checker.grants.given p := by
  simp [grants, hprovided]

theorem Sound.status_eq {cache : PermissionCache} (h : checker.Sound cache) :
    permissionStatusInCache cache p = cache p := by
  unfold permissionStatusInCache
  cases hp : cache p with
  | some status => rfl
  | none =>
    by_contra hactor
    simpa [hprovided] using h.unnamed hactor

end

omit [DecidableEq Key] in
theorem mem_accounts_of_factors {a : PermissionLevelWeight} (h : .account a ∈ auth.factors) :
    a ∈ auth.accounts := by
  simpa using auth.factors_perm.mem_iff.mp h

theorem reached_sublist {threshold : UInt32} (factors : List (Factor Key)) (total : UInt32) :
    (checker.reached threshold factors total).Sublist factors := by
  induction factors generalizing total with
  | nil => exact .slnil
  | cons f rest ih =>
    refine .cons_cons f ?_
    split_ifs
    · exact nil_sublist _
    · exact ih _

theorem mem_accounts_of_visited {a : PermissionLevelWeight}
    (h : .account a ∈ checker.visited auth) : a ∈ auth.accounts :=
  mem_accounts_of_factors ((reached_sublist _ _).subset h)

omit [DecidableEq Key] in
theorem ownKey_append {l l' : List (Factor Key)} :
    checker.OwnKey (l ++ l') k ↔ checker.OwnKey l k ∨ checker.OwnKey l' k := by
  simp only [OwnKey, mem_append, exists_or, and_or_left]

omit [DecidableEq Key] in
theorem ownKey_key {kw : KeyWeight Key} :
    checker.OwnKey [.key kw] k ↔ k ∈ checker.providedKeys ∧ k = kw.key := by
  constructor
  · rintro ⟨hk, w, hmem⟩
    cases mem_singleton.mp hmem
    exact ⟨hk, rfl⟩
  · rintro ⟨hk, rfl⟩
    exact ⟨hk, kw.weight, mem_singleton_self _⟩

theorem visits_none (h : checker.permissionToAuthority p = none) : checker.visits n p = [] := by
  cases n with
  | zero => rfl
  | succ n => simp [visits, h]

theorem visits_succ (h : checker.permissionToAuthority p = some auth) :
    checker.visits (n + 1) p = open Classical in (p, decide (checker.Granted p)) ::
      inside (checker.Granted p)
        ((checker.visited auth).flatMap (accountVisits (checker.visits n))) := by
  simp [visits, h]

omit [DecidableEq Key] in
theorem accountVisits_subset {visits : PermissionLevel → List (PermissionLevel × Bool)}
    {l : List (Factor Key)} {a : PermissionLevelWeight} (ha : .account a ∈ l)
    (hq : q ∈ keysOf (visits a.permission)) : q ∈ keysOf (l.flatMap (accountVisits visits)) := by
  obtain ⟨b, hb⟩ := mem_keysOf.mp hq
  exact mem_keysOf.mpr ⟨b, mem_flatMap.mpr ⟨.account a, ha, hb⟩⟩

omit [DecidableEq Key] in
theorem exists_account {visits : PermissionLevel → List (PermissionLevel × Bool)}
    {l : List (Factor Key)} {e : PermissionLevel × Bool}
    (he : e ∈ l.flatMap (accountVisits visits)) :
    ∃ a, .account a ∈ l ∧ e ∈ visits a.permission := by
  obtain ⟨f, hf, he⟩ := mem_flatMap.mp he
  cases f with
  | account a => exact ⟨a, hf, he⟩
  | key k => exact absurd he not_mem_nil
  | wait w => exact absurd he not_mem_nil

section
variable (hprovided : checker.providedPermissions = ∅)
include hprovided

theorem mem_visits (hdepth : checker.grants.WithinDepth n p)
    (hknown : checker.permissionToAuthority p ≠ none) : p ∈ keysOf (checker.visits n p) := by
  obtain ⟨auth, hauth⟩ := Option.ne_none_iff_exists'.mp hknown
  cases n with
  | zero => exact absurd ⟨not_given hprovided, grants_rule hauth⟩ (hdepth _)
  | succ n =>
    rw [visits_succ hauth]
    exact mem_cons_self

/-- Below a permission that was evaluated, all visits are cached. -/
theorem Complete.visits_cached {cache : PermissionCache} (h : checker.Complete cache)
    (hfree : checker.Free cache p) (hp : cache p ≠ none) :
    ∀ q ∈ keysOf (checker.visits n p), cache q ≠ none := by
  induction n generalizing p with
  | zero => exact fun q hq => absurd hq not_mem_nil
  | succ n ih =>
    cases hauth : checker.permissionToAuthority p with
    | none =>
      rw [visits_none hauth]
      exact fun q hq => absurd hq not_mem_nil
    | some auth =>
      rw [visits_succ hauth]
      intro q hq
      rcases mem_cons.mp hq with rfl | hq
      · exact hp
      · change q ∈ keysOf (inside _ _) at hq
        rw [keysOf_inside] at hq
        obtain ⟨b, hb⟩ := mem_keysOf.mp hq
        obtain ⟨a, ha, hb⟩ := exists_account hb
        have hedge := edge_of_account (not_given hprovided) hauth
          (mem_accounts_of_visited ha)
        have hknown : checker.permissionToAuthority a.permission ≠ none := by
          intro hnone
          rw [visits_none hnone] at hb
          exact absurd hb not_mem_nil
        exact ih (fun r hr => hfree r (.head hedge hr))
          (h p auth hauth hp (hfree p .refl) a ha hknown) q (mem_keysOf.mpr ⟨b, hb⟩)

end

/-- What the check of an authority does to the state; its own keys are kept if it succeeds. -/
def NestedRecords (checker : AuthorityChecker Key) (n : ℕ) (nested : Option (Evaluator Key)) :
    Prop :=
  ∀ m, n = m + 1 → ∃ ev, nested = some ev ∧ ∀ auth s, checker.Exact s.cache →
    checker.Ready m s.cache auth → checker.Complete s.cache →
      checker.Records
        (fun k => (checker.rule auth).Met checker.Granted ∧ checker.OwnKey (checker.visited auth) k)
        (inside ((checker.rule auth).Met checker.Granted)
          ((checker.visited auth).flatMap (accountVisits (checker.visits m)))) s (ev auth s).2

theorem Complete.update {cache : PermissionCache} (h : checker.Complete cache)
    (hauth : checker.permissionToAuthority p = some auth) {status : PermissionCacheStatus}
    (hp : status ≠ .beingEvaluated → ∀ a, .account a ∈ checker.visited auth →
      checker.permissionToAuthority a.permission ≠ none → cache a.permission ≠ none) :
    checker.Complete (Function.update cache p (some status)) := by
  have hmono : ∀ q, cache q ≠ none → Function.update cache p (some status) q ≠ none := by
    intro q hq
    by_cases hqp : q = p
    · subst hqp
      simp
    · rwa [update_of_ne hqp]
  intro q auth' hauth' hq hevaluated a ha hknown
  refine hmono _ ?_
  by_cases hqp : q = p
  · subst hqp
    cases hauth.symm.trans hauth'
    exact hp (by simpa using hevaluated) a ha hknown
  · rw [update_of_ne hqp] at hq hevaluated
    exact h q auth' hauth' hq hevaluated a ha hknown

theorem marks_iff (hauth : checker.permissionToAuthority p = some auth) :
    checker.Marks p k ↔ checker.OwnKey (checker.visited auth) k := by
  simp [Marks, hauth]

open Classical in
theorem kept_cons {G : Prop} : checker.Kept ((p, decide G) :: v) q k ↔
    (q = p ∧ G ∧ checker.Marks p k) ∨ (q ≠ p ∧ checker.Kept v q k) := by
  unfold Kept
  rw [find_cons]
  by_cases hqp : p = q
  · subst hqp
    simp
  · simp [hqp, Ne.symm hqp]

open Classical in
theorem Records.close {G : Prop} {status : PermissionCacheStatus}
    (hauth : checker.permissionToAuthority p = some auth) (hp : s.cache p = none)
    (hvisits : ∀ a, .account a ∈ checker.visited auth →
      checker.permissionToAuthority a.permission ≠ none → a.permission ∈ keysOf v)
    (h : checker.Records (fun k => G ∧ checker.OwnKey (checker.visited auth) k) (inside G v)
      { s with cache := update s.cache p (some .beingEvaluated) } s') :
    checker.Records (fun _ => False) ((p, decide G) :: inside G v) s
      { s' with cache := update s'.cache p (some status) } := by
  have hcached : ∀ q, q ≠ p → (s'.cache q ≠ none ↔ s.cache q ≠ none ∨ q ∈ keysOf v) := by
    intro q hqp
    have hq := h.cached q
    dsimp only at hq
    rwa [update_of_ne hqp, keysOf_inside] at hq
  refine ⟨h.complete.update hauth fun _ a ha hknown => ?_, fun q => ?_, fun k => ?_⟩
  · exact (h.cached _).mpr (.inr (keysOf_inside.symm ▸ hvisits a ha hknown))
  · change update s'.cache p (some status) q ≠ none ↔ _ ∨ q ∈ p :: keysOf (inside G v)
    rw [mem_cons, keysOf_inside]
    by_cases hqp : q = p
    · simp [hqp]
    · rw [update_of_ne hqp, hcached q hqp]
      simp [hqp]
  · have hused := h.used k
    simp only [kept_cons, marks_iff hauth]
    rw [hused]
    constructor
    · rintro (hk | ⟨hG, hk⟩ | ⟨q, hq, hkept⟩)
      · exact .inl hk
      · exact .inr (.inr ⟨p, hp, .inl ⟨rfl, hG, hk⟩⟩)
      · have hqp : q ≠ p := by
          rintro rfl
          simp at hq
        exact .inr (.inr ⟨q, (update_of_ne hqp _ _).symm.trans hq, .inr ⟨hqp, hkept⟩⟩)
    · rintro (hk | hk | ⟨q, hq, ⟨-, hk⟩ | ⟨hqp, hkept⟩⟩)
      · exact .inl hk
      · exact hk.elim
      · exact .inr (.inl hk)
      · exact .inr (.inr ⟨q, (update_of_ne hqp _ _).trans hq, hkept⟩)

section
variable (hprovided : checker.providedPermissions = ∅) (hregular : checker.AllRegular)
  (hrecords : checker.NestedRecords n nested) (h : checker.Exact s.cache)
  (hcomplete : checker.Complete s.cache)
include hprovided hregular hrecords h hcomplete

theorem visitPermission_records (hdepth : checker.grants.WithinDepth n p)
    (hfree : checker.Free s.cache p) : checker.Records (fun _ => False) (checker.visits n p) s
      (checker.visitPermission nested p s).2 := by
  unfold visitPermission
  rw [h.toSound.status_eq hprovided]
  cases hp : s.cache p with
  | some status =>
    exact .of_cached hcomplete (hcomplete.visits_cached hprovided hfree (by simp [hp]))
  | none =>
    cases hauth : checker.permissionToAuthority p with
    | none =>
      rw [visits_none hauth]
      have hsame := Records.nil hcomplete
      cases nested with
      | none => exact hsame
      | some ev => exact hsame
    | some auth =>
      have hgiven := not_given (p := p) hprovided
      cases n with
      | zero => exact absurd ⟨hgiven, grants_rule hauth⟩ (hdepth _)
      | succ m =>
        obtain ⟨ev, rfl, hev⟩ := hrecords m rfl
        have hexact := h.update hgiven hauth .beingEvaluated (by simp) (by simp)
        have hres := hev auth { s with cache := update s.cache p (some .beingEvaluated) } hexact
          (.of_expand hgiven hauth (hregular p auth hauth) hdepth hfree)
          (hcomplete.update hauth (by simp))
        rw [← granted_iff_met hgiven hauth] at hres
        rw [visits_succ hauth]
        refine hres.close hauth hp fun a ha hknown => accountVisits_subset ha ?_
        exact mem_visits hprovided
          (hdepth _ (edge_of_account hgiven hauth (mem_accounts_of_visited ha))) hknown

theorem visit_records (hready : checker.Ready n s.cache auth) (hf : f ∈ auth.factors) :
    checker.Records (checker.OwnKey [f]) (accountVisits (checker.visits n) f) s
      (checker.visit nested f s).2 := by
  have hsame := Records.nil hcomplete
  cases f with
  | account a =>
    have ha := mem_accounts_of_factors hf
    refine (visitPermission_records hprovided hregular hrecords h hcomplete
      (hready.depth a ha) (hready.free a ha)).congr fun k => ?_
    simp [OwnKey]
  | key kw =>
    change checker.Records (checker.OwnKey [.key kw]) [] s (checker.visitKey kw.key s).2
    unfold visitKey
    split_ifs with hk
    · refine ⟨hcomplete, hsame.cached, fun k => ?_⟩
      have hnone : ¬ ∃ q, s.cache q = none ∧ checker.Kept [] q k := by simp [Kept, find]
      rw [ownKey_key, Finset.mem_insert]
      simp only [hnone, or_false]
      constructor
      · rintro (rfl | hused)
        · exact .inr ⟨hk, rfl⟩
        · exact .inl hused
      · rintro (hused | ⟨-, rfl⟩)
        · exact .inr hused
        · exact .inl rfl
    · refine hsame.congr fun k => ?_
      rw [ownKey_key, iff_false]
      rintro ⟨hk', rfl⟩
      exact hk hk'
  | wait w => exact hsame.congr fun k => by simp [OwnKey]

end

/-- The factors that the tally of `auth` has looked at, when `rest` are left, and what was
recorded for them. -/
def Looked (checker : AuthorityChecker Key) (n : ℕ) (auth : Authority Key)
    (rest : List (Factor Key)) (start s : CheckerState Key) : Prop :=
  ∃ done, checker.visited auth = done ++ rest ∧
    checker.Records (checker.OwnKey done) (done.flatMap (accountVisits (checker.visits n))) start s

section
variable (hprovided : checker.providedPermissions = ∅) (hregular : checker.AllRegular)
  (hnested : checker.NestedAnswers n nested) (hrecords : checker.NestedRecords n nested)
include hprovided hregular hnested hrecords

theorem Looked.next (hready : checker.Ready n s.cache auth)
    (hs' : checker.Tallied auth s (f :: rest) total s')
    (h : checker.Looked n auth (checker.reached auth.threshold (f :: rest) total) s s') :
    checker.Looked n auth
      (if auth.threshold ≤ f.addTo (checker.visit nested f s').1 total then [] else
        checker.reached auth.threshold rest (f.addTo (checker.visit nested f s').1 total))
      s (checker.visit nested f s').2 := by
  classical
  obtain ⟨done, hdone, hrec⟩ := h
  have hanswer := (hs'.visit_answers hregular hnested hready).answer
  have hcounts : decide (checker.Earned checker.Granted f) = (checker.visit nested f s').1 := by
    rw [Bool.eq_iff_iff, hanswer, decide_eq_true_iff]
  have hvisit := visit_records hprovided hregular hrecords hs'.exact hrec.complete
    (hready.of_evaluated hs'.evaluated) (hs'.mem f mem_cons_self)
  refine ⟨done ++ [f], ?_, ?_⟩
  · rw [hdone, append_assoc, singleton_append, ← hcounts]
    congr!
  · rw [flatMap_append, flatMap_singleton]
    exact (hrec.append hvisit).congr fun k => ownKey_append

theorem tally_records (h : checker.Exact s.cache) (hready : checker.Ready n s.cache auth)
    (hcomplete : checker.Complete s.cache) :
    checker.Looked n auth [] s (checker.tally nested auth.threshold auth.factors 0 s).2 := by
  refine tally_rule (I := fun rest total s' => checker.Tallied auth s rest total s' ∧
      checker.Looked n auth (checker.reached auth.threshold rest total) s s')
    (Q := fun _ s' => checker.Looked n auth [] s s') ?_ ?_ (fun total s' hs' => hs'.2)
    ⟨.start h hready, [], rfl, (Records.nil hcomplete).congr (by simp [OwnKey])⟩
  · rintro f rest total s' ⟨hs', hlooked⟩ hreached
    have hnext := hlooked.next hprovided hregular hnested hrecords hready hs'
    rwa [if_pos hreached] at hnext
  · rintro f rest total s' ⟨hs', hlooked⟩ hbelow
    have hnext := hlooked.next hprovided hregular hnested hrecords hready hs'
    rw [if_neg hbelow] at hnext
    exact ⟨hs'.next (hs'.visit_answers hregular hnested hready) hbelow, hnext⟩

theorem evaluate_records (h : checker.Exact s.cache) (hready : checker.Ready n s.cache auth)
    (hcomplete : checker.Complete s.cache) :
    checker.Records
      (fun k => (checker.rule auth).Met checker.Granted ∧ checker.OwnKey (checker.visited auth) k)
      (inside ((checker.rule auth).Met checker.Granted)
        ((checker.visited auth).flatMap (accountVisits (checker.visits n)))) s
      (checker.evaluate nested auth s).2 := by
  have hanswer := (tally_answers hregular hnested h hready).answer
  obtain ⟨done, hdone, hrec⟩ := tally_records hprovided hregular hnested hrecords h hready hcomplete
  rw [append_nil] at hdone
  subst hdone
  unfold evaluate
  dsimp only
  split_ifs with hr
  · have hmet := hanswer.mp hr
    rw [inside_of_true hmet]
    exact hrec.congr fun k => and_iff_right hmet
  · have hmet := fun hmet => hr (hanswer.mpr hmet)
    refine ⟨hrec.complete, fun q => ?_, fun k => ?_⟩
    · rw [keysOf_inside]
      exact hrec.cached q
    · refine ⟨.inl, ?_⟩
      rintro (hk | ⟨hk, -⟩ | ⟨q, -, hkept⟩)
      · exact hk
      · exact absurd hk hmet
      · exact absurd (mem_of_find_eq_some hkept.1) (not_mem_inside hmet)

end

section
variable (hprovided : checker.providedPermissions = ∅) (hregular : checker.AllRegular)
include hprovided hregular

theorem nested_records (n : ℕ) : checker.NestedRecords n (checker.nested n) := by
  induction n with
  | zero => exact fun m hm => absurd hm (by simp)
  | succ n ih =>
    rintro m hm
    cases hm
    exact ⟨_, rfl, fun auth s h hready hcomplete =>
      evaluate_records hprovided hregular (nested_answers hregular n) ih h hready hcomplete⟩

/-- Which keys a check marks that starts with an empty cache. -/
theorem satisfiedAlone_used
    (hdepth : checker.grants.WithinDepth checker.recursionDepthLimit.toNat p) {used : Finset Key} :
    k ∈ (checker.satisfiedAlone p used).2 ↔ k ∈ used ∨
      ∃ q, checker.Kept (checker.visits checker.recursionDepthLimit.toNat p) q k := by
  have hnone : ∀ q, checker.initializePermissionCache q = none := by
    simp [initializePermissionCache, hprovided]
  have hrec := visitPermission_records (s := ⟨checker.initializePermissionCache, used⟩) hprovided
    hregular (nested_records hprovided hregular _) initializePermissionCache_exact
    (fun q auth _ hq => absurd (hnone q) hq) hdepth (fun q _ => by simp [hnone])
  refine (hrec.used k).trans ?_
  simp only [hnone, true_and, false_or]

end

end AuthorityChecker
end FlonCore
