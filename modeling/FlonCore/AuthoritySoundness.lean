import FlonCore.AuthorityChecker
import FlonCore.Library.Threshold

/-!
# What the authority checker accepts is granted

A permission is granted if it is provided or if the provided keys, the waits and the
granted permissions reach the threshold of its authority. The cache only ever says
that a permission is satisfied when it is granted, whatever was asked before and
however the permissions refer to each other. The keys marked as used are provided
keys of authorities that were reached.
-/

namespace FlonCore
open Library Function List
open Factor

variable {Key : Type}

theorem emplaceFactor_perm (permissions : List (Factor Key)) (f : Factor Key) :
    (emplaceFactor permissions f).Perm (f :: permissions) := by
  refine perm_middle.trans ?_
  rw [takeWhile_append_dropWhile]

theorem foldl_emplaceFactor_perm (l permissions : List (Factor Key)) :
    (l.foldl emplaceFactor permissions).Perm (permissions ++ l) := by
  induction l generalizing permissions with
  | nil => simp
  | cons f rest ih =>
    refine (ih _).trans ?_
    exact ((emplaceFactor_perm permissions f).append_right rest).trans perm_middle.symm

theorem Authority.factors_perm (auth : Authority Key) :
    auth.factors.Perm (auth.accounts.map account ++ auth.keys.map key ++ auth.waits.map wait) :=
  foldl_emplaceFactor_perm _ []

namespace AuthorityChecker
variable [DecidableEq Key] {checker : AuthorityChecker Key}

def rule (checker : AuthorityChecker Key) (auth : Authority Key) :
    ThresholdRule PermissionLevel where
  threshold := auth.threshold.toNat
  own := (auth.keys.map fun k => if k.key ∈ checker.providedKeys then k.weight.toNat else 0).sum +
    (auth.waits.map fun w => if checker.visitWait w then w.weight.toNat else 0).sum
  children := auth.accounts.map fun a => (a.permission, a.weight.toNat)

/-- A permission is given if it or its actor without a permission name is provided. -/
def grants (checker : AuthorityChecker Key) : ThresholdSystem PermissionLevel where
  given p := p ∈ checker.providedPermissions ∨ ⟨p.actor, 0⟩ ∈ checker.providedPermissions
  rule p := (checker.permissionToAuthority p).map checker.rule

def Granted (checker : AuthorityChecker Key) (p : PermissionLevel) : Prop :=
  checker.grants.Derives p

def Earned (checker : AuthorityChecker Key) (P : PermissionLevel → Prop) : Factor Key → Prop
  | .account a => P a.permission
  | .key k => k.key ∈ checker.providedKeys
  | .wait w => checker.visitWait w = true

open Classical in
noncomputable def earnedWeight (checker : AuthorityChecker Key) (P : PermissionLevel → Prop)
    (f : Factor Key) : ℕ :=
  if checker.Earned P f then f.weight.toNat else 0

theorem sum_earnedWeight (auth : Authority Key) (P : PermissionLevel → Prop) :
    (auth.factors.map (checker.earnedWeight P)).sum = (checker.rule auth).weight P := by
  rw [(auth.factors_perm.map _).sum_eq]
  simp only [map_append, map_map, sum_append, ThresholdRule.weight, rule]
  have hkeys : auth.keys.map (checker.earnedWeight P ∘ key) =
      auth.keys.map fun k => if k.key ∈ checker.providedKeys then k.weight.toNat else 0 := by
    refine map_congr_left fun k _ => ?_
    simp only [Function.comp, earnedWeight, Earned, weight]
    congr
  have hwaits : auth.waits.map (checker.earnedWeight P ∘ wait) =
      auth.waits.map fun w => if checker.visitWait w then w.weight.toNat else 0 := by
    refine map_congr_left fun w _ => ?_
    simp only [Function.comp, earnedWeight, Earned, weight]
    congr
  rw [hkeys, hwaits, add_assoc, add_comm]
  rfl

theorem tally_rule {nested : Option (Evaluator Key)} {threshold : UInt32}
    {I : List (Factor Key) → UInt32 → CheckerState Key → Prop}
    {Q : Bool → CheckerState Key → Prop}
    (hreached : ∀ f rest total s, I (f :: rest) total s →
      threshold ≤ f.addTo (checker.visit nested f s).1 total → Q true (checker.visit nested f s).2)
    (hnext : ∀ f rest total s, I (f :: rest) total s →
      ¬ threshold ≤ f.addTo (checker.visit nested f s).1 total →
      I rest (f.addTo (checker.visit nested f s).1 total) (checker.visit nested f s).2)
    (hdone : ∀ total s, I [] total s → Q false s) {factors : List (Factor Key)} {total : UInt32}
    {s : CheckerState Key} (h : I factors total s) :
    Q (checker.tally nested threshold factors total s).1
      (checker.tally nested threshold factors total s).2 := by
  induction factors generalizing total s with
  | nil => exact hdone total s h
  | cons f rest ih =>
    unfold tally
    dsimp only
    split_ifs with hle
    · exact hreached f rest total s h hle
    · exact ih (hnext f rest total s h hle)

theorem nested_rule {R : Authority Key → CheckerState Key → Bool × CheckerState Key → Prop}
    (h : ∀ nested, (∀ ev, nested = some ev → ∀ auth s, R auth s (ev auth s)) →
      ∀ auth s, R auth s (checker.evaluate nested auth s)) (n : ℕ) (ev : Evaluator Key)
    (hev : checker.nested n = some ev) (auth : Authority Key) (s : CheckerState Key) :
    R auth s (ev auth s) := by
  induction n generalizing ev auth s with
  | zero => exact absurd hev (by simp [AuthorityChecker.nested])
  | succ n ih =>
    cases hev
    exact h _ ih auth s

/-- What a cache may say: what is satisfied is granted, and only permissions that are
provided or have an authority are known. -/
structure Sound (checker : AuthorityChecker Key) (cache : PermissionCache) : Prop where
  granted : ∀ p, cache p = some .permissionSatisfied → checker.Granted p
  known : ∀ p, cache p ≠ none →
    p ∈ checker.providedPermissions ∨ checker.permissionToAuthority p ≠ none

theorem initializePermissionCache_sound : checker.Sound checker.initializePermissionCache := by
  constructor
  · intro p hp
    refine .given (.inl ?_)
    by_contra hnot
    simp [initializePermissionCache, hnot] at hp
  · intro p hp
    refine .inl ?_
    by_contra hnot
    simp [initializePermissionCache, hnot] at hp

variable {s : CheckerState Key} {p : PermissionLevel}

omit [DecidableEq Key] in
theorem permissionToAuthority_named {auth : Authority Key}
    (h : checker.permissionToAuthority p = some auth) : p.permission ≠ 0 := by
  intro hzero
  simp [permissionToAuthority, findPermission, eosAssert, hzero, bind, Except.bind] at h

variable {cache : PermissionCache}

theorem Sound.unnamed (h : checker.Sound cache) {actor : AccountName}
    (hactor : cache ⟨actor, 0⟩ ≠ none) : ⟨actor, 0⟩ ∈ checker.providedPermissions := by
  refine (h.known _ hactor).resolve_right fun hauth => ?_
  obtain ⟨auth, hauth⟩ := Option.ne_none_iff_exists'.mp hauth
  exact permissionToAuthority_named hauth rfl

theorem Sound.status (h : checker.Sound cache)
    (hstatus : permissionStatusInCache cache p = some .permissionSatisfied) :
    checker.Granted p := by
  unfold permissionStatusInCache at hstatus
  cases hcache : cache p with
  | some status =>
    rw [hcache] at hstatus
    exact h.granted p (hcache.trans hstatus)
  | none =>
    rw [hcache] at hstatus
    refine .given (.inr (h.unnamed ?_))
    change cache ⟨p.actor, 0⟩ = _ at hstatus
    rw [hstatus]
    simp

theorem Sound.update (h : checker.Sound cache) {auth : Authority Key}
    (hauth : checker.permissionToAuthority p = some auth) {status : PermissionCacheStatus}
    (hstatus : status = .permissionSatisfied → checker.Granted p) :
    checker.Sound (Function.update cache p (some status)) := by
  constructor
  · intro q hq
    by_cases hqp : q = p
    · subst hqp
      rw [update_self] at hq
      exact hstatus (Option.some.inj hq)
    · rw [update_of_ne hqp] at hq
      exact h.granted q hq
  · intro q hq
    by_cases hqp : q = p
    · subst hqp
      exact .inr (by simp [hauth])
    · rw [update_of_ne hqp] at hq
      exact h.known q hq

def SoundResult (checker : AuthorityChecker Key) (auth : Authority Key) (s : CheckerState Key)
    (res : Bool × CheckerState Key) : Prop :=
  checker.Sound s.cache → checker.Sound res.2.cache ∧
    (res.1 = true → (checker.rule auth).Met checker.Granted)

variable {nested : Option (Evaluator Key)}

section
variable (hnested : ∀ ev, nested = some ev → ∀ auth s, checker.SoundResult auth s (ev auth s))
  (h : checker.Sound s.cache)
include hnested h

theorem visitPermission_sound :
    checker.Sound (checker.visitPermission nested p s).2.cache ∧
      ((checker.visitPermission nested p s).1 = true → checker.Granted p) := by
  unfold visitPermission
  cases hstatus : permissionStatusInCache s.cache p with
  | some status => exact ⟨h, fun hsat => h.status (hstatus.trans (by simpa using hsat))⟩
  | none =>
    cases nested with
    | none => exact ⟨h, by simp⟩
    | some ev =>
      cases hauth : checker.permissionToAuthority p with
      | none => exact ⟨h, by simp⟩
      | some auth =>
        obtain ⟨hsound, hmet⟩ := hnested ev rfl auth
          { s with cache := Function.update s.cache p (some .beingEvaluated) }
          (h.update hauth (by simp))
        have hgranted := fun hr => ThresholdSystem.Derives.of_met
          (show checker.grants.rule p = _ by simp [grants, hauth]) (hmet hr)
        refine ⟨hsound.update hauth ?_, hgranted⟩
        intro hr
        refine hgranted ?_
        by_contra hfalse
        simp [hfalse] at hr

theorem visit_sound (f : Factor Key) :
    checker.Sound (checker.visit nested f s).2.cache ∧
      ((checker.visit nested f s).1 = true → checker.Earned checker.Granted f) := by
  cases f with
  | account a => exact visitPermission_sound hnested h
  | key k =>
    change checker.Sound (checker.visitKey k.key s).2.cache ∧
      ((checker.visitKey k.key s).1 = true → k.key ∈ checker.providedKeys)
    unfold visitKey
    split_ifs with hk
    · exact ⟨h, fun _ => hk⟩
    · exact ⟨h, by simp⟩
  | wait w => exact ⟨h, id⟩

end

omit [DecidableEq Key] in
theorem addTo_le {f : Factor Key} {counts : Bool} {P : PermissionLevel → Prop} (total : UInt32)
    (h : counts = true → checker.Earned P f) :
    (f.addTo counts total).toNat ≤ total.toNat + checker.earnedWeight P f := by
  unfold addTo
  split_ifs with hcounts
  · rw [earnedWeight, if_pos (h hcounts), UInt32.toNat_add, UInt16.toNat_toUInt32]
    exact Nat.mod_le _ _
  · omega

section
variable (hnested : ∀ ev, nested = some ev → ∀ auth s, checker.SoundResult auth s (ev auth s))
  (auth : Authority Key)
include hnested auth

theorem tally_sound (h : checker.Sound s.cache) :
    checker.Sound (checker.tally nested auth.threshold auth.factors 0 s).2.cache ∧
      ((checker.tally nested auth.threshold auth.factors 0 s).1 = true →
        (checker.rule auth).Met checker.Granted) := by
  -- what was added so far and what can still be earned is at most what the rule counts
  refine tally_rule (I := fun rest total s => checker.Sound s.cache ∧
      total.toNat + (rest.map (checker.earnedWeight checker.Granted)).sum ≤
        (checker.rule auth).weight checker.Granted)
    (Q := fun r s => checker.Sound s.cache ∧ (r = true → (checker.rule auth).Met checker.Granted))
    ?_ ?_ ?_ ?_
  · rintro f rest total s ⟨hsound, hle⟩ hreached
    obtain ⟨hsound', hearned⟩ := visit_sound hnested hsound f
    refine ⟨hsound', fun _ => ?_⟩
    have hadd := addTo_le total hearned
    rw [map_cons, sum_cons] at hle
    exact (hreached.trans hadd).trans (by omega)
  · rintro f rest total s ⟨hsound, hle⟩ -
    obtain ⟨hsound', hearned⟩ := visit_sound hnested hsound f
    refine ⟨hsound', ?_⟩
    have hadd := addTo_le total hearned
    rw [map_cons, sum_cons] at hle
    omega
  · rintro total s ⟨hsound, -⟩
    exact ⟨hsound, by simp⟩
  · rw [sum_earnedWeight]
    exact ⟨h, by simp⟩

theorem evaluate_sound (s : CheckerState Key) :
    checker.SoundResult auth s (checker.evaluate nested auth s) := by
  intro h
  obtain ⟨hsound, hmet⟩ := tally_sound hnested auth h
  refine ⟨?_, hmet⟩
  unfold evaluate
  dsimp only
  split_ifs
  · exact hsound
  · exact hsound

end

theorem nested_sound (n : ℕ) (ev : Evaluator Key) (hev : checker.nested n = some ev)
    (auth : Authority Key) (s : CheckerState Key) : checker.SoundResult auth s (ev auth s) :=
  nested_rule (fun _ => evaluate_sound) n ev hev auth s

variable {A : Authority Key → Prop} {M : Key → Prop}

/-- Authorities that are closed under the permissions they name, with the keys they may mark. -/
structure Closed (checker : AuthorityChecker Key) (A : Authority Key → Prop) (M : Key → Prop) :
    Prop where
  accounts : ∀ auth, A auth → ∀ a ∈ auth.accounts, ∀ auth',
    checker.permissionToAuthority a.permission = some auth' → A auth'
  keys : ∀ auth, A auth → ∀ k ∈ auth.keys, k.key ∈ checker.providedKeys → M k.key

/-- Only keys in `M` are marked, starting with an authority in `A`. -/
def MarksOnly (A : Authority Key → Prop) (M : Key → Prop) (auth : Authority Key)
    (s : CheckerState Key) (res : Bool × CheckerState Key) : Prop :=
  A auth → (∀ k ∈ s.usedKeys, M k) → ∀ k ∈ res.2.usedKeys, M k

omit [DecidableEq Key] in
theorem visitPermission_marks
    (hnested : ∀ ev, nested = some ev → ∀ auth s, MarksOnly A M auth s (ev auth s))
    {level : PermissionLevel}
    (hlevel : ∀ auth, checker.permissionToAuthority level = some auth → A auth)
    (h : ∀ k ∈ s.usedKeys, M k) :
    ∀ k ∈ (checker.visitPermission nested level s).2.usedKeys, M k := by
  unfold visitPermission
  cases permissionStatusInCache s.cache level with
  | some status => exact h
  | none =>
    cases nested with
    | none => exact h
    | some ev =>
      cases hauth : checker.permissionToAuthority level with
      | none => exact h
      | some auth =>
        exact hnested ev rfl auth
          { s with cache := Function.update s.cache level (some .beingEvaluated) }
          (hlevel auth hauth) h

section
variable (hclosed : checker.Closed A M)
  (hnested : ∀ ev, nested = some ev → ∀ auth s, MarksOnly A M auth s (ev auth s))
include hclosed hnested

theorem visit_marks {auth : Authority Key} (hauth : A auth) {f : Factor Key} (hf : f ∈ auth.factors)
    (h : ∀ k ∈ s.usedKeys, M k) : ∀ k ∈ (checker.visit nested f s).2.usedKeys, M k := by
  have hmem := auth.factors_perm.mem_iff.mp hf
  cases f with
  | account a =>
    have ha : a ∈ auth.accounts := by simpa using hmem
    exact visitPermission_marks hnested (hclosed.accounts auth hauth a ha) h
  | key kw =>
    have hkw : kw ∈ auth.keys := by simpa using hmem
    change ∀ k ∈ (checker.visitKey kw.key s).2.usedKeys, M k
    unfold visitKey
    split_ifs with hprovided
    · intro k hk
      rcases Finset.mem_insert.mp hk with rfl | hk
      · exact hclosed.keys auth hauth kw hkw hprovided
      · exact h k hk
    · exact h
  | wait w => exact h

theorem evaluate_marks (auth : Authority Key) (s : CheckerState Key) :
    MarksOnly A M auth s (checker.evaluate nested auth s) := by
  intro hauth h
  have htally : ∀ k ∈ (checker.tally nested auth.threshold auth.factors 0 s).2.usedKeys, M k :=
    tally_rule (I := fun rest _ s => (∀ f ∈ rest, f ∈ auth.factors) ∧ ∀ k ∈ s.usedKeys, M k)
      (Q := fun _ s => ∀ k ∈ s.usedKeys, M k)
      (fun f _ _ _ hI _ => visit_marks hclosed hnested hauth (hI.1 f mem_cons_self) hI.2)
      (fun f _ _ _ hI _ => ⟨fun g hg => hI.1 g (mem_cons_of_mem f hg),
        visit_marks hclosed hnested hauth (hI.1 f mem_cons_self) hI.2⟩)
      (fun _ _ hI => hI.2) ⟨fun _ hf => hf, h⟩
  unfold evaluate
  dsimp only
  split_ifs
  · exact htally
  · exact h

end

variable (checker)

def Names (p q : PermissionLevel) : Prop :=
  ∃ auth, checker.permissionToAuthority p = some auth ∧ ∃ a ∈ auth.accounts, a.permission = q

inductive Call (Key : Type)
  | permission (level : PermissionLevel)
  | authority (auth : Authority Key)

namespace Call

def run (s : CheckerState Key) : Call Key → Bool × CheckerState Key
  | .permission level => checker.satisfied level s
  | .authority auth => checker.satisfiedAuthority auth s

def Granted (checker : AuthorityChecker Key) : Call Key → Prop
  | .permission level => checker.Granted level
  | .authority auth => (checker.rule auth).Met checker.Granted

inductive Reaches (checker : AuthorityChecker Key) : Call Key → Authority Key → Prop
  | permission {level q : PermissionLevel} {auth : Authority Key}
      (h : Relation.ReflTransGen checker.Names level q)
      (hauth : checker.permissionToAuthority q = some auth) :
      Reaches checker (.permission level) auth
  | asked (auth : Authority Key) : Reaches checker (.authority auth) auth
  | account {auth auth' : Authority Key} {a : PermissionLevelWeight} (ha : a ∈ auth.accounts)
      (h : Reaches checker (.permission a.permission) auth') :
      Reaches checker (.authority auth) auth'

end Call

def afterCalls (calls : List (Call Key)) : CheckerState Key :=
  calls.foldl (fun s call => (call.run checker s).2) ⟨checker.initializePermissionCache, ∅⟩

variable {checker} {call : Call Key}

theorem Call.run_sound (h : checker.Sound s.cache) : checker.Sound (call.run checker s).2.cache ∧
    ((call.run checker s).1 = true → call.Granted checker) := by
  cases call with
  | permission level => exact visitPermission_sound (nested_sound _) h
  | authority auth => exact evaluate_sound (nested_sound _) auth s h

omit [DecidableEq Key] in
theorem Call.Reaches.closed (call : Call Key) {auth auth' : Authority Key}
    (h : call.Reaches checker auth) {a : PermissionLevelWeight} (ha : a ∈ auth.accounts)
    (hauth' : checker.permissionToAuthority a.permission = some auth') :
    call.Reaches checker auth' := by
  induction h with
  | permission h hauth => exact .permission (h.tail ⟨_, hauth, a, ha, rfl⟩) hauth'
  | asked auth => exact .account ha (.permission .refl hauth')
  | account hb _ ih => exact .account hb (ih ha)

theorem Call.run_marks {M : Key → Prop}
    (hM : ∀ auth, call.Reaches checker auth → ∀ k ∈ auth.keys, k.key ∈ checker.providedKeys →
      M k.key) (h : ∀ k ∈ s.usedKeys, M k) : ∀ k ∈ (call.run checker s).2.usedKeys, M k := by
  have hclosed : checker.Closed (call.Reaches checker) M :=
    ⟨fun _ hauth _ ha _ hauth' => hauth.closed call ha hauth', hM⟩
  have hnested := nested_rule (fun _ => evaluate_marks hclosed)
  cases call with
  | permission level =>
    exact visitPermission_marks (hnested _) (fun auth hauth => .permission .refl hauth) h
  | authority auth => exact evaluate_marks hclosed (hnested _) auth s (.asked auth) h

theorem afterCalls_sound (calls : List (Call Key)) :
    checker.Sound (checker.afterCalls calls).cache := by
  induction calls using List.reverseRecOn with
  | nil => exact initializePermissionCache_sound
  | append_singleton calls call ih =>
    rw [afterCalls, foldl_append]
    exact (Call.run_sound ih).1

/-- What `satisfied` accepts is granted, and the marked keys are provided keys of authorities
that were reached, in every sequence of calls that share a cache. -/
theorem satisfied_sound (checker : AuthorityChecker Key) (calls : List (Call Key)) :
    (∀ call : Call Key, (call.run checker (checker.afterCalls calls)).1 = true →
      call.Granted checker) ∧
    ∀ k ∈ (checker.afterCalls calls).usedKeys, k ∈ checker.providedKeys ∧
      ∃ call ∈ calls, ∃ auth, call.Reaches checker auth ∧ ∃ kw ∈ auth.keys, kw.key = k := by
  refine ⟨fun call => (Call.run_sound (afterCalls_sound calls)).2, ?_⟩
  induction calls using List.reverseRecOn with
  | nil => simp [afterCalls]
  | append_singleton calls call ih =>
    rw [afterCalls, foldl_append]
    refine Call.run_marks (fun auth hauth kw hkw hprovided => ?_) fun k hk => ?_
    · exact ⟨hprovided, call, by simp, auth, hauth, kw, hkw, rfl⟩
    · obtain ⟨hprovided, call', hcall', hrest⟩ := ih k hk
      exact ⟨hprovided, call', by simp [hcall'], hrest⟩

end AuthorityChecker
end FlonCore
