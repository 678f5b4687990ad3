import FlonCore.CheckedActions

/-!
# Transactions whose actions keep the authority they were checked for

Each action of a transaction is applied with the authority that its check asks for in the
state just before it, unless an earlier action deleted the permission that the check
compared with or changed the link it was looked up from.
-/

namespace FlonCore
open Library List
open Outcome

namespace NativeDb
variable {Key : Type} {ext : Externals Key} {context : ApplyContext Key}
  {config : AuthorizationConfig} {db mid db' : NativeDb Key}
  {before : List (DeclaredAction Key)} {auths : List PermissionLevel}

section Collecting
variable {satisfiedAuthorizations : Finset PermissionLevel} {delay : ℤ}

theorem collectActions_checked {actions : List (DeclaredAction Key)}
    {start result : List (PermissionLevel × ℤ)}
    (h : db.collectActions config satisfiedAuthorizations delay actions start =
      .returns result) :
    ∀ a ∈ actions, db.checkSpecialCase config a.authorization a.data = .returns () := by
  induction actions generalizing start with
  | nil => simp
  | cons a rest ih =>
    obtain ⟨⟨⟩, hcheck, h⟩ := bind_eq_returns.mp h
    obtain ⟨next, -, h⟩ := bind_eq_returns.mp h
    exact forall_mem_cons.mpr ⟨hcheck, ih h⟩

end Collecting

section Actions

variable {auth : PermissionLevel}

theorem onlyDeclared_eq_ok {account : AccountName} {single actor : String}
    (h : onlyDeclared account auths single actor = .ok auth) : auths = [auth] := by
  unfold onlyDeclared at h
  split at h
  · obtain ⟨-, h⟩ := seq_eq_ok.mp h
    rw [Except.ok.inj h]
  · exact absurd h (by simp)

/-- No earlier action deletes the permission that the check compares with, or changes the
link that it is looked up from. -/
def Undisturbed (db : NativeDb Key) (before : List (DeclaredAction Key)) :
    NativeAction Key → Prop
  | .updateauth update => ∀ a ∈ before, a.data.deletes ≠ some ⟨update.account,
      if ⟨update.account, update.permission⟩ ∈ db.permissions.keys then update.permission
      else update.parent⟩
  | .deleteauth remove => ∀ a ∈ before,
      a.data.deletes ≠ some ⟨remove.account, remove.permission⟩
  | .linkauth link => db.LinkUndisturbed before link.account link.code link.type
  | .unlinkauth unlink => db.LinkUndisturbed before unlink.account unlink.code unlink.type
  | _ => True

variable [LinearOrder Key] (hdb : db.PermissionTree)
  (hbefore : db.applyActions ext context before = .ok mid)
include hdb hbefore

variable {message : String}

theorem checkSatisfies_later {y : ℕ} {q : PermissionObject Key} (hq : (y, q) ∈ db.permissions.rows)
    (hcheck : db.checkSatisfies auth (y, q) message = .returns ())
    (hkept : ∀ a ∈ before, a.data.deletes ≠ some q.level) :
    ∃ q', (y, q') ∈ mid.permissions.rows ∧ q'.level = q.level ∧ mid.DeclaresAbove auth y :=
  (applyActions_evolves hbefore).checkSatisfies hdb (hdb.applyActions hbefore) hq hcheck
    (applyActions_kept hbefore (mem_shapes.mpr ⟨q, hq, rfl⟩) hkept)

theorem checkPermission_later {auth level : PermissionLevel}
    (hcheck : (ofExcept (db.getPermission level) >>= (db.checkSatisfies auth · message)) =
      .returns ()) (hkept : ∀ a ∈ before, a.data.deletes ≠ some level) :
    (ofExcept (mid.getPermission level) >>= (mid.checkSatisfies auth · message)) = .returns () := by
  obtain ⟨⟨y, q⟩, hmin, hcheck⟩ := bind_eq_returns.mp hcheck
  rw [ofExcept_eq_returns] at hmin
  obtain ⟨hq, hlevel, hactor, hname⟩ := getPermission_eq_ok hmin
  obtain ⟨q', hq', hlevel', habove⟩ := checkSatisfies_later hdb hbefore hq hcheck (by rwa [hlevel])
  refine bind_eq_returns.mpr ⟨(y, q'), ?_, ?_⟩
  · exact ofExcept_eq_returns.mpr (getPermission_of_mem hq' (hlevel'.trans hlevel) hactor hname)
  · exact ((hdb.applyActions hbefore).checkSatisfies_iff hq').mpr habove

theorem checkUpdateauth_later {update : UpdateAuth Key} {context' : ApplyContext Key}
    (hcheck : db.checkUpdateauthAuthorization update auths = .returns ())
    (hundisturbed : db.Undisturbed before (.updateauth update))
    (happly : mid.applyEosioUpdateauth ext context' update = .ok db') :
    mid.checkUpdateauthAuthorization update auths = .returns () := by
  have hmid := hdb.applyActions hbefore
  obtain ⟨auth, hauth, hcheck⟩ := bind_eq_returns.mp hcheck
  obtain ⟨⟨y, q⟩, hmin, hcheck⟩ := bind_eq_returns.mp hcheck
  rw [ofExcept_eq_returns] at hmin
  obtain ⟨hq, haccount, hpermission, hlevel⟩ := minimumForUpdate_eq_ok hmin
  suffices h : ∃ z r, mid.minimumForUpdate update = .ok (z, r) ∧
      (z, r) ∈ mid.permissions.rows ∧ mid.DeclaresAbove auth z by
    obtain ⟨z, r, hmin, hr, habove⟩ := h
    refine bind_eq_returns.mpr ⟨auth, hauth, bind_eq_returns.mpr ⟨(z, r), ?_, ?_⟩⟩
    · exact ofExcept_eq_returns.mpr hmin
    · exact (hmid.checkSatisfies_iff hr).mpr habove
  rcases hlevel with hlevel | ⟨habsent, hlevel, hparent⟩
  · have hkey : ⟨update.account, update.permission⟩ ∈ db.permissions.keys :=
      Table.mem_keys.mpr ⟨y, q, hq, hlevel⟩
    have hkept : ∀ a ∈ before, a.data.deletes ≠ some q.level := by
      rw [hlevel]
      simpa only [Undisturbed, if_pos hkey] using hundisturbed
    obtain ⟨q', hq', hlevel', habove⟩ := checkSatisfies_later hdb hbefore hq hcheck hkept
    exact ⟨y, q', minimumForUpdate_of_mem haccount hpermission hq' (hlevel'.trans hlevel), hq',
      habove⟩
  · have hkept : ∀ a ∈ before, a.data.deletes ≠ some q.level := by
      rw [hlevel]
      simpa only [Undisturbed, if_neg habsent] using hundisturbed
    obtain ⟨q', hq', hlevel', habove⟩ := checkSatisfies_later hdb hbefore hq hcheck hkept
    rw [hlevel] at hlevel'
    by_cases habsent' : ⟨update.account, update.permission⟩ ∈ mid.permissions.keys
    · obtain ⟨z, p, hp, hp'⟩ := Table.mem_keys.mp habsent'
      have hbelow := created_below hdb happly habsent hq hlevel haccount hq' hlevel' hp hp'
      refine ⟨z, p, minimumForUpdate_of_mem haccount hpermission hp hp', hp, ?_⟩
      obtain ⟨hactor, hname, x, o, ho, holevel, habove⟩ := habove
      exact ⟨hactor, hname, x, o, ho, holevel, habove.trans hbelow⟩
    · exact ⟨y, q', minimumForUpdate_of_absent haccount hpermission hq' hparent habsent' hlevel',
        hq', habove⟩

theorem checkDeleteauth_later {remove : DeleteAuth}
    (hcheck : db.checkDeleteauthAuthorization remove auths = .returns ())
    (hundisturbed : db.Undisturbed before (.deleteauth remove)) :
    mid.checkDeleteauthAuthorization remove auths = .returns () := by
  obtain ⟨auth, hauth, hcheck⟩ := bind_eq_returns.mp hcheck
  exact bind_eq_returns.mpr ⟨auth, hauth, checkPermission_later hdb hbefore hcheck hundisturbed⟩

theorem checkLinked_later {account scope : AccountName} {actName : ActionName}
    {linked : Option PermissionName}
    (hund : db.LinkUndisturbed before account scope actName)
    (hlinked : ∀ name, linked = some name → name = activeName ∨
      db.lookupLinkedPermission account scope actName = some name)
    (hcheck : db.checkLinked account auth linked message = .returns ()) :
    mid.checkLinked account auth linked message = .returns () := by
  cases linked with
  | none => rfl
  | some name =>
    exact checkPermission_later hdb hbefore hcheck (hund.kept hbefore (hlinked name rfl))

theorem checkLinkauth_later {link : LinkAuth}
    (hcheck : db.checkLinkauthAuthorization config link auths = .returns ())
    (hundisturbed : db.LinkUndisturbed before link.account link.code link.type) :
    mid.checkLinkauthAuthorization config link auths = .returns () := by
  obtain ⟨auth, hauth, hcheck⟩ := bind_eq_returns.mp hcheck
  obtain ⟨⟨⟩, htype, hcheck⟩ := bind_eq_returns.mp hcheck
  obtain ⟨linked, hlinked, hcheck⟩ := bind_eq_returns.mp hcheck
  refine bind_eq_returns.mpr ⟨auth, hauth, bind_eq_returns.mpr ⟨(), htype,
    bind_eq_returns.mpr ⟨linked, ?_, ?_⟩⟩⟩
  · unfold lookupMinimumPermission
    rw [hundisturbed.lookup hbefore]
    exact hlinked
  · refine checkLinked_later hdb hbefore hundisturbed (fun name hname => ?_) hcheck
    rw [ofExcept_eq_returns] at hlinked
    obtain ⟨-, hlinked⟩ := seq_eq_ok.mp hlinked
    subst hname
    cases hlookup : db.lookupLinkedPermission link.account link.code link.type with
    | none =>
      rw [hlookup] at hlinked
      exact .inl (Option.some.inj (Except.ok.inj hlinked)).symm
    | some name' =>
      rw [hlookup] at hlinked
      have hite := Except.ok.inj hlinked
      split_ifs at hite
      exact .inr hite

theorem checkUnlinkauth_later {unlink : UnlinkAuth}
    (hcheck : db.checkUnlinkauthAuthorization unlink auths = .returns ())
    (hundisturbed : db.LinkUndisturbed before unlink.account unlink.code unlink.type) :
    mid.checkUnlinkauthAuthorization unlink auths = .returns () := by
  obtain ⟨auth, hauth, hcheck⟩ := bind_eq_returns.mp hcheck
  obtain ⟨linked, hlinked, hcheck⟩ := bind_eq_returns.mp hcheck
  refine bind_eq_returns.mpr ⟨auth, hauth, bind_eq_returns.mpr ⟨linked, ?_, ?_⟩⟩
  · unfold unlinkedPermission
    rw [hundisturbed.lookup hbefore]
    exact hlinked
  · refine checkLinked_later hdb hbefore hundisturbed (fun name hname => .inr ?_) hcheck
    rw [ofExcept_eq_returns] at hlinked
    unfold unlinkedPermission at hlinked
    subst hname
    cases hlookup : db.lookupLinkedPermission unlink.account unlink.code unlink.type with
    | none =>
      rw [hlookup] at hlinked
      exact absurd hlinked (by simp)
    | some name' =>
      rw [hlookup] at hlinked
      have hite := Except.ok.inj hlinked
      split_ifs at hite
      exact hite

end Actions

section Transactions
variable [LinearOrder Key] {allowed : ApplyContext Key → NativeAction Key → Prop}
  {satisfiedAuthorizations : Finset PermissionLevel}

theorem applyActions_append {after : List (DeclaredAction Key)}
    (h : db.applyActions ext context (before ++ after) = .ok db')
    (hbefore : db.applyActions ext context before = .ok mid) :
    mid.applyActions ext context after = .ok db' := by
  induction before generalizing db with
  | nil => exact Except.ok.inj hbefore ▸ h
  | cons a rest ih =>
    obtain ⟨next, hnext, h⟩ := bind_eq_ok.mp h
    obtain ⟨next', hnext', hbefore⟩ := bind_eq_ok.mp hbefore
    cases hnext.symm.trans hnext'
    exact ih h hbefore

/-- The check of an action still holds in the state in which the action is applied, and what it
creates is below what it declares, unless an earlier action disturbs it. -/
theorem checked_when_applied (hreachable : Reachable ext allowed db)
    {providedKeys : Finset Key} {providedPermissions : Finset PermissionLevel}
    {providedDelay : ℤ} {allowUnusedKeys checkButDontFail : Bool} {a : DeclaredAction Key}
    {after : List (DeclaredAction Key)}
    (hcheck : db.checkAuthorization config satisfiedAuthorizations (before ++ a :: after)
      providedKeys providedPermissions providedDelay allowUnusedKeys checkButDontFail =
        .returns ())
    (happlied : db.applyActions ext context (before ++ a :: after) = .ok db')
    (hbefore : db.applyActions ext context before = .ok mid)
    (hundisturbed : db.Undisturbed before a.data) :
    mid.checkSpecialCase config a.authorization a.data = .returns () ∧
    ∀ update, a.data = .updateauth update →
      ⟨update.account, update.permission⟩ ∉ mid.permissions.keys →
      ∃ auth parent q, a.authorization = [auth] ∧ (parent, q) ∈ mid.permissions.rows ∧
        q.level = ⟨update.account, update.parent⟩ ∧ mid.DeclaresAbove auth parent := by
  have hdb := hreachable.permissionTree
  have hchecked : db.checkSpecialCase config a.authorization a.data = .returns () := by
    obtain ⟨toSatisfy, hcollect, -⟩ := bind_eq_returns.mp hcheck
    exact collectActions_checked hcollect a (mem_append_right _ mem_cons_self)
  obtain ⟨next, hnext, -⟩ := bind_eq_ok.mp (applyActions_append happlied hbefore)
  have hlater : mid.checkSpecialCase config a.authorization a.data = .returns () := by
    obtain ⟨authorization, data⟩ := a
    cases data with
    | updateauth update => exact checkUpdateauth_later hdb hbefore hchecked hundisturbed hnext
    | deleteauth remove => exact checkDeleteauth_later hdb hbefore hchecked hundisturbed
    | linkauth link => exact checkLinkauth_later hdb hbefore hchecked hundisturbed
    | unlinkauth unlink => exact checkUnlinkauth_later hdb hbefore hchecked hundisturbed
    | newaccount create => rfl
    | setcode act => rfl
    | setabi act => rfl
  refine ⟨hlater, fun update hupdate habsent => ?_⟩
  rw [hupdate] at hlater
  obtain ⟨auth, hauth, hlater⟩ := bind_eq_returns.mp hlater
  obtain ⟨⟨y, q⟩, hmin, hlater⟩ := bind_eq_returns.mp hlater
  rw [ofExcept_eq_returns] at hmin hauth
  obtain ⟨hq, -, -, hlevel⟩ := minimumForUpdate_eq_ok hmin
  refine ⟨auth, y, q, onlyDeclared_eq_ok hauth, hq, ?_,
    ((hdb.applyActions hbefore).checkSatisfies_iff hq).mp hlater⟩
  rcases hlevel with hlevel | ⟨-, hlevel, -⟩
  · exact absurd (Table.mem_keys.mpr ⟨y, q, hq, hlevel⟩) habsent
  · exact hlevel

end Transactions

def sampleConfig : AuthorizationConfig := ⟨3888000, 6, true⟩

def vote : PermissionName := stringToName "vote"

/-- What `check_authorization` says before the actions and what the check of the last action
says just before it, if all actions are applied. -/
def probe (setup before : List (DeclaredAction ℕ)) (a : DeclaredAction ℕ) (keys : Finset ℕ) :
    Except Failure (Outcome Failure Unit × Outcome Failure Unit) := do
  let start ← sampleStart
  let db ← start.applyActions sampleExternals sampleContext setup
  let mid ← db.applyActions sampleExternals sampleContext before
  let _ ← db.applyActions sampleExternals sampleContext (before ++ [a])
  return (db.checkAuthorization sampleConfig ∅ (before ++ [a]) keys ∅ 0 false false,
    mid.checkSpecialCase sampleConfig a.authorization a.data)

variable {setup before : List (DeclaredAction ℕ)} {a : DeclaredAction ℕ} {keys : Finset ℕ}
  {late : Outcome Failure Unit}

theorem probe_eq_ok (h : probe setup before a keys = .ok (.returns (), late)) :
    ∃ db mid db', Reachable sampleExternals OnlyLinkToExisting db ∧
      db.checkAuthorization sampleConfig ∅ (before ++ [a]) keys ∅ 0 false false = .returns () ∧
      db.applyActions sampleExternals sampleContext (before ++ [a]) = .ok db' ∧
      db.applyActions sampleExternals sampleContext before = .ok mid ∧
      mid.checkSpecialCase sampleConfig a.authorization a.data = late := by
  obtain ⟨start, hstart, h⟩ := bind_eq_ok.mp h
  obtain ⟨db, hdb, h⟩ := bind_eq_ok.mp h
  obtain ⟨mid, hmid, h⟩ := bind_eq_ok.mp h
  obtain ⟨db', hdb', h⟩ := bind_eq_ok.mp h
  obtain ⟨hcheck, hlate⟩ := Prod.mk.inj (Except.ok.inj h)
  exact ⟨db, mid, db', (sampleStart_reachable hstart).applyActions hdb fun _ _ => rfl, hcheck,
    hdb', hmid, hlate⟩

def createVote : DeclaredAction ℕ :=
  ⟨[⟨alice, activeName⟩], .updateauth ⟨alice, vote, activeName, sampleKey 3⟩⟩

def deleteVote : DeclaredAction ℕ := ⟨[⟨alice, vote⟩], .deleteauth ⟨alice, vote⟩⟩

def recreateVote : DeclaredAction ℕ :=
  ⟨[⟨alice, vote⟩], .updateauth ⟨alice, vote, ownerName, sampleKey 3⟩⟩

def linkPay (requirement : PermissionName) : DeclaredAction ℕ :=
  ⟨[⟨alice, activeName⟩],
    .linkauth ⟨alice, systemAccountName, stringToName "pay", requirement⟩⟩

/-- A permission moves itself up by its own authority, and the active permission replaces a
link to the owner permission. -/
theorem recreated_escapes_check :
    (∃ db mid db', Reachable sampleExternals OnlyLinkToExisting db ∧
      db.checkAuthorization sampleConfig ∅ [deleteVote, recreateVote] {3} ∅ 0 false false =
        .returns () ∧
      db.applyActions sampleExternals sampleContext [deleteVote, recreateVote] = .ok db' ∧
      db.applyActions sampleExternals sampleContext [deleteVote] = .ok mid ∧
      mid.checkSpecialCase sampleConfig recreateVote.authorization recreateVote.data ≠
        .returns ()) ∧
    (∃ db mid db', Reachable sampleExternals OnlyLinkToExisting db ∧
      db.checkAuthorization sampleConfig ∅ [linkPay ownerName, linkPay activeName] {2} ∅ 0 false
        false = .returns () ∧
      db.applyActions sampleExternals sampleContext [linkPay ownerName, linkPay activeName] =
        .ok db' ∧
      db.applyActions sampleExternals sampleContext [linkPay ownerName] = .ok mid ∧
      mid.checkSpecialCase sampleConfig (linkPay activeName).authorization
        (linkPay activeName).data ≠ .returns ()) := by
  have hdelete : probe [createVote] [deleteVote] recreateVote {3} =
      .ok (.returns (), .throws failedToRetrieve) := by decide +kernel
  have hlink : probe [] [linkPay ownerName] (linkPay activeName) {2} =
      .ok (.returns (), .throws ⟨.irrelevantAuthException,
        "link action declares irrelevant authority '${auth}'; minimum authority is ${min}"⟩) := by
    decide +kernel
  constructor
  · obtain ⟨db, mid, db', hreachable, hcheck, hdb', hmid, hlate⟩ := probe_eq_ok hdelete
    exact ⟨db, mid, db', hreachable, hcheck, hdb', hmid, by rw [hlate]; simp⟩
  · obtain ⟨db, mid, db', hreachable, hcheck, hdb', hmid, hlate⟩ := probe_eq_ok hlink
    exact ⟨db, mid, db', hreachable, hcheck, hdb', hmid, by rw [hlate]; simp⟩

def createSub (name : String) : DeclaredAction ℕ :=
  ⟨[⟨alice, vote⟩], .updateauth ⟨alice, stringToName name, vote, sampleKey 4⟩⟩

def deleteSub (name : String) : DeclaredAction ℕ :=
  ⟨[⟨alice, vote⟩], .deleteauth ⟨alice, stringToName name⟩⟩

theorem checked_when_applied_sub : ∃ db mid, Reachable sampleExternals OnlyLinkToExisting db ∧
    db.applyActions sampleExternals sampleContext [deleteSub "old"] = .ok mid ∧
    mid.checkSpecialCase sampleConfig (createSub "new").authorization (createSub "new").data =
      .returns () := by
  have hprobe : probe [createVote, createSub "old"] [deleteSub "old"] (createSub "new") {3} =
      .ok (.returns (), .returns ()) := by decide +kernel
  obtain ⟨db, mid, db', hreachable, hcheck, hdb', hmid, -⟩ := probe_eq_ok hprobe
  refine ⟨db, mid, hreachable, hmid, (checked_when_applied hreachable hcheck hdb' hmid ?_).1⟩
  refine forall_mem_singleton.mpr fun heq => ?_
  have hname := congrArg PermissionLevel.permission (Option.some.inj heq)
  revert hname
  split_ifs
  · decide +kernel
  · decide +kernel

end NativeDb
end FlonCore
