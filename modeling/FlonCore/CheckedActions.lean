import FlonCore.AuthorizationManager
import FlonCore.PermissionAncestry

/-!
# Checks before a transaction and the state at each action

The authorizations of all actions are checked before the first action runs. A later action
finds the permission that its check compared with still there unless an earlier action
deleted it: the permissions above one that exists have not been deleted either, since
they have children.
-/

namespace FlonCore
open Library List
open Table

namespace NativeDb
variable {Key : Type} {ext : Externals Key} {context : ApplyContext Key}
  {db mid db' : NativeDb Key} {action : NativeAction Key}

def NativeAction.deletes : NativeAction Key → Option PermissionLevel
  | .deleteauth remove => some ⟨remove.account, remove.permission⟩
  | _ => none

def NativeAction.linkKey : NativeAction Key → Option (AccountName × AccountName × ActionName)
  | .linkauth link => some (link.account, link.code, link.type)
  | .unlinkauth unlink => some (unlink.account, unlink.code, unlink.type)
  | _ => none

structure Evolves (db db' : NativeDb Key) : Prop where
  nextId : db.permissions.nextId ≤ db'.permissions.nextId
  older : ∀ i s, (i, s) ∈ db'.shapes → i < db.permissions.nextId → (i, s) ∈ db.shapes

structure ActionEffect (db : NativeDb Key) (action : NativeAction Key) (db' : NativeDb Key) :
    Prop where
  evolves : db.Evolves db'
  kept : ∀ i s, (i, s) ∈ db.shapes → action.deletes ≠ some ⟨s.owner, s.name⟩ →
    (i, s) ∈ db'.shapes
  links : ∀ k, action.linkKey ≠ some k → db'.links.find k = db.links.find k
  deletable : ∀ level, action.deletes = some level → level.permission ≠ activeName ∧
    ∀ l ∈ db.links.rows, l.2.account = level.actor → l.2.requiredPermission ≠ level.permission

theorem Evolves.trans (h : db.Evolves mid) (h' : mid.Evolves db') : db.Evolves db' :=
  ⟨h.nextId.trans h'.nextId, fun i s hs hi =>
    h.older i s (h'.older i s hs (hi.trans_le h.nextId)) hi⟩

theorem ActionEffect.of_added {new : List (ℕ × PermissionShape)}
    (hshapes : db'.shapes = db.shapes ++ new) (hnew : ∀ r ∈ new, db.permissions.nextId ≤ r.1)
    (hnext : db.permissions.nextId ≤ db'.permissions.nextId)
    (hlinks : ∀ k, action.linkKey ≠ some k → db'.links.find k = db.links.find k)
    (hdeletes : action.deletes = none) : ActionEffect db action db' := by
  refine ⟨⟨hnext, fun i s hs hi => ?_⟩, fun i s hs _ => ?_, hlinks, fun level hlevel => ?_⟩
  · rw [hshapes] at hs
    rcases mem_append.mp hs with hs | hs
    · exact hs
    · exact absurd (hnew _ hs) (by simpa using hi)
  · rw [hshapes]
    exact mem_append_left _ hs
  · rw [hdeletes] at hlevel
    exact absurd hlevel (by simp)

theorem ActionEffect.of_same (hpermissions : db'.permissions = db.permissions)
    (hlinks : ∀ k, action.linkKey ≠ some k → db'.links.find k = db.links.find k)
    (hdeletes : action.deletes = none) : ActionEffect db action db' := by
  have hshapes : db'.shapes = db.shapes ++ [] := by
    rw [shapes, hpermissions, append_nil]
    rfl
  exact .of_added hshapes (by simp) (by rw [hpermissions]) hlinks hdeletes

theorem ActionEffect.newaccount {create : NewAccount Key}
    (h : AccountAdded ext db ⟨create.name, context.pendingBlockTime, []⟩ create.owner create.active
      db') : ActionEffect db (.newaccount create) db' := by
  obtain ⟨mid, time, howner, hactive⟩ := h.permissions
  refine .of_added (shapes_accountAdded h) (by simp) ?_ (fun _ _ => by rw [h.links]) rfl
  rw [hactive.nextId, howner.nextId]
  omega

theorem ActionEffect.updateauth [LinearOrder Key] {update : UpdateAuth Key}
    (hok : db.applyEosioUpdateauth ext context update = .ok db') :
    ActionEffect db (.updateauth update) db' := by
  obtain ⟨-, parent, -, hcases⟩ := applyEosioUpdateauth_eq_ok hok
  rcases hcases with ⟨id, p, -, -, hchanged⟩ | ⟨-, time, hcreated, hdb'⟩
  · obtain ⟨time, hpermissions⟩ := hchanged.permissions
    have hshapes : db'.shapes = db.shapes ++ [] := by
      rw [shapes_modify hpermissions, append_nil]
    refine .of_added hshapes (by simp) ?_ (fun _ _ => by rw [hchanged.links]) rfl
    rw [hpermissions]
    exact le_rfl
  · refine .of_added (shapes_created hcreated) (by simp) ?_ ?_ rfl
    · rw [hcreated.nextId]
      exact Nat.le_succ _
    · intro k _
      rw [hdb']
      rfl

theorem ActionEffect.deleteauth {remove : DeleteAuth}
    (hok : db.applyEosioDeleteauth ext context remove = .ok db') :
    ActionEffect db (.deleteauth remove) db' := by
  obtain ⟨id, p, hlevel, hremoved⟩ := applyEosioDeleteauth_eq_ok hok
  have hshapes := shapes_remove hremoved.permissions
  refine ⟨⟨?_, fun i s hs _ => ?_⟩, fun i s hs hne => ?_, fun k _ => by rw [hremoved.links], ?_⟩
  · rw [hremoved.permissions]
    exact le_rfl
  · rw [hshapes] at hs
    exact mem_of_mem_filter hs
  · rw [hshapes]
    refine mem_filter.mpr ⟨hs, ?_⟩
    obtain ⟨q, hq, rfl⟩ := mem_shapes.mp hs
    have hid : i ≠ id := by
      rintro rfl
      obtain rfl := eq_of_id hq hremoved.mem
      exact hne (congrArg some hlevel.symm)
    simpa using hid
  · intro level heq
    cases heq
    have haccount : p.owner = remove.account := congrArg PermissionLevel.actor hlevel
    have hname : p.name = remove.permission := congrArg PermissionLevel.permission hlevel
    rw [← haccount, ← hname]
    exact ⟨hremoved.not_active, hremoved.unlinked⟩

theorem ActionEffect.linkauth {link : LinkAuth}
    (hok : db.applyEosioLinkauth context link = .ok db') :
    ActionEffect db (.linkauth link) db' := by
  obtain ⟨-, hcases⟩ := applyEosioLinkauth_eq_ok hok
  rcases hcases with ⟨id, l, hl, hname, hlinks, hchanged⟩ | ⟨hcreated, hchanged⟩
  · refine .of_same hchanged.permissions (fun k hk => ?_) rfl
    rw [hlinks]
    exact find_modify_of_ne hl fun heq => hk (congrArg some (hname.symm.trans heq))
  · refine .of_same hchanged.permissions (fun k hk => ?_) rfl
    exact hcreated.find_of_ne fun heq => hk (congrArg some heq)

theorem ActionEffect.unlinkauth {unlink : UnlinkAuth}
    (hok : db.applyEosioUnlinkauth context unlink = .ok db') :
    ActionEffect db (.unlinkauth unlink) db' := by
  obtain ⟨id, l, hl, hname, hlinks, hchanged⟩ := applyEosioUnlinkauth_eq_ok hok
  refine .of_same hchanged.permissions (fun k hk => ?_) rfl
  rw [hlinks]
  exact find_remove_of_ne hl fun heq => hk (congrArg some (hname.symm.trans heq))

theorem applyAction_effect [LinearOrder Key]
    (hok : db.applyAction ext context action = .ok db') : ActionEffect db action db' := by
  cases action with
  | newaccount create => exact .newaccount (applyEosioNewaccount_eq_ok hok).2
  | setcode act =>
    obtain ⟨-, hchanged⟩ := applyEosioSetcode_eq_ok hok
    exact .of_same hchanged.permissions (fun _ _ => by rw [hchanged.links]) rfl
  | setabi act =>
    have hchanged := applyEosioSetabi_eq_ok hok
    exact .of_same hchanged.permissions (fun _ _ => by rw [hchanged.links]) rfl
  | updateauth update => exact .updateauth hok
  | deleteauth remove => exact .deleteauth hok
  | linkauth link => exact .linkauth hok
  | unlinkauth unlink => exact .unlinkauth hok

section Runs
variable {before : List (DeclaredAction Key)} {account scope : AccountName}
  {actName : ActionName} {name : PermissionName}

def LinkUndisturbed (db : NativeDb Key) (before : List (DeclaredAction Key))
    (account scope : AccountName) (actName : ActionName) : Prop :=
  (∀ a ∈ before, a.data.linkKey ≠ some (account, scope, actName)) ∧
    ((account, scope, actName) ∈ db.links.keys ∨
      ∀ a ∈ before, a.data.linkKey ≠ some (account, scope, 0))

theorem lookupLinkedPermission_congr
    (hfind : db'.links.find (account, scope, actName) = db.links.find (account, scope, actName))
    (hdefault : (account, scope, actName) ∈ db.links.keys ∨
      db'.links.find (account, scope, 0) = db.links.find (account, scope, 0)) :
    db'.lookupLinkedPermission account scope actName =
      db.lookupLinkedPermission account scope actName := by
  unfold lookupLinkedPermission
  rw [hfind]
  rcases hdefault with hkey | hdefault
  · cases hrow : db.links.find (account, scope, actName) with
    | some row => rfl
    | none => exact absurd hkey (find_eq_none.mp hrow)
  · rw [hdefault]

theorem exists_link (h : db.lookupLinkedPermission account scope actName = some name) :
    ∃ l ∈ db.links.rows, l.2.account = account ∧ l.2.requiredPermission = name := by
  unfold lookupLinkedPermission at h
  cases hrow : db.links.find (account, scope, actName) with
  | some row =>
    rw [hrow] at h
    obtain ⟨hmem, hkey⟩ := find_eq_some.mp hrow
    exact ⟨row, hmem, congrArg Prod.fst hkey, Option.some.inj h⟩
  | none =>
    rw [hrow] at h
    obtain ⟨row, hrow', heq⟩ := Option.map_eq_some_iff.mp h
    obtain ⟨hmem, hkey⟩ := find_eq_some.mp hrow'
    exact ⟨row, hmem, congrArg Prod.fst hkey, heq⟩

theorem LinkUndisturbed.step {a : DeclaredAction Key} {next : NativeDb Key}
    (h : db.LinkUndisturbed (a :: before) account scope actName)
    (heffect : ActionEffect db a.data next) :
    next.LinkUndisturbed before account scope actName ∧
      next.lookupLinkedPermission account scope actName =
        db.lookupLinkedPermission account scope actName := by
  obtain ⟨hfirst, hrest⟩ := forall_mem_cons.mp h.1
  have hfind := heffect.links _ hfirst
  refine ⟨⟨hrest, ?_⟩, lookupLinkedPermission_congr hfind ?_⟩
  · refine h.2.imp (fun hkey => ?_) fun hdefault => (forall_mem_cons.mp hdefault).2
    by_contra hnone
    rw [← Table.find_eq_none, hfind, Table.find_eq_none] at hnone
    exact hnone hkey
  · exact h.2.imp_right fun hdefault => heffect.links _ (hdefault a mem_cons_self)

variable [LinearOrder Key] (hok : db.applyActions ext context before = .ok mid)
include hok

theorem PermissionTree.applyActions (h : db.PermissionTree) : mid.PermissionTree := by
  induction before generalizing db with
  | nil => exact Except.ok.inj hok ▸ h
  | cons a rest ih =>
    obtain ⟨next, hnext, hrest⟩ := bind_eq_ok.mp hok
    exact ih hrest (h.applyAction hnext)

theorem applyActions_evolves : db.Evolves mid := by
  induction before generalizing db with
  | nil =>
    cases hok
    exact ⟨le_rfl, fun _ _ hs _ => hs⟩
  | cons a rest ih =>
    obtain ⟨next, hnext, hrest⟩ := bind_eq_ok.mp hok
    exact (applyAction_effect hnext).evolves.trans (ih hrest)

theorem applyActions_kept {i : ℕ} {s : PermissionShape} (hs : (i, s) ∈ db.shapes)
    (hkept : ∀ a ∈ before, a.data.deletes ≠ some ⟨s.owner, s.name⟩) : (i, s) ∈ mid.shapes := by
  induction before generalizing db with
  | nil => exact Except.ok.inj hok ▸ hs
  | cons a rest ih =>
    obtain ⟨next, hnext, hrest⟩ := bind_eq_ok.mp hok
    obtain ⟨hfirst, hkept⟩ := forall_mem_cons.mp hkept
    exact ih hrest ((applyAction_effect hnext).kept i s hs hfirst) hkept

variable (h : db.LinkUndisturbed before account scope actName)
include h

theorem LinkUndisturbed.lookup :
    mid.lookupLinkedPermission account scope actName =
      db.lookupLinkedPermission account scope actName := by
  induction before generalizing db with
  | nil => exact Except.ok.inj hok ▸ rfl
  | cons a rest ih =>
    obtain ⟨next, hnext, hrest⟩ := bind_eq_ok.mp hok
    obtain ⟨hund, hlookup⟩ := h.step (applyAction_effect hnext)
    rw [ih hrest hund, hlookup]

theorem LinkUndisturbed.kept
    (hname : name = activeName ∨ db.lookupLinkedPermission account scope actName = some name) :
    ∀ a ∈ before, a.data.deletes ≠ some ⟨account, name⟩ := by
  induction before generalizing db with
  | nil => simp
  | cons a rest ih =>
    obtain ⟨next, hnext, hrest⟩ := bind_eq_ok.mp hok
    have heffect := applyAction_effect hnext
    obtain ⟨hund, hlookup⟩ := h.step heffect
    refine forall_mem_cons.mpr ⟨fun hdeletes => ?_, ih hrest hund (by rwa [hlookup])⟩
    obtain ⟨hactive, hunlinked⟩ := heffect.deletable _ hdeletes
    rcases hname with hname | hname
    · exact hactive hname
    · obtain ⟨l, hl, haccount, hrequired⟩ := exists_link hname
      exact hunlinked l hl haccount hrequired

end Runs

variable {x y : ℕ} {auth : PermissionLevel} {q : PermissionObject Key} {message : String}

def DeclaresAbove (db : NativeDb Key) (auth : PermissionLevel) (y : ℕ) : Prop :=
  auth.actor ≠ 0 ∧ auth.permission ≠ 0 ∧
    ∃ x p, (x, p) ∈ db.permissions.rows ∧ p.level = auth ∧ db.Above x y

variable {p : PermissionObject Key}

theorem Above.owner (h : db.PermissionTree) (habove : db.Above x y)
    (hp : (x, p) ∈ db.permissions.rows) (hq : (y, q) ∈ db.permissions.rows) :
    p.owner = q.owner := by
  induction habove generalizing q with
  | refl => rw [eq_of_id hp hq]
  | tail _ hparent ih =>
    obtain ⟨hparent, hne⟩ := (isParent_iff hq).mp hparent
    subst hparent
    obtain ⟨-, s, hs, howner⟩ := h.parent hq hne
    rw [ih hs, howner]

theorem PermissionTree.checkSatisfies_iff (h : db.PermissionTree)
    (hq : (y, q) ∈ db.permissions.rows) :
    db.checkSatisfies auth (y, q) message = .returns () ↔ db.DeclaresAbove auth y := by
  unfold checkSatisfies
  simp only [Outcome.bind_eq_returns, Outcome.ofExcept_eq_returns, Outcome.ofOption_eq_returns]
  constructor
  · rintro ⟨⟨x, p⟩, hget, b, hb, hassert⟩
    obtain ⟨hp, hlevel, hactor, hname⟩ := getPermission_eq_ok hget
    obtain ⟨b', hb', hiff⟩ := h.satisfies le_rfl hp hq
    cases hb.symm.trans hb'
    exact ⟨hactor, hname, x, p, hp, hlevel, (hiff.mp (eosAssert_eq_ok.mp hassert)).2⟩
  · rintro ⟨hactor, hname, x, p, hp, hlevel, habove⟩
    obtain ⟨b, hb, hiff⟩ := h.satisfies le_rfl hp hq
    refine ⟨(x, p), getPermission_of_mem hp hlevel hactor hname, b, hb, ?_⟩
    exact eosAssert_eq_ok.mpr (hiff.mpr ⟨habove.owner h hp hq, habove⟩)

theorem Evolves.above (hevolves : db.Evolves mid) (hmid : mid.PermissionTree)
    (habove : db.Above x y) {s : PermissionShape} (hs : (y, s) ∈ mid.shapes)
    (hold : (y, s) ∈ db.shapes) :
    mid.Above x y ∧ ∃ s', (x, s') ∈ mid.shapes ∧ (x, s') ∈ db.shapes := by
  induction habove generalizing s with
  | refl => exact ⟨.refl, s, hs, hold⟩
  | @tail b c _ hparent ih =>
    obtain ⟨p, hp, rfl⟩ := mem_shapes.mp hold
    obtain ⟨p', hp', hshape⟩ := mem_shapes.mp hs
    obtain ⟨hparent, hne⟩ := (isParent_iff hp).mp hparent
    have hparent' : p'.parent = b := (congrArg PermissionShape.parent hshape).trans hparent
    obtain ⟨hlt, t, ht, -⟩ := hmid.parent hp' (hparent' ▸ hne)
    rw [hparent'] at ht hlt
    have hshape' : (b, shape t) ∈ mid.shapes := mem_shapes.mpr ⟨t, ht, rfl⟩
    have hbound : b < db.permissions.nextId := hlt.trans (db.permissions.below _ hp)
    obtain ⟨habove, hfirst⟩ := ih hshape' (hevolves.older _ _ hshape' hbound)
    exact ⟨habove.tail ⟨p', hp', hparent', hne⟩, hfirst⟩

theorem Evolves.declaresAbove (hevolves : db.Evolves mid) (hmid : mid.PermissionTree)
    (h : db.DeclaresAbove auth y) {s : PermissionShape} (hs : (y, s) ∈ mid.shapes)
    (hold : (y, s) ∈ db.shapes) : mid.DeclaresAbove auth y := by
  obtain ⟨hactor, hname, x, p, hp, hlevel, habove⟩ := h
  obtain ⟨habove', s', hnew, hold'⟩ := hevolves.above hmid habove hs hold
  obtain ⟨p', hp', hshape⟩ := mem_shapes.mp hnew
  obtain ⟨p'', hp'', hshape'⟩ := mem_shapes.mp hold'
  obtain rfl := eq_of_id hp hp''
  refine ⟨hactor, hname, x, p', hp', ?_, habove'⟩
  rw [← hlevel]
  exact level_of_shape (hshape.trans hshape'.symm)

theorem Evolves.checkSatisfies (hevolves : db.Evolves mid) (hdb : db.PermissionTree)
    (hmid : mid.PermissionTree) (hq : (y, q) ∈ db.permissions.rows)
    (hcheck : db.checkSatisfies auth (y, q) message = .returns ())
    (hkept : (y, shape q) ∈ mid.shapes) : ∃ q', (y, q') ∈ mid.permissions.rows ∧
      q'.level = q.level ∧ mid.DeclaresAbove auth y := by
  obtain ⟨q', hq', hshape⟩ := mem_shapes.mp hkept
  have hold : (y, shape q) ∈ db.shapes := mem_shapes.mpr ⟨q, hq, rfl⟩
  refine ⟨q', hq', level_of_shape hshape, ?_⟩
  exact hevolves.declaresAbove hmid ((hdb.checkSatisfies_iff hq).mp hcheck) hkept hold

section Updates
variable {update : UpdateAuth Key} {r : ℕ × PermissionObject Key}

theorem minimumForUpdate_eq_ok (h : db.minimumForUpdate update = .ok r) :
    r ∈ db.permissions.rows ∧ update.account ≠ 0 ∧ update.permission ≠ 0 ∧
      (r.2.level = ⟨update.account, update.permission⟩ ∨
        (⟨update.account, update.permission⟩ ∉ db.permissions.keys ∧
          r.2.level = ⟨update.account, update.parent⟩ ∧ update.parent ≠ 0)) := by
  obtain ⟨o, ho, h⟩ := bind_eq_ok.mp h
  obtain ⟨rfl, haccount, hpermission⟩ := findPermission_eq_ok ho
  cases hfind : db.permissions.find ⟨update.account, update.permission⟩ with
  | some p =>
    rw [hfind] at h
    cases h
    obtain ⟨hmem, hlevel⟩ := find_eq_some.mp hfind
    exact ⟨hmem, haccount, hpermission, .inl hlevel⟩
  | none =>
    rw [hfind] at h
    obtain ⟨hmem, hlevel, -, hparent⟩ := getPermission_eq_ok h
    exact ⟨hmem, haccount, hpermission, .inr ⟨find_eq_none.mp hfind, hlevel, hparent⟩⟩

theorem findPermission_of_ne {level : PermissionLevel} (hactor : level.actor ≠ 0)
    (hname : level.permission ≠ 0) : db.findPermission level = .ok (db.permissions.find level) := by
  unfold findPermission invalidLevel
  rw [if_neg (by simp [hactor, hname])]

section
variable (haccount : update.account ≠ 0) (hpermission : update.permission ≠ 0)
  (hr : r ∈ db.permissions.rows)
include haccount hpermission hr

theorem minimumForUpdate_of_mem (hlevel : r.2.level = ⟨update.account, update.permission⟩) :
    db.minimumForUpdate update = .ok r := by
  unfold minimumForUpdate
  rw [findPermission_of_ne haccount hpermission, find_eq_some.mpr ⟨hr, hlevel⟩]
  rfl

theorem minimumForUpdate_of_absent (hparent : update.parent ≠ 0)
    (habsent : ⟨update.account, update.permission⟩ ∉ db.permissions.keys)
    (hlevel : r.2.level = ⟨update.account, update.parent⟩) :
    db.minimumForUpdate update = .ok r := by
  unfold minimumForUpdate
  rw [findPermission_of_ne haccount hpermission, find_eq_none.mpr habsent]
  exact getPermission_of_mem hr hlevel haccount hparent

end

variable [LinearOrder Key]

/-- If a permission has been created since its absence was seen, it is below the parent that
the action names, or the action would not be applied. -/
theorem created_below (hdb : db.PermissionTree)
    (happly : mid.applyEosioUpdateauth ext context update = .ok db')
    (habsent : ⟨update.account, update.permission⟩ ∉ db.permissions.keys)
    {q q' : PermissionObject Key} (hq : (y, q) ∈ db.permissions.rows)
    (hlevel : q.level = ⟨update.account, update.parent⟩) (haccount : update.account ≠ 0)
    (hq' : (y, q') ∈ mid.permissions.rows)
    (hlevel' : q'.level = ⟨update.account, update.parent⟩) {z : ℕ}
    (hp : (z, p) ∈ mid.permissions.rows) (hp' : p.level = ⟨update.account, update.permission⟩) :
    mid.Above y z := by
  have howner : q.owner = update.account := congrArg PermissionLevel.actor hlevel
  have hy : y ≠ 0 := hdb.id_ne_zero hq (.inr (howner ▸ haccount))
  obtain ⟨-, parent, hparent, hcases⟩ := applyEosioUpdateauth_eq_ok happly
  rcases hcases with ⟨id, p', hlevelp, hparent', hchanged⟩ | ⟨hnew, -⟩
  · obtain ⟨rfl, rfl⟩ := eq_of_key hchanged.mem hp (hlevelp.trans hp'.symm)
    rcases parentId_eq_ok hparent with ⟨hname, -⟩ | ⟨-, s, hs, hslevel, -⟩
    -- the owner permission of an account is never absent
    · have hplaced := hdb.hierarchy.placed y (shape q) (mem_shapes.mpr ⟨q, hq, rfl⟩) hy
      obtain ⟨j, hj, -⟩ := hdb.hierarchy.complete _ hplaced.account
      obtain ⟨o, ho, hshape⟩ := mem_shapes.mp hj
      refine absurd (mem_keys.mpr ⟨j, o, ho, ?_⟩) habsent
      rw [hname, ← howner]
      exact level_of_shape hshape
    · obtain ⟨rfl, -⟩ := eq_of_key hs hq' (hslevel.trans hlevel'.symm)
      exact (above_iff hp).mpr (.inr ⟨hparent' ▸ hy, hparent' ▸ .refl⟩)
  · exact absurd (mem_keys.mpr ⟨z, p, hp, hp'⟩) hnew

end Updates
end NativeDb
end FlonCore
