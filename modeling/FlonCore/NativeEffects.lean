import FlonCore.NativeActions

/-!
# What the native actions do

Each action that is applied has one of a few effects on the tables. They are stated
here once, with everything that the checks of the handlers guarantee about them.
-/

namespace FlonCore
open Library
open CodeObject Table

namespace NativeDb
variable {Key : Type} {ext : Externals Key} {context : ApplyContext Key} {db db' : NativeDb Key}
  {level : PermissionLevel} {r : ℕ × PermissionObject Key}

theorem createRow_eq_ok {α κ : Type} {key : α → κ} [DecidableEq κ] {t t' : Table key} {a : α}
    (h : createRow t a = .ok t') : t.Created a t' := by
  unfold createRow at h
  cases hcreate : t.create a with
  | none => simp [hcreate] at h
  | some u =>
    rw [hcreate] at h
    cases h
    exact create_eq_some hcreate

theorem getPermission_eq_ok (h : db.getPermission level = .ok r) :
    r ∈ db.permissions.rows ∧ r.2.level = level ∧ level.actor ≠ 0 ∧ level.permission ≠ 0 := by
  unfold getPermission invalidLevel at h
  split_ifs at h with hinvalid
  rw [Bool.or_eq_true, not_or] at hinvalid
  cases hfind : db.permissions.find level with
  | none => simp [hfind] at h
  | some s =>
    rw [hfind] at h
    cases h
    obtain ⟨hmem, hlevel⟩ := find_eq_some.mp hfind
    exact ⟨hmem, hlevel, by simpa using hinvalid.1, by simpa using hinvalid.2⟩

theorem getPermission_of_mem {p : PermissionObject Key} {id : ℕ}
    (hp : (id, p) ∈ db.permissions.rows) (hlevel : p.level = level) (hactor : level.actor ≠ 0)
    (hname : level.permission ≠ 0) : db.getPermission level = .ok (id, p) := by
  have hfind : db.permissions.find level = some (id, p) := find_eq_some.mpr ⟨hp, hlevel⟩
  unfold getPermission invalidLevel
  rw [if_neg (by simp [hactor, hname]), hfind]

theorem findPermission_eq_ok {o : Option (ℕ × PermissionObject Key)}
    (h : db.findPermission level = .ok o) :
    o = db.permissions.find level ∧ level.actor ≠ 0 ∧ level.permission ≠ 0 := by
  unfold findPermission invalidLevel at h
  split_ifs at h with hinvalid
  rw [Bool.or_eq_true, not_or] at hinvalid
  exact ⟨(Except.ok.inj h).symm, by simpa using hinvalid.1, by simpa using hinvalid.2⟩

structure AccountAdded (ext : Externals Key) (db : NativeDb Key) (account : AccountObject)
    (owner active : Authority Key) (db' : NativeDb Key) : Prop where
  accounts : db.accounts.Created account db'.accounts
  metadata : ∃ isPrivileged, db.metadata.Created ⟨account.name, 0, 0, 0, 0, isPrivileged, 0, 0⟩
    db'.metadata
  permissions : ∃ mid time, db.permissions.Created ⟨0, account.name, ownerName, time, owner⟩ mid ∧
    mid.Created ⟨db.permissions.nextId, account.name, activeName, time, active⟩ db'.permissions
  links : db'.links = db.links
  codes : db'.codes = db.codes
  ramDeltas : db'.ramDeltas = Function.update db.ramDeltas account.name
    (db.ramDeltas account.name + (overheadPerAccountRamBytes + 2 * permissionObjectSize +
      owner.billableSize ext.packSize + active.billableSize ext.packSize))

variable {time : ℤ}

theorem createPermission_eq_ok {account : AccountName} {name : PermissionName} {parent id : ℕ}
    {auth : Authority Key}
    (h : db.createPermission ext context account name parent auth time = .ok (id, db')) :
    id = db.permissions.nextId ∧
      db.permissions.Created ⟨parent, account, name, time, auth⟩ db'.permissions ∧
      db' = { db with permissions := db'.permissions } := by
  obtain ⟨-, h⟩ := seq_eq_ok.mp h
  obtain ⟨permissions, hcreate, h⟩ := bind_eq_ok.mp h
  cases h
  exact ⟨rfl, createRow_eq_ok hcreate, rfl⟩

variable {owner active : Authority Key}

theorem createAccountPermissions_eq_ok {name : AccountName}
    (h : db.createAccountPermissions ext context name owner active time = .ok db') :
    (∃ mid, db.permissions.Created ⟨0, name, ownerName, time, owner⟩ mid ∧
      mid.Created ⟨db.permissions.nextId, name, activeName, time, active⟩ db'.permissions) ∧
    db' = { db with permissions := db'.permissions }.addRamUsage name
      (overheadPerAccountRamBytes + 2 * permissionObjectSize +
        owner.billableSize ext.packSize + active.billableSize ext.packSize) := by
  obtain ⟨⟨ownerId, db₁⟩, howner, h⟩ := bind_eq_ok.mp h
  obtain ⟨⟨activeId, db₂⟩, hactive, h⟩ := bind_eq_ok.mp h
  cases h
  obtain ⟨rfl, hcreated₁, hdb₁⟩ := createPermission_eq_ok howner
  obtain ⟨-, hcreated₂, hdb₂⟩ := createPermission_eq_ok hactive
  refine ⟨⟨db₁.permissions, hcreated₁, hcreated₂⟩, ?_⟩
  rw [hdb₂, hdb₁]
  rfl

theorem applyEosioNewaccount_eq_ok [LinearOrder Key] {create : NewAccount Key}
    (h : db.applyEosioNewaccount ext context create = .ok db') : create.name ≠ 0 ∧
      AccountAdded ext db ⟨create.name, context.pendingBlockTime, []⟩ create.owner create.active
        db' := by
  iterate 4 obtain ⟨-, h⟩ := seq_eq_ok.mp h
  obtain ⟨hname, h⟩ := seq_eq_ok.mp h
  obtain ⟨-, h⟩ := seq_eq_ok.mp h
  obtain ⟨creator, -, h⟩ := bind_eq_ok.mp h
  iterate 2 obtain ⟨-, h⟩ := seq_eq_ok.mp h
  obtain ⟨accounts, haccounts, h⟩ := bind_eq_ok.mp h
  obtain ⟨metadata, hmetadata, h⟩ := bind_eq_ok.mp h
  iterate 2 obtain ⟨-, h⟩ := seq_eq_ok.mp h
  obtain ⟨hpermissions, hdb'⟩ := createAccountPermissions_eq_ok h
  refine ⟨by simpa using hname, ?_⟩
  obtain ⟨mid, hmid⟩ := hpermissions
  rw [hdb']
  exact ⟨createRow_eq_ok haccounts, ⟨false, createRow_eq_ok hmetadata⟩, ⟨mid, _, hmid⟩, rfl, rfl,
    rfl⟩

theorem createNativeAccount_eq_ok [LinearOrder Key] {abi : List UInt8}
    {name : AccountName} {isPrivileged : Bool}
    (h : db.createNativeAccount ext context time abi name owner active isPrivileged = .ok db') :
    AccountAdded ext db ⟨name, time, if name = systemAccountName then abi else []⟩ owner active
      db' := by
  obtain ⟨accounts, haccounts, h⟩ := bind_eq_ok.mp h
  obtain ⟨metadata, hmetadata, h⟩ := bind_eq_ok.mp h
  obtain ⟨⟨mid, hmid⟩, hdb'⟩ := createAccountPermissions_eq_ok h
  rw [hdb']
  exact ⟨createRow_eq_ok haccounts, ⟨isPrivileged, createRow_eq_ok hmetadata⟩, ⟨mid, _, hmid⟩, rfl,
    rfl, rfl⟩

variable {id : ℕ} {p : PermissionObject Key}

structure AuthorityChanged (ext : Externals Key) (db : NativeDb Key) (id : ℕ)
    (p : PermissionObject Key) (auth : Authority Key) (db' : NativeDb Key) : Prop where
  mem : (id, p) ∈ db.permissions.rows
  permissions : ∃ time, db'.permissions =
    db.permissions.modify id (.withAuth auth time) (PermissionObject.withAuth_level _ _)
  accounts : db'.accounts = db.accounts
  metadata : db'.metadata = db.metadata
  links : db'.links = db.links
  codes : db'.codes = db.codes
  ramDeltas : db'.ramDeltas = Function.update db.ramDeltas p.owner (db.ramDeltas p.owner +
    (auth.billableSize ext.packSize - p.auth.billableSize ext.packSize))

structure PermissionRemoved (ext : Externals Key) (db : NativeDb Key) (id : ℕ)
    (p : PermissionObject Key) (db' : NativeDb Key) : Prop where
  mem : (id, p) ∈ db.permissions.rows
  named : p.name ≠ 0
  not_owner : p.name ≠ ownerName
  not_active : p.name ≠ activeName
  childless : ∀ r ∈ db.permissions.rows, r.2.parent ≠ id
  unlinked : ∀ l ∈ db.links.rows, l.2.account = p.owner → l.2.requiredPermission ≠ p.name
  permissions : db'.permissions = db.permissions.remove id
  accounts : db'.accounts = db.accounts
  metadata : db'.metadata = db.metadata
  links : db'.links = db.links
  codes : db'.codes = db.codes
  ramDeltas : db'.ramDeltas = Function.update db.ramDeltas p.owner (db.ramDeltas p.owner -
    (permissionObjectSize + p.auth.billableSize ext.packSize))

structure UpdateChecked (db : NativeDb Key) (update : UpdateAuth Key) : Prop where
  named : update.permission ≠ 0
  active : update.permission = activeName → update.parent = ownerName
  account : ∃ row, db.accounts.find update.account = some row

variable {update : UpdateAuth Key}

theorem checkUpdateauth_eq_ok [LinearOrder Key]
    (h : db.checkUpdateauth context update = .ok ()) : db.UpdateChecked update := by
  obtain ⟨hnamed, h⟩ := seq_eq_ok.mp h
  iterate 2 obtain ⟨-, h⟩ := seq_eq_ok.mp h
  obtain ⟨row, hrow, h⟩ := bind_eq_ok.mp h
  obtain ⟨-, h⟩ := seq_eq_ok.mp h
  obtain ⟨hactive, -⟩ := seq_eq_ok.mp h
  refine ⟨by simpa using hnamed, fun heq => ?_, row, getRow_eq_ok.mp hrow⟩
  simpa [heq] using hactive

theorem parentId_eq_ok {parent : ℕ}
    (h : db.parentId update = .ok parent) :
    (update.permission = ownerName ∧ parent = 0) ∨
    (update.permission ≠ ownerName ∧ ∃ q, (parent, q) ∈ db.permissions.rows ∧
      q.level = ⟨update.account, update.parent⟩ ∧ update.account ≠ 0) := by
  unfold parentId at h
  split_ifs at h with howner
  · exact .inl ⟨howner, (Except.ok.inj h).symm⟩
  · obtain ⟨q, hq, h⟩ := bind_eq_ok.mp h
    cases h
    obtain ⟨hmem, hlevel, hactor, -⟩ := getPermission_eq_ok hq
    exact .inr ⟨howner, q.2, hmem, hlevel, hactor⟩

theorem modifyPermission_eq_ok {auth : Authority Key}
    (h : db.modifyPermission ext context id auth = .ok db') : db' = { db with
      permissions := db.permissions.modify id (.withAuth auth context.pendingBlockTime)
        (PermissionObject.withAuth_level _ _) } := by
  obtain ⟨-, h⟩ := seq_eq_ok.mp h
  exact (Except.ok.inj h).symm

theorem applyEosioUpdateauth_eq_ok [LinearOrder Key]
    (h : db.applyEosioUpdateauth ext context update = .ok db') : db.UpdateChecked update ∧
      ∃ parent, db.parentId update = .ok parent ∧
        ((∃ id p, p.level = ⟨update.account, update.permission⟩ ∧ p.parent = parent ∧
          AuthorityChanged ext db id p update.auth db') ∨
        (⟨update.account, update.permission⟩ ∉ db.permissions.keys ∧
          ∃ time, db.permissions.Created
            ⟨parent, update.account, update.permission, time, update.auth⟩ db'.permissions ∧
          db' = { db with permissions := db'.permissions }.addRamUsage update.account
            (permissionObjectSize + update.auth.billableSize ext.packSize))) := by
  iterate 2 obtain ⟨-, h⟩ := seq_eq_ok.mp h
  obtain ⟨hcheck, h⟩ := seq_eq_ok.mp h
  obtain ⟨-, h⟩ := seq_eq_ok.mp h
  obtain ⟨permission, hpermission, h⟩ := bind_eq_ok.mp h
  obtain ⟨parent, hparent, h⟩ := bind_eq_ok.mp h
  refine ⟨checkUpdateauth_eq_ok hcheck, parent, hparent, ?_⟩
  obtain ⟨rfl, -⟩ := findPermission_eq_ok hpermission
  cases hfind : db.permissions.find ⟨update.account, update.permission⟩ with
  | some row =>
    rw [hfind] at h
    obtain ⟨hsame, h⟩ := seq_eq_ok.mp h
    obtain ⟨db₁, hmodify, h⟩ := bind_eq_ok.mp h
    cases h
    obtain rfl := modifyPermission_eq_ok hmodify
    obtain ⟨hmem, hlevel⟩ := find_eq_some.mp hfind
    refine .inl ⟨row.1, row.2, hlevel, ?_, hmem, ⟨_, rfl⟩, rfl, rfl, rfl, rfl, ?_⟩
    · have hparent' : parent = row.2.parent := by simpa using hsame
      exact hparent'.symm
    · simp [addRamUsage]
  | none =>
    rw [hfind] at h
    obtain ⟨⟨id, db₁⟩, hcreate, h⟩ := bind_eq_ok.mp h
    cases h
    obtain ⟨-, hcreated, hdb₁⟩ := createPermission_eq_ok hcreate
    refine .inr ⟨find_eq_none.mp hfind, context.pendingBlockTime, hcreated, ?_⟩
    rw [hdb₁]
    rfl

theorem applyEosioDeleteauth_eq_ok {remove : DeleteAuth}
    (h : db.applyEosioDeleteauth ext context remove = .ok db') : ∃ id p,
      p.level = ⟨remove.account, remove.permission⟩ ∧ PermissionRemoved ext db id p db' := by
  iterate 2 obtain ⟨-, h⟩ := seq_eq_ok.mp h
  obtain ⟨hactive, h⟩ := seq_eq_ok.mp h
  obtain ⟨howner, h⟩ := seq_eq_ok.mp h
  obtain ⟨hlinks, h⟩ := seq_eq_ok.mp h
  obtain ⟨⟨id, p⟩, hp, h⟩ := bind_eq_ok.mp h
  obtain ⟨db₁, hremove, h⟩ := bind_eq_ok.mp h
  obtain ⟨hchildless, hdb₁⟩ := seq_eq_ok.mp hremove
  cases hdb₁
  cases h
  obtain ⟨hmem, hlevel, -, hname⟩ := getPermission_eq_ok hp
  have haccount : p.owner = remove.account := congrArg PermissionLevel.actor hlevel
  have hpermission : p.name = remove.permission := congrArg PermissionLevel.permission hlevel
  refine ⟨id, p, hlevel, hmem, ?_, ?_, ?_, ?_, ?_, rfl, rfl, rfl, rfl, rfl, ?_⟩
  · rw [hpermission]
    exact hname
  · rw [hpermission]
    simpa using howner
  · rw [hpermission]
    simpa using hactive
  · intro r hr hparent
    simp only [eosAssert_eq_ok, Bool.not_eq_true', List.any_eq_false, beq_iff_eq] at hchildless
    exact hchildless r hr hparent
  · intro l hl haccount' hrequired
    simp only [eosAssert_eq_ok, Bool.not_eq_true', List.any_eq_false, Bool.and_eq_true,
      beq_iff_eq] at hlinks
    exact hlinks l hl ⟨haccount'.trans haccount, hrequired.trans hpermission⟩
  · rw [haccount]
    rfl

/-- A link refers to any permission, or to a permission of the account if only those may be
linked to. -/
def Linkable (context : ApplyContext Key) (db : NativeDb Key) (l : PermissionLinkObject) : Prop :=
  l.requiredPermission = eosioAnyName ∨ (context.onlyLinkToExistingPermission = true →
    ⟨l.account, l.requiredPermission⟩ ∈ db.permissions.keys)

structure LinksChanged (db : NativeDb Key) (account : AccountName) (delta : ℤ)
    (db' : NativeDb Key) : Prop where
  permissions : db'.permissions = db.permissions
  accounts : db'.accounts = db.accounts
  metadata : db'.metadata = db.metadata
  codes : db'.codes = db.codes
  ramDeltas : db'.ramDeltas = Function.update db.ramDeltas account (db.ramDeltas account + delta)

theorem checkRequirement_eq_ok {requirement : LinkAuth}
    (h : db.checkRequirement context requirement = .ok ()) :
    db.Linkable context ⟨requirement.account, requirement.code, requirement.type,
      requirement.requirement⟩ := by
  unfold checkRequirement at h
  split_ifs at h with hany honly
  · exact .inl hany
  · refine .inr fun _ => ?_
    obtain ⟨row, hrow⟩ := Option.isSome_iff_exists.mp (eosAssert_eq_ok.mp h)
    obtain ⟨hmem, hlevel⟩ := find_eq_some.mp hrow
    exact mem_keys.mpr ⟨row.1, row.2, hmem, hlevel⟩
  · exact .inr fun honly' => absurd honly' honly

theorem applyEosioLinkauth_eq_ok {requirement : LinkAuth}
    (h : db.applyEosioLinkauth context requirement = .ok db') :
    db.Linkable context ⟨requirement.account, requirement.code, requirement.type,
      requirement.requirement⟩ ∧
    ((∃ id l, (id, l) ∈ db.links.rows ∧
        l.actionName = (requirement.account, requirement.code, requirement.type) ∧
        db'.links = db.links.modify id (.withRequirement requirement.requirement)
          (PermissionLinkObject.withRequirement_actionName _) ∧
        LinksChanged db requirement.account 0 db') ∨
      (db.links.Created ⟨requirement.account, requirement.code, requirement.type,
          requirement.requirement⟩ db'.links ∧
        LinksChanged db requirement.account permissionLinkObjectSize db')) := by
  iterate 5 obtain ⟨-, h⟩ := seq_eq_ok.mp h
  obtain ⟨hcheck, h⟩ := seq_eq_ok.mp h
  refine ⟨checkRequirement_eq_ok hcheck, ?_⟩
  cases hfind : db.links.find (requirement.account, requirement.code, requirement.type) with
  | some link =>
    rw [hfind] at h
    obtain ⟨-, h⟩ := seq_eq_ok.mp h
    cases h
    obtain ⟨hmem, hname⟩ := find_eq_some.mp hfind
    exact .inl ⟨link.1, link.2, hmem, hname, rfl, rfl, rfl, rfl, rfl, by simp⟩
  | none =>
    rw [hfind] at h
    obtain ⟨links, hcreate, h⟩ := bind_eq_ok.mp h
    cases h
    exact .inr ⟨createRow_eq_ok hcreate, rfl, rfl, rfl, rfl, rfl⟩

theorem applyEosioUnlinkauth_eq_ok {unlink : UnlinkAuth}
    (h : db.applyEosioUnlinkauth context unlink = .ok db') : ∃ id l, (id, l) ∈ db.links.rows ∧
      l.actionName = (unlink.account, unlink.code, unlink.type) ∧
      db'.links = db.links.remove id ∧
      LinksChanged db unlink.account (-permissionLinkObjectSize) db' := by
  iterate 2 obtain ⟨-, h⟩ := seq_eq_ok.mp h
  cases hfind : db.links.find (unlink.account, unlink.code, unlink.type) with
  | none =>
    rw [hfind] at h
    exact absurd h (by simp)
  | some link =>
    rw [hfind] at h
    cases h
    obtain ⟨hmem, hname⟩ := find_eq_some.mp hfind
    have haccount : link.2.account = unlink.account := congrArg Prod.fst hname
    refine ⟨link.1, link.2, hmem, hname, rfl, rfl, rfl, rfl, rfl, ?_⟩
    rw [← haccount]
    rfl

variable {account : AccountMetadataObject} {codeHash : Digest} {act : SetCode} {size : ℤ}

inductive CodeReleased (codes : Table hashKey) (account : AccountMetadataObject)
    (codeHash : Digest) : ℤ → Table hashKey → Prop
  | none (h : account.codeHash = 0) : CodeReleased codes account codeHash 0 codes
  | last {id : ℕ} {c : CodeObject} (hcode : account.codeHash ≠ 0) (hmem : (id, c) ∈ codes.rows)
      (hkey : c.hashKey = (account.codeHash, account.vmType, account.vmVersion))
      (hne : c.codeHash ≠ codeHash) (hcount : c.codeRefCount = 1) :
      CodeReleased codes account codeHash (c.code.length * setcodeRamBytesMultiplier)
        (codes.remove id)
  | shared {id : ℕ} {c : CodeObject} (hcode : account.codeHash ≠ 0) (hmem : (id, c) ∈ codes.rows)
      (hkey : c.hashKey = (account.codeHash, account.vmType, account.vmVersion))
      (hne : c.codeHash ≠ codeHash) (hcount : c.codeRefCount ≠ 1) :
      CodeReleased codes account codeHash (c.code.length * setcodeRamBytesMultiplier)
        (codes.modify id released released_hashKey)

theorem releaseCode_eq_ok (h : db.releaseCode account codeHash = .ok (size, db')) :
    CodeReleased db.codes account codeHash size db'.codes ∧
      db' = { db with codes := db'.codes } := by
  unfold releaseCode at h
  split_ifs at h with hcode
  · cases h
    exact ⟨.none hcode, rfl⟩
  · obtain ⟨old, hold, h⟩ := bind_eq_ok.mp h
    obtain ⟨hne, h⟩ := seq_eq_ok.mp h
    cases h
    obtain ⟨hmem, hkey⟩ := find_eq_some.mp (getRow_eq_ok.mp hold)
    have hne' : old.2.codeHash ≠ codeHash := by simpa using hne
    refine ⟨?_, rfl⟩
    split_ifs with hcount
    · exact .last hcode hmem hkey hne' hcount
    · exact .shared hcode hmem hkey hne' hcount

inductive CodeAcquired (codes : Table hashKey) (act : SetCode) (codeHash : Digest) :
    Table hashKey → Prop
  | none (h : act.code = []) : CodeAcquired codes act codeHash codes
  | shared {id : ℕ} {c : CodeObject} (hcode : act.code ≠ []) (hmem : (id, c) ∈ codes.rows)
      (hkey : c.hashKey = (codeHash, act.vmType, act.vmVersion)) :
      CodeAcquired codes act codeHash (codes.modify id acquired acquired_hashKey)
  | first {codes' : Table hashKey} {block : ℕ} (hcode : act.code ≠ [])
      (h : codes.Created ⟨codeHash, act.code, 1, block, act.vmType, act.vmVersion⟩ codes') :
      CodeAcquired codes act codeHash codes'

theorem acquireCode_eq_ok (h : db.acquireCode context act codeHash = .ok db') :
    CodeAcquired db.codes act codeHash db'.codes ∧ db' = { db with codes := db'.codes } := by
  unfold acquireCode at h
  split_ifs at h with hcode
  · cases h
    exact ⟨.none hcode, rfl⟩
  · cases hfind : db.codes.find (codeHash, act.vmType, act.vmVersion) with
    | some new =>
      rw [hfind] at h
      cases h
      obtain ⟨hmem, hkey⟩ := find_eq_some.mp hfind
      exact ⟨.shared hcode hmem hkey, rfl⟩
    | none =>
      rw [hfind] at h
      obtain ⟨codes, hcreate, h⟩ := bind_eq_ok.mp h
      cases h
      exact ⟨.first hcode (createRow_eq_ok hcreate), rfl⟩

structure CodeChanged (ext : Externals Key) (db : NativeDb Key) (act : SetCode)
    (db' : NativeDb Key) : Prop where
  effect : ∃ id account size mid time, (id, account) ∈ db.metadata.rows ∧
    account.name = act.account ∧ CodeReleased db.codes account (codeHashOf ext act.code) size mid ∧
    CodeAcquired mid act (codeHashOf ext act.code) db'.codes ∧
    db'.metadata = db.metadata.modify id (.withCode (codeHashOf ext act.code) 0 0 time)
      (AccountMetadataObject.withCode_name _ _ _ _) ∧
    db'.ramDeltas = Function.update db.ramDeltas act.account (db.ramDeltas act.account +
      (act.code.length * setcodeRamBytesMultiplier - size))
  permissions : db'.permissions = db.permissions
  accounts : db'.accounts = db.accounts
  links : db'.links = db.links

theorem ite_addRamUsage {account : AccountName} {newSize oldSize : ℤ} :
    (if newSize ≠ oldSize then db.addRamUsage account (newSize - oldSize) else db) =
      db.addRamUsage account (newSize - oldSize) := by
  split_ifs with h
  · rfl
  · unfold addRamUsage
    rw [not_not] at h
    simp [h]

theorem applyEosioSetcode_eq_ok (h : db.applyEosioSetcode ext context act = .ok db') :
    (act.vmType = 0 ∧ act.vmVersion = 0) ∧ CodeChanged ext db act db' := by
  iterate 2 obtain ⟨-, h⟩ := seq_eq_ok.mp h
  obtain ⟨htype, h⟩ := seq_eq_ok.mp h
  obtain ⟨hversion, h⟩ := seq_eq_ok.mp h
  obtain ⟨-, h⟩ := seq_eq_ok.mp h
  obtain ⟨⟨id, account⟩, haccount, h⟩ := bind_eq_ok.mp h
  obtain ⟨-, h⟩ := seq_eq_ok.mp h
  obtain ⟨⟨size, db₁⟩, hrelease, h⟩ := bind_eq_ok.mp h
  obtain ⟨db₂, hacquire, h⟩ := bind_eq_ok.mp h
  obtain ⟨hreleased, hdb₁⟩ := releaseCode_eq_ok hrelease
  obtain ⟨hacquired, hdb₂⟩ := acquireCode_eq_ok hacquire
  obtain ⟨hmem, hname⟩ := find_eq_some.mp (getRow_eq_ok.mp haccount)
  have hvm : act.vmType = 0 ∧ act.vmVersion = 0 := ⟨by simpa using htype, by simpa using hversion⟩
  refine ⟨hvm, ?_⟩
  have hdb' := Except.ok.inj h
  rw [ite_addRamUsage, hdb₂, hdb₁, hvm.1, hvm.2] at hdb'
  rw [← hdb']
  exact ⟨⟨id, account, size, db₁.codes, _, hmem, hname, hreleased, hacquired, rfl, rfl⟩, rfl, rfl,
    rfl⟩

structure AbiChanged (db : NativeDb Key) (act : SetAbi) (db' : NativeDb Key) : Prop where
  effect : ∃ id account, (id, account) ∈ db.accounts.rows ∧ account.name = act.account ∧
    db'.accounts = db.accounts.modify id (.withAbi act.abi) (AccountObject.withAbi_name _) ∧
    db'.ramDeltas = Function.update db.ramDeltas act.account
      (db.ramDeltas act.account + (act.abi.length - account.abi.length))
  metadata : ∃ id, db'.metadata = db.metadata.modify id .nextAbi AccountMetadataObject.nextAbi_name
  permissions : db'.permissions = db.permissions
  links : db'.links = db.links
  codes : db'.codes = db.codes

theorem applyEosioSetabi_eq_ok {act : SetAbi} (h : db.applyEosioSetabi context act = .ok db') :
    AbiChanged db act db' := by
  iterate 2 obtain ⟨-, h⟩ := seq_eq_ok.mp h
  obtain ⟨⟨id, account⟩, haccount, h⟩ := bind_eq_ok.mp h
  obtain ⟨metadata, hmetadata, h⟩ := bind_eq_ok.mp h
  obtain ⟨hmem, hname⟩ := find_eq_some.mp (getRow_eq_ok.mp haccount)
  have hdb' := Except.ok.inj h
  rw [ite_addRamUsage] at hdb'
  rw [← hdb']
  exact ⟨⟨id, account, hmem, hname, rfl, rfl⟩, ⟨metadata.1, rfl⟩, rfl, rfl, rfl⟩

section Genesis
variable [LinearOrder Key] {initialKey : Key} {abi : List UInt8}

theorem initializeDatabase_eq_ok
    (h : initializeDatabase ext context time initialKey abi = .ok db) :
    ∃ (db₀ db₁ db₂ db₃ db₄ db₅ : NativeDb Key) (active : ℕ × PermissionObject Key),
      initialTables = .ok db₀ ∧
      AccountAdded ext db₀ ⟨systemAccountName, time, abi⟩ (systemAuthority initialKey)
        (systemAuthority initialKey) db₁ ∧
      AccountAdded ext db₁ ⟨nullAccountName, time, []⟩ emptyAuthority emptyAuthority db₂ ∧
      AccountAdded ext db₂ ⟨producersAccountName, time, []⟩ emptyAuthority producersAuthority
        db₃ ∧
      AccountAdded ext db₃ ⟨gasAccountName, time, []⟩ emptyAuthority producersAuthority db₄ ∧
      (active ∈ db₄.permissions.rows ∧ active.2.level = ⟨producersAccountName, activeName⟩) ∧
      (db₄.permissions.Created ⟨active.1, producersAccountName, majorityProducersPermissionName,
          time, producersAuthority⟩ db₅.permissions ∧
        db₅ = { db₄ with permissions := db₅.permissions }) ∧
      (db₅.permissions.Created ⟨db₄.permissions.nextId, producersAccountName,
          minorityProducersPermissionName, time, producersAuthority⟩ db.permissions ∧
        db = { db₅ with permissions := db.permissions }) := by
  obtain ⟨db₀, hinit, h⟩ := bind_eq_ok.mp h
  obtain ⟨db₁, hsystem, h⟩ := bind_eq_ok.mp h
  obtain ⟨db₂, hnull, h⟩ := bind_eq_ok.mp h
  obtain ⟨db₃, hprods, h⟩ := bind_eq_ok.mp h
  obtain ⟨db₄, hgas, h⟩ := bind_eq_ok.mp h
  obtain ⟨active, hactive, h⟩ := bind_eq_ok.mp h
  obtain ⟨⟨majority, db₅⟩, hmajority, h⟩ := bind_eq_ok.mp h
  obtain ⟨⟨minority, db₆⟩, hminority, h⟩ := bind_eq_ok.mp h
  cases h
  obtain ⟨hmem, hlevel, -⟩ := getPermission_eq_ok hactive
  obtain ⟨rfl, hcreated, hdb₅⟩ := createPermission_eq_ok hmajority
  obtain ⟨-, hcreated', hdb₆⟩ := createPermission_eq_ok hminority
  exact ⟨db₀, db₁, db₂, db₃, db₄, db₅, active, hinit, createNativeAccount_eq_ok hsystem,
    createNativeAccount_eq_ok hnull, createNativeAccount_eq_ok hprods,
    createNativeAccount_eq_ok hgas, ⟨hmem, hlevel⟩, ⟨hcreated, hdb₅⟩, hcreated', hdb₆⟩

end Genesis
end NativeDb
end FlonCore
