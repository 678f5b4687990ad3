import Mathlib.Logic.Relation
import FlonCore.NativeEffects

/-!
# The tree of permissions

Every permission except the owner permission of an account has a parent of the same
account that was created before it. The native actions keep this by checks in five
handlers; the walk up the parents then ends, and finds exactly the permissions above.
-/

namespace FlonCore
open Library List
open PermissionLevel Table

section Hierarchy

structure PermissionShape where
  parent : ℕ
  owner : AccountName
  name : PermissionName
deriving DecidableEq, Repr

structure Placed (accounts : List AccountName) (shapes : List (ℕ × PermissionShape)) (id : ℕ)
    (s : PermissionShape) : Prop where
  named : s.name ≠ 0
  account : s.owner ∈ accounts
  parent : (s.name = ownerName ∧ s.parent = 0) ∨ (s.name ≠ ownerName ∧ s.parent ≠ 0 ∧
    s.parent < id ∧ ∃ q, (s.parent, q) ∈ shapes ∧ q.owner = s.owner)

/-- The permissions of all accounts, where the id 0 is reserved. -/
structure Hierarchy (accounts : List AccountName) (shapes : List (ℕ × PermissionShape)) : Prop where
  placed : ∀ id s, (id, s) ∈ shapes → id ≠ 0 → Placed accounts shapes id s
  named : ∀ a ∈ accounts, a ≠ 0
  complete : ∀ a ∈ accounts, ∃ id, (id, ⟨0, a, ownerName⟩) ∈ shapes ∧
    ∃ id', (id', ⟨id, a, activeName⟩) ∈ shapes

variable {accounts accounts' : List AccountName} {shapes shapes' : List (ℕ × PermissionShape)}
  {id : ℕ} {s : PermissionShape}

theorem Placed.mono (h : Placed accounts shapes id s) (haccounts : accounts ⊆ accounts')
    (hshapes : shapes ⊆ shapes') : Placed accounts' shapes' id s := by
  refine ⟨h.named, haccounts h.account, h.parent.imp_right ?_⟩
  rintro ⟨hname, hzero, hlt, q, hq, howner⟩
  exact ⟨hname, hzero, hlt, q, hshapes hq, howner⟩

variable (h : Hierarchy accounts shapes)
include h

theorem Hierarchy.addAccount {a : AccountName} {n : ℕ} (ha : a ≠ 0) (hn : n ≠ 0) :
    Hierarchy (accounts ++ [a])
      (shapes ++ [(n, ⟨0, a, ownerName⟩), (n + 1, ⟨n, a, activeName⟩)]) := by
  refine ⟨fun id s hs hid => ?_, fun b hb => ?_, fun b hb => ?_⟩
  · rcases mem_append.mp hs with hs | hs
    · exact (h.placed id s hs hid).mono (by simp) (by simp)
    · rcases mem_pair.mp hs with hs | hs
      · cases hs
        exact ⟨ownerName_ne_zero, by simp, .inl ⟨rfl, rfl⟩⟩
      · cases hs
        exact ⟨activeName_ne_zero, by simp, .inr ⟨ownerName_ne_activeName.symm, hn, by simp,
          ⟨0, a, ownerName⟩, by simp, rfl⟩⟩
  · rcases mem_append.mp hb with hb | hb
    · exact h.named b hb
    · exact mem_singleton.mp hb ▸ ha
  · rcases mem_append.mp hb with hb | hb
    · obtain ⟨id, hid, id', hid'⟩ := h.complete b hb
      exact ⟨id, by simp [hid], id', by simp [hid']⟩
    · obtain rfl := mem_singleton.mp hb
      exact ⟨n, by simp, n + 1, by simp⟩

theorem Hierarchy.addChild {q : PermissionShape} (hnamed : s.name ≠ 0) (howner : s.name ≠ ownerName)
    (hq : (s.parent, q) ∈ shapes) (hsame : q.owner = s.owner) (hlt : s.parent < id)
    (hzero : s.parent ≠ 0) : Hierarchy accounts (shapes ++ [(id, s)]) := by
  refine ⟨fun j t ht hj => ?_, h.named, fun a ha => ?_⟩
  · rcases mem_append.mp ht with ht | ht
    · exact (h.placed j t ht hj).mono (by simp) (by simp)
    · cases mem_singleton.mp ht
      exact ⟨hnamed, hsame ▸ (h.placed _ q hq hzero).account,
        .inr ⟨howner, hzero, hlt, q, by simp [hq], hsame⟩⟩
  · obtain ⟨i, hi, i', hi'⟩ := h.complete a ha
    exact ⟨i, by simp [hi], i', by simp [hi']⟩

theorem Hierarchy.removeLeaf (hunique : ∀ t, (id, t) ∈ shapes → t = s)
    (howner : s.name ≠ ownerName) (hactive : s.name ≠ activeName)
    (hleaf : ∀ j t, (j, t) ∈ shapes → t.parent ≠ id) :
    Hierarchy accounts (shapes.filter fun r => r.1 ≠ id) := by
  have hkeep : ∀ j t, (j, t) ∈ shapes → j ≠ id → (j, t) ∈ shapes.filter fun r => r.1 ≠ id :=
    fun j t ht hj => mem_filter.mpr ⟨ht, by simpa using hj⟩
  have hother : ∀ j t, (j, t) ∈ shapes → t.name = ownerName ∨ t.name = activeName → j ≠ id := by
    rintro j t ht hname rfl
    rw [hunique t ht] at hname
    exact hname.elim howner hactive
  refine ⟨fun j t ht hj => ?_, h.named, fun a ha => ?_⟩
  · have ht' := mem_of_mem_filter ht
    obtain ⟨hnamed, haccount, hparent⟩ := h.placed j t ht' hj
    refine ⟨hnamed, haccount, hparent.imp_right ?_⟩
    rintro ⟨hname, hzero, hlt, q, hq, hsame⟩
    exact ⟨hname, hzero, hlt, q, hkeep _ q hq (hleaf j t ht'), hsame⟩
  · obtain ⟨i, hi, i', hi'⟩ := h.complete a ha
    exact ⟨i, hkeep i _ hi (hother i _ hi (.inl rfl)), i',
      hkeep i' _ hi' (hother i' _ hi' (.inr rfl))⟩

end Hierarchy

namespace NativeDb
variable {Key : Type} {ext : Externals Key} {context : ApplyContext Key}
  {db db' : NativeDb Key}

def reservedPermission : PermissionObject Key := ⟨0, 0, 0, 0, ⟨0, [], [], []⟩⟩

def shape (p : PermissionObject Key) : PermissionShape := ⟨p.parent, p.owner, p.name⟩

def shapes (db : NativeDb Key) : List (ℕ × PermissionShape) :=
  db.permissions.rows.map fun r => (r.1, shape r.2)

structure PermissionTree (db : NativeDb Key) : Prop where
  hierarchy : Hierarchy db.accounts.keys db.shapes
  reserved : (0, reservedPermission) ∈ db.permissions.rows

def LinksExist (db : NativeDb Key) : Prop :=
  ∀ l ∈ db.links.rows, l.2.requiredPermission = eosioAnyName ∨
    ⟨l.2.account, l.2.requiredPermission⟩ ∈ db.permissions.keys

section Shapes
variable {id : ℕ} {p : PermissionObject Key}

theorem mem_shapes {s : PermissionShape} :
    (id, s) ∈ db.shapes ↔ ∃ p, (id, p) ∈ db.permissions.rows ∧ shape p = s := by
  simp [shapes]

theorem level_of_shape {s : PermissionShape} (h : shape p = s) : p.level = ⟨s.owner, s.name⟩ :=
  h ▸ rfl

theorem shapes_created (h : db.permissions.Created p db'.permissions) :
    db'.shapes = db.shapes ++ [(db.permissions.nextId, shape p)] := by
  simp [shapes, h.rows]

theorem shapes_accountAdded {account : AccountObject} {owner active : Authority Key}
    (h : AccountAdded ext db account owner active db') : db'.shapes =
      db.shapes ++ [(db.permissions.nextId, ⟨0, account.name, ownerName⟩),
        (db.permissions.nextId + 1, ⟨db.permissions.nextId, account.name, activeName⟩)] := by
  obtain ⟨mid, time, howner, hactive⟩ := h.permissions
  simp [shapes, shape, hactive.rows, howner.rows, howner.nextId]

theorem shapes_modify {auth : Authority Key} {time : ℤ}
    (h : db'.permissions = db.permissions.modify id (.withAuth auth time)
      (PermissionObject.withAuth_level _ _)) : db'.shapes = db.shapes := by
  unfold shapes
  rw [h, rows_modify, map_map]
  congr 1
  funext r
  change ((modifyRow id (.withAuth auth time) r).1,
    shape (modifyRow id (.withAuth auth time) r).2) = _
  unfold modifyRow
  split_ifs <;> rfl

theorem shapes_remove (h : db'.permissions = db.permissions.remove id) :
    db'.shapes = db.shapes.filter fun r => r.1 ≠ id := by
  unfold shapes
  rw [h, rows_remove, filter_map]
  rfl

section
variable (h : db.PermissionTree)
include h

theorem PermissionTree.nextId_ne_zero : db.permissions.nextId ≠ 0 :=
  (db.permissions.below _ h.reserved).ne'

theorem PermissionTree.id_ne_zero (hp : (id, p) ∈ db.permissions.rows)
    (hnamed : p.name ≠ 0 ∨ p.owner ≠ 0) : id ≠ 0 := by
  rintro rfl
  obtain rfl := eq_of_id hp h.reserved
  exact hnamed.elim (· rfl) (· rfl)

theorem PermissionTree.accountAdded {account : AccountObject} {owner active : Authority Key}
    (hname : account.name ≠ 0) (hadded : AccountAdded ext db account owner active db') :
    db'.PermissionTree := by
  obtain ⟨mid, time, howner, hactive⟩ := hadded.permissions
  refine ⟨?_, hactive.mem.mpr (.inl (howner.mem.mpr (.inl h.reserved)))⟩
  rw [hadded.accounts.keys, shapes_accountAdded hadded]
  exact h.hierarchy.addAccount hname h.nextId_ne_zero

theorem PermissionTree.permissionAdded (hnamed : p.name ≠ 0) (howner : p.name ≠ ownerName)
    {q : PermissionObject Key} (hq : (p.parent, q) ∈ db.permissions.rows)
    (hsame : q.owner = p.owner) (hnonzero : p.owner ≠ 0)
    (hcreated : db.permissions.Created p db'.permissions) (haccounts : db'.accounts = db.accounts) :
    db'.PermissionTree := by
  refine ⟨?_, hcreated.mem.mpr (.inl h.reserved)⟩
  rw [haccounts, shapes_created hcreated]
  exact h.hierarchy.addChild hnamed howner (mem_shapes.mpr ⟨q, hq, rfl⟩) hsame
    (db.permissions.below _ hq) (h.id_ne_zero hq (.inr (hsame ▸ hnonzero)))

theorem PermissionTree.authorityChanged {auth : Authority Key} (howner : p.owner ≠ 0)
    (hchanged : AuthorityChanged ext db id p auth db') : db'.PermissionTree := by
  obtain ⟨time, hpermissions⟩ := hchanged.permissions
  refine ⟨?_, ?_⟩
  · rw [hchanged.accounts, shapes_modify hpermissions]
    exact h.hierarchy
  · rw [hpermissions]
    exact mem_modify.mpr (.inl ⟨(h.id_ne_zero hchanged.mem (.inr howner)).symm, h.reserved⟩)

theorem PermissionTree.permissionRemoved (hremoved : PermissionRemoved ext db id p db') :
    db'.PermissionTree := by
  refine ⟨?_, ?_⟩
  · rw [hremoved.accounts, shapes_remove hremoved.permissions]
    refine h.hierarchy.removeLeaf (s := shape p) ?_ hremoved.not_owner hremoved.not_active ?_
    · intro t ht
      obtain ⟨q, hq, rfl⟩ := mem_shapes.mp ht
      rw [eq_of_id hq hremoved.mem]
    · intro j t ht
      obtain ⟨q, hq, rfl⟩ := mem_shapes.mp ht
      exact hremoved.childless _ hq
  · rw [hremoved.permissions]
    exact mem_remove.mpr ⟨h.reserved, (h.id_ne_zero hremoved.mem (.inl hremoved.named)).symm⟩

theorem PermissionTree.of_same (hpermissions : db'.permissions = db.permissions)
    (haccounts : db'.accounts.keys = db.accounts.keys) : db'.PermissionTree := by
  refine ⟨?_, ?_⟩
  · rw [haccounts, shapes, hpermissions]
    exact h.hierarchy
  · rw [hpermissions]
    exact h.reserved

theorem PermissionTree.linkauth {requirement : LinkAuth}
    (hok : db.applyEosioLinkauth context requirement = .ok db') : db'.PermissionTree := by
  obtain ⟨-, hcases⟩ := applyEosioLinkauth_eq_ok hok
  rcases hcases with ⟨_, _, _, _, _, hchanged⟩ | ⟨_, hchanged⟩
  · exact h.of_same hchanged.permissions (by rw [hchanged.accounts])
  · exact h.of_same hchanged.permissions (by rw [hchanged.accounts])

variable [LinearOrder Key]

theorem PermissionTree.newaccount {create : NewAccount Key}
    (hok : db.applyEosioNewaccount ext context create = .ok db') : db'.PermissionTree := by
  obtain ⟨hname, hadded⟩ := applyEosioNewaccount_eq_ok hok
  exact h.accountAdded hname hadded

theorem PermissionTree.updateauth {update : UpdateAuth Key}
    (hok : db.applyEosioUpdateauth ext context update = .ok db') : db'.PermissionTree := by
  obtain ⟨hchecked, parent, hparent, hcases⟩ := applyEosioUpdateauth_eq_ok hok
  obtain ⟨row, hrow⟩ := hchecked.account
  obtain ⟨hmem, hname⟩ := find_eq_some.mp hrow
  have haccount : update.account ∈ db.accounts.keys :=
    mem_keys.mpr ⟨row.1, row.2, hmem, hname⟩
  have hnonzero : update.account ≠ 0 := h.hierarchy.named _ haccount
  rcases hcases with ⟨id, p, hlevel, -, hchanged⟩ | ⟨hnew, time, hcreated, hdb'⟩
  · have howner : p.owner = update.account := congrArg actor hlevel
    exact h.authorityChanged (howner ▸ hnonzero) hchanged
  · rcases parentId_eq_ok hparent with ⟨howner, -⟩ | ⟨hnot, q, hq, hlevel, -⟩
    -- the owner permission of an account exists, so it is not created again
    · obtain ⟨id, hid, -⟩ := h.hierarchy.complete _ haccount
      obtain ⟨p, hp, hshape⟩ := mem_shapes.mp hid
      refine absurd (mem_keys.mpr ⟨id, p, hp, ?_⟩) hnew
      rw [howner]
      exact level_of_shape hshape
    · refine h.permissionAdded hchecked.named hnot hq (congrArg actor hlevel) hnonzero hcreated ?_
      rw [hdb']
      rfl

theorem PermissionTree.applyAction {action : NativeAction Key}
    (hok : db.applyAction ext context action = .ok db') : db'.PermissionTree := by
  cases action with
  | newaccount create => exact h.newaccount hok
  | setcode act =>
    obtain ⟨-, hchanged⟩ := applyEosioSetcode_eq_ok hok
    exact h.of_same hchanged.permissions (by rw [hchanged.accounts])
  | setabi act =>
    have hchanged := applyEosioSetabi_eq_ok hok
    obtain ⟨id, account, -, -, haccounts, -⟩ := hchanged.effect
    exact h.of_same hchanged.permissions (by rw [haccounts, keys_modify])
  | updateauth update => exact h.updateauth hok
  | deleteauth remove =>
    obtain ⟨id, p, -, hremoved⟩ := applyEosioDeleteauth_eq_ok hok
    exact h.permissionRemoved hremoved
  | linkauth requirement => exact h.linkauth hok
  | unlinkauth unlink =>
    obtain ⟨id, l, -, -, -, hchanged⟩ := applyEosioUnlinkauth_eq_ok hok
    exact h.of_same hchanged.permissions (by rw [hchanged.accounts])

end

section
variable (h : db.LinksExist)
include h

theorem LinksExist.of_keys (hlinks : db'.links = db.links)
    (hkeys : ∀ l ∈ db.links.rows, ⟨l.2.account, l.2.requiredPermission⟩ ∈ db.permissions.keys →
      ⟨l.2.account, l.2.requiredPermission⟩ ∈ db'.permissions.keys) : db'.LinksExist := by
  intro l hl
  rw [hlinks] at hl
  exact (h l hl).imp_right (hkeys l hl)

theorem LinksExist.accountAdded {account : AccountObject} {owner active : Authority Key}
    (hadded : AccountAdded ext db account owner active db') : db'.LinksExist := by
  obtain ⟨mid, time, howner, hactive⟩ := hadded.permissions
  refine h.of_keys hadded.links fun l _ hkey => ?_
  rw [hactive.keys, howner.keys]
  exact mem_append_left _ (mem_append_left _ hkey)

theorem LinksExist.permissionAdded (hcreated : db.permissions.Created p db'.permissions)
    (hlinks : db'.links = db.links) : db'.LinksExist := by
  refine h.of_keys hlinks fun l _ hkey => ?_
  rw [hcreated.keys]
  exact mem_append_left _ hkey

theorem LinksExist.authorityChanged {auth : Authority Key}
    (hchanged : AuthorityChanged ext db id p auth db') : db'.LinksExist := by
  obtain ⟨time, hpermissions⟩ := hchanged.permissions
  refine h.of_keys hchanged.links fun l _ hkey => ?_
  rw [hpermissions, keys_modify]
  exact hkey

theorem LinksExist.permissionRemoved (hremoved : PermissionRemoved ext db id p db') :
    db'.LinksExist := by
  refine h.of_keys hremoved.links fun l hl hkey => ?_
  rw [hremoved.permissions]
  refine Table.mem_keys_remove hremoved.mem hkey fun heq => ?_
  obtain ⟨haccount, hrequired⟩ := PermissionLevel.mk.inj heq
  exact hremoved.unlinked l hl haccount hrequired

variable (honly : context.onlyLinkToExistingPermission = true)
include honly

theorem LinksExist.linkauth {requirement : LinkAuth}
    (hok : db.applyEosioLinkauth context requirement = .ok db') : db'.LinksExist := by
  obtain ⟨hlinkable, hcases⟩ := applyEosioLinkauth_eq_ok hok
  have hnew := hlinkable.imp_right fun hkeys => hkeys honly
  unfold LinksExist
  rcases hcases with ⟨id, l, hl, hname, hlinks, hchanged⟩ | ⟨hcreated, hchanged⟩
  · rw [hchanged.permissions]
    intro l' hl'
    rw [hlinks] at hl'
    rcases mem_modify.mp hl' with ⟨-, hold⟩ | ⟨-, m, hm, heq⟩
    · exact h l' hold
    · obtain rfl := eq_of_id hm hl
      rw [heq]
      have haccount : m.account = requirement.account := congrArg Prod.fst hname
      exact hnew.imp_right fun hkey => haccount ▸ hkey
  · rw [hchanged.permissions]
    intro l hl
    rcases hcreated.mem.mp hl with hold | rfl
    · exact h l hold
    · exact hnew

theorem LinksExist.applyAction [LinearOrder Key] {action : NativeAction Key}
    (hok : db.applyAction ext context action = .ok db') : db'.LinksExist := by
  cases action with
  | newaccount create => exact h.accountAdded (applyEosioNewaccount_eq_ok hok).2
  | setcode act =>
    obtain ⟨-, hchanged⟩ := applyEosioSetcode_eq_ok hok
    exact h.of_keys hchanged.links fun _ _ hkey => by rwa [hchanged.permissions]
  | setabi act =>
    have hchanged := applyEosioSetabi_eq_ok hok
    exact h.of_keys hchanged.links fun _ _ hkey => by rwa [hchanged.permissions]
  | updateauth update =>
    obtain ⟨-, parent, -, hcases⟩ := applyEosioUpdateauth_eq_ok hok
    rcases hcases with ⟨id, p, -, -, hchanged⟩ | ⟨-, time, hcreated, hdb'⟩
    · exact h.authorityChanged hchanged
    · refine h.permissionAdded hcreated ?_
      rw [hdb']
      rfl
  | deleteauth remove =>
    obtain ⟨id, p, -, hremoved⟩ := applyEosioDeleteauth_eq_ok hok
    exact h.permissionRemoved hremoved
  | linkauth requirement => exact h.linkauth honly hok
  | unlinkauth unlink =>
    obtain ⟨id, l, -, -, hlinks, hchanged⟩ := applyEosioUnlinkauth_eq_ok hok
    unfold LinksExist
    rw [hchanged.permissions, hlinks]
    exact fun l' hl' => h l' (mem_remove.mp hl').1

end

end Shapes

theorem initialTables_eq_ok (h : initialTables = .ok db) : db.PermissionTree ∧
    db.LinksExist := by
  obtain ⟨permissions, hcreate, h⟩ := bind_eq_ok.mp h
  cases h
  have hcreated := createRow_eq_ok hcreate
  have hrows : permissions.rows = [(0, reservedPermission)] := hcreated.rows
  refine ⟨⟨⟨fun id s hs hid => ?_, ?_, ?_⟩, ?_⟩, ?_⟩
  · obtain ⟨p, hp, -⟩ := mem_shapes.mp hs
    rw [hrows, mem_singleton] at hp
    exact absurd (congrArg Prod.fst hp) hid
  · simp [Table.keys, empty]
  · simp [Table.keys, empty]
  · rw [hrows]
    exact mem_singleton_self _
  · simp [LinksExist, empty]

theorem initializeDatabase_tree [LinearOrder Key] {time : ℤ} {initialKey : Key}
    {abi : List UInt8} (h : initializeDatabase ext context time initialKey abi = .ok db) :
    db.PermissionTree ∧ db.LinksExist := by
  obtain ⟨db₀, db₁, db₂, db₃, db₄, db₅, active, hinit, hsystem, hnull, hprods, hgas, hactive,
    hmajority, hminority⟩ := initializeDatabase_eq_ok h
  obtain ⟨hsystem₀, hnull₀, hprods₀, hgas₀⟩ := nativeAccounts_ne_zero
  obtain ⟨hmajor₀, hmajor, hminor₀, hminor⟩ := producersPermissions_ne
  obtain ⟨htree, hlinks⟩ := initialTables_eq_ok hinit
  have htree₄ := (((htree.accountAdded hsystem₀ hsystem).accountAdded hnull₀ hnull).accountAdded
    hprods₀ hprods).accountAdded hgas₀ hgas
  have hlinks₄ := (((hlinks.accountAdded hsystem).accountAdded hnull).accountAdded
    hprods).accountAdded hgas
  obtain ⟨hmem, hlevel⟩ := hactive
  have hsame : active.2.owner = producersAccountName := congrArg actor hlevel
  have htree₅ := htree₄.permissionAdded
    hmajor₀ hmajor hmem hsame hprods₀ hmajority.1 (by rw [hmajority.2])
  have hparent := hmajority.1.mem.mpr (.inr rfl)
  refine ⟨htree₅.permissionAdded (p := ⟨db₄.permissions.nextId, producersAccountName, _, time, _⟩)
    hminor₀ hminor hparent rfl hprods₀ hminority.1 (by rw [hminority.2]), ?_⟩
  exact (hlinks₄.permissionAdded hmajority.1 (by rw [hmajority.2])).permissionAdded
    hminority.1 (by rw [hminority.2])

section Runs
variable [LinearOrder Key]

inductive Runs (ext : Externals Key) (allowed : ApplyContext Key → NativeAction Key → Prop)
    (start : NativeDb Key) : NativeDb Key → Prop
  | refl : Runs ext allowed start start
  | step {context : ApplyContext Key} {action : NativeAction Key} {db db' : NativeDb Key}
      (h : Runs ext allowed start db) (hallowed : allowed context action)
      (hok : db.applyAction ext context action = .ok db') : Runs ext allowed start db'

def Reachable (ext : Externals Key) (allowed : ApplyContext Key → NativeAction Key → Prop)
    (db : NativeDb Key) : Prop :=
  ∃ context time initialKey abi start,
    initializeDatabase ext context time initialKey abi = .ok start ∧ Runs ext allowed start db

def OnlyLinkToExisting (context : ApplyContext Key) (_ : NativeAction Key) : Prop :=
  context.onlyLinkToExistingPermission = true

variable {allowed : ApplyContext Key → NativeAction Key → Prop} {start : NativeDb Key}

theorem Runs.permissionTree (h : Runs ext allowed start db) (hstart : start.PermissionTree) :
    db.PermissionTree := by
  induction h with
  | refl => exact hstart
  | step _ _ hok ih => exact ih.applyAction hok

theorem Runs.linksExist (h : Runs ext OnlyLinkToExisting start db) (hstart : start.LinksExist) :
    db.LinksExist := by
  induction h with
  | refl => exact hstart
  | step _ honly hok ih => exact ih.applyAction honly hok

theorem Reachable.permissionTree (h : Reachable ext allowed db) : db.PermissionTree := by
  obtain ⟨_, _, _, _, start, hgenesis, hrun⟩ := h
  exact hrun.permissionTree (initializeDatabase_tree hgenesis).1

theorem Reachable.linksExist (h : Reachable ext OnlyLinkToExisting db) : db.LinksExist := by
  obtain ⟨_, _, _, _, start, hgenesis, hrun⟩ := h
  exact hrun.linksExist (initializeDatabase_tree hgenesis).2

variable {actions : List (DeclaredAction Key)}
  (hok : db.applyActions ext context actions = .ok db')
  (hallowed : ∀ a ∈ actions, allowed { context with authorization := a.authorization } a.data)
include hok hallowed

theorem Runs.applyActions (h : Runs ext allowed start db) : Runs ext allowed start db' := by
  induction actions generalizing db with
  | nil => exact Except.ok.inj hok ▸ h
  | cons a rest ih =>
    obtain ⟨mid, hmid, hrest⟩ := bind_eq_ok.mp hok
    obtain ⟨hfirst, hallowed⟩ := forall_mem_cons.mp hallowed
    exact ih hrest hallowed (.step h hfirst hmid)

theorem Reachable.applyActions (h : Reachable ext allowed db) : Reachable ext allowed db' := by
  obtain ⟨c, time, initialKey, abi, start, hgenesis, hrun⟩ := h
  exact ⟨c, time, initialKey, abi, start, hgenesis, hrun.applyActions hok hallowed⟩

end Runs

def sampleExternals : Externals ℕ :=
  ⟨fun _ => 0, fun _ => 34, fun code => code.length, fun _ => .ok ()⟩

def sampleContext : ApplyContext ℕ where
  isReadOnly := false
  authorization := []
  enforceWhiteblacklist := false
  isSpeculativeBlock := false
  keyBlacklist := []
  pendingBlockTime := 1
  headBlockNum := 1
  maxTransactionDelay := 3888000
  numSupportedKeyTypes := 3
  onlyLinkToExistingPermission := true

def sampleKey (k : ℕ) : Authority ℕ := ⟨1, [⟨k, 1⟩], [], []⟩

def alice : AccountName := stringToName "alice"

def sampleStart : Except Failure (NativeDb ℕ) := do
  let db ← initializeDatabase sampleExternals sampleContext 0 0 [0, 0]
  db.applyActions sampleExternals sampleContext
    [⟨[⟨systemAccountName, activeName⟩],
      .newaccount ⟨systemAccountName, alice, sampleKey 1, sampleKey 2⟩⟩]

theorem sampleStart_reachable {db : NativeDb ℕ} (h : sampleStart = .ok db) :
    Reachable sampleExternals OnlyLinkToExisting db := by
  obtain ⟨db₀, hgenesis, hok⟩ := bind_eq_ok.mp h
  have hreachable : Reachable sampleExternals OnlyLinkToExisting db₀ :=
    ⟨sampleContext, 0, 0, [0, 0], db₀, hgenesis, .refl⟩
  exact hreachable.applyActions hok fun _ _ => rfl

end NativeDb
end FlonCore
