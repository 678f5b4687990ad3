import FlonCore.CodeReferences

/-!
# RAM that is charged for native objects

Every handler charges the difference that it makes. What has been charged to an account
is the size of its objects as they are now, except for what was created uncharged with
the native accounts.
-/

namespace FlonCore
open Library Function List
open Table

namespace NativeDb
variable {Key : Type} {ext : Externals Key} {context : ApplyContext Key}
  {db db' : NativeDb Key} {codes : Set (List UInt8)} {uncharged : AccountName → ℤ}

section Sizes
variable (ext) (db) (a : AccountName)

def permissionSize (auth : Authority Key) : ℤ :=
  permissionObjectSize + auth.billableSize ext.packSize

def permissionsSize : ℤ :=
  db.permissions.total fun p => if p.owner = a then permissionSize ext p.auth else 0

def linksSize : ℤ :=
  db.links.total fun l => if l.account = a then (permissionLinkObjectSize : ℤ) else 0

def accountSize : ℤ :=
  db.accounts.total fun o =>
    if o.name = a then (overheadPerAccountRamBytes + o.abi.length : ℤ) else 0

noncomputable def codeSize (codes : Set (List UInt8)) : ℤ :=
  db.metadata.total fun m =>
    if m.name = a then hashSize ext codes m.codeHash * setcodeRamBytesMultiplier else 0

noncomputable def billable (codes : Set (List UInt8)) : ℤ :=
  accountSize db a + permissionsSize ext db a + linksSize db a + codeSize ext db a codes

def Ledger (codes : Set (List UInt8)) (uncharged : AccountName → ℤ) : Prop :=
  ∀ a, db.ramDeltas a + uncharged a = billable ext db a codes

end Sizes

variable {id : ℕ} {p : PermissionObject Key}

section
variable (h : Ledger ext db codes uncharged)
include h

theorem Ledger.accountAdded {account : AccountObject} {owner active : Authority Key}
    (hfree : CollisionFree ext codes) (hadded : AccountAdded ext db account owner active db') :
    Ledger ext db' codes fun a =>
      uncharged a + if account.name = a then (account.abi.length : ℤ) else 0 := by
  intro a
  obtain ⟨mid, time, howner, hactive⟩ := hadded.permissions
  obtain ⟨isPrivileged, hmetadata⟩ := hadded.metadata
  have hold := h a
  unfold billable accountSize permissionsSize linksSize codeSize at hold ⊢
  rw [hadded.accounts.total, hactive.total, howner.total, hadded.links, hmetadata.total,
    hadded.ramDeltas, update_apply]
  by_cases ha : account.name = a
  · subst ha
    simp only [if_true, hfree.hashSize_zero, permissionSize] at hold ⊢
    linarith
  · simp only [if_neg ha, if_neg (Ne.symm ha)]
    linarith

theorem Ledger.permissionAdded (hcreated : db.permissions.Created p db'.permissions)
    (hdb' : db' = { db with permissions := db'.permissions }) : Ledger ext db' codes fun a =>
      uncharged a + if p.owner = a then permissionSize ext p.auth else 0 := by
  intro a
  have hold := h a
  unfold billable accountSize permissionsSize linksSize codeSize at hold ⊢
  rw [hcreated.total, hdb']
  linarith

theorem Ledger.charge {delta : ℤ} {b : AccountName} :
    Ledger ext (db.addRamUsage b delta) codes fun a =>
      uncharged a - if b = a then delta else 0 := by
  intro a
  have hold := h a
  change Function.update db.ramDeltas b (db.ramDeltas b + delta) a + _ = billable ext db a codes
  rw [← hold, update_apply]
  by_cases ha : b = a
  · subst ha
    simp only [if_true]
    ring
  · simp only [if_neg ha, if_neg (Ne.symm ha)]
    ring

theorem Ledger.congr {uncharged' : AccountName → ℤ} (heq : ∀ a, uncharged' a = uncharged a) :
    Ledger ext db codes uncharged' := by
  intro a
  rw [heq]
  exact h a

theorem Ledger.authorityChanged {auth : Authority Key}
    (hchanged : AuthorityChanged ext db id p auth db') : Ledger ext db' codes uncharged := by
  intro a
  obtain ⟨time, hpermissions⟩ := hchanged.permissions
  have hold := h a
  unfold billable accountSize permissionsSize linksSize codeSize at hold ⊢
  rw [hpermissions, total_modify _ hchanged.mem, hchanged.accounts, hchanged.links,
    hchanged.metadata, hchanged.ramDeltas, update_apply]
  have howner : (p.withAuth auth time).owner = p.owner := rfl
  by_cases ha : p.owner = a
  · subst ha
    simp only [if_true, howner]
    simp only [permissionSize, PermissionObject.withAuth] at hold ⊢
    linarith
  · simp only [howner, if_neg ha, if_neg (Ne.symm ha)]
    linarith

theorem Ledger.permissionRemoved (hremoved : PermissionRemoved ext db id p db') :
    Ledger ext db' codes uncharged := by
  intro a
  have hold := h a
  unfold billable accountSize permissionsSize linksSize codeSize at hold ⊢
  rw [hremoved.permissions, total_remove _ hremoved.mem, hremoved.accounts,
    hremoved.links, hremoved.metadata, hremoved.ramDeltas, update_apply]
  by_cases ha : p.owner = a
  · subst ha
    simp only [if_true, permissionSize] at hold ⊢
    linarith
  · simp only [if_neg ha, if_neg (Ne.symm ha)]
    linarith

theorem Ledger.linksChanged {account : AccountName} {delta : ℤ}
    (hchanged : LinksChanged db account delta db')
    (hsize : ∀ a, linksSize db' a = linksSize db a + if account = a then delta else 0) :
    Ledger ext db' codes uncharged := by
  intro a
  have hold := h a
  unfold billable at hold ⊢
  rw [hsize]
  unfold accountSize permissionsSize codeSize at hold ⊢
  rw [hchanged.permissions, hchanged.accounts, hchanged.metadata, hchanged.ramDeltas, update_apply]
  by_cases ha : account = a
  · subst ha
    simp only [if_true]
    linarith
  · simp only [if_neg ha, if_neg (Ne.symm ha)]
    linarith

theorem Ledger.linkauth {link : LinkAuth} (hok : db.applyEosioLinkauth context link = .ok db') :
    Ledger ext db' codes uncharged := by
  obtain ⟨-, hcases⟩ := applyEosioLinkauth_eq_ok hok
  rcases hcases with ⟨id, l, hl, hname, hlinks, hchanged⟩ | ⟨hcreated, hchanged⟩
  · refine h.linksChanged hchanged fun a => ?_
    unfold linksSize
    rw [hlinks, ite_self, add_zero]
    exact total_modify_same fun _ => rfl
  · refine h.linksChanged hchanged fun a => ?_
    unfold linksSize
    rw [hcreated.total]

theorem Ledger.unlinkauth {unlink : UnlinkAuth}
    (hok : db.applyEosioUnlinkauth context unlink = .ok db') : Ledger ext db' codes uncharged := by
  obtain ⟨id, l, hl, hname, hlinks, hchanged⟩ := applyEosioUnlinkauth_eq_ok hok
  refine h.linksChanged hchanged fun a => ?_
  have haccount : l.account = unlink.account := congrArg Prod.fst hname
  unfold linksSize
  rw [hlinks, total_remove _ hl, haccount]
  split_ifs <;> ring

theorem Ledger.setabi {act : SetAbi} (hchanged : AbiChanged db act db') :
    Ledger ext db' codes uncharged := by
  intro a
  obtain ⟨id, account, hmem, hname, haccounts, hdeltas⟩ := hchanged.effect
  obtain ⟨id', hmetadata⟩ := hchanged.metadata
  have hold := h a
  unfold billable at hold ⊢
  have hcode : codeSize ext db' a codes = codeSize ext db a codes := by
    unfold codeSize
    rw [hmetadata]
    exact total_modify_same fun _ => rfl
  have hwith : (account.withAbi act.abi).name = account.name := rfl
  unfold accountSize permissionsSize linksSize at hold ⊢
  rw [haccounts, total_modify _ hmem, hchanged.permissions, hchanged.links, hdeltas,
    update_apply, hwith, hname]
  by_cases ha : act.account = a
  · subst ha
    simp only [if_true, AccountObject.withAbi]
    linarith
  · simp only [if_neg ha, if_neg (Ne.symm ha)]
    linarith

theorem Ledger.setcode {act : SetCode} (hcounted : CodesCounted ext codes db)
    (hfree : CollisionFree ext codes) (hcodes : act.code ∈ codes)
    (hchanged : CodeChanged ext db act db') : Ledger ext db' codes uncharged := by
  intro a
  obtain ⟨id, account, size, mid, time, hmem, hname, hrelease, -, hmetadata, hdeltas⟩ :=
    hchanged.effect
  obtain ⟨-, hsize⟩ := hcounted.counted.release hfree hrelease
  have hnew := hfree.hashSize_eq (Set.mem_insert_of_mem _ hcodes)
  have hold := h a
  unfold billable accountSize permissionsSize linksSize codeSize at hold ⊢
  rw [hmetadata, total_modify _ hmem, hchanged.accounts, hchanged.permissions,
    hchanged.links, hdeltas, update_apply, hsize]
  have hwith : (account.withCode (codeHashOf ext act.code) 0 0 time).name = account.name := rfl
  rw [hwith, hname]
  by_cases ha : act.account = a
  · subst ha
    simp only [if_true, AccountMetadataObject.withCode, hnew]
    linarith
  · simp only [if_neg ha, if_neg (Ne.symm ha)]
    linarith

end

section Runs
variable [LinearOrder Key]

theorem Ledger.updateauth {update : UpdateAuth Key} (h : Ledger ext db codes uncharged)
    (hok : db.applyEosioUpdateauth ext context update = .ok db') :
    Ledger ext db' codes uncharged := by
  obtain ⟨-, parent, -, hcases⟩ := applyEosioUpdateauth_eq_ok hok
  rcases hcases with ⟨id, p, -, -, hchanged⟩ | ⟨-, time, hcreated, hdb'⟩
  · exact h.authorityChanged hchanged
  · have hmid : Ledger ext { db with permissions := db'.permissions } codes _ :=
      h.permissionAdded hcreated rfl
    rw [hdb']
    refine hmid.charge.congr fun a => ?_
    simp only [permissionSize]
    split_ifs <;> ring

theorem Ledger.applyAction {action : NativeAction Key} (h : Ledger ext db codes uncharged)
    (hcounted : CodesCounted ext codes db) (hfree : CollisionFree ext codes)
    (hcodes : SetsCodeIn codes context action)
    (hok : db.applyAction ext context action = .ok db') : Ledger ext db' codes uncharged := by
  cases action with
  | newaccount create =>
    refine (h.accountAdded hfree (applyEosioNewaccount_eq_ok hok).2).congr fun a => ?_
    simp
  | setcode act =>
    obtain ⟨-, hchanged⟩ := applyEosioSetcode_eq_ok hok
    exact h.setcode hcounted hfree (hcodes act rfl) hchanged
  | setabi act => exact h.setabi (applyEosioSetabi_eq_ok hok)
  | updateauth update => exact h.updateauth hok
  | deleteauth remove =>
    obtain ⟨id, p, -, hremoved⟩ := applyEosioDeleteauth_eq_ok hok
    exact h.permissionRemoved hremoved
  | linkauth link => exact h.linkauth hok
  | unlinkauth unlink => exact h.unlinkauth hok

theorem Runs.ledger {start : NativeDb Key} (h : Runs ext (SetsCodeIn codes) start db)
    (hfree : CollisionFree ext codes) (htree : start.PermissionTree)
    (hcounted : CodesCounted ext codes start) (hledger : Ledger ext start codes uncharged) :
    CodesCounted ext codes db ∧ Ledger ext db codes uncharged := by
  induction h with
  | refl => exact ⟨hcounted, hledger⟩
  | step hrun hcodes hok ih =>
    obtain ⟨hcounted', hledger'⟩ := ih
    exact ⟨hcounted'.applyAction hfree (hrun.permissionTree htree) hcodes hok,
      hledger'.applyAction hcounted' hfree hcodes hok⟩

/-- What a new chain has without a charge: the ABI of the system account and the permissions
for the majorities of the producers. -/
def genesisUncharged (ext : Externals Key) (abi : List UInt8) (a : AccountName) : ℤ :=
  (if systemAccountName = a then (abi.length : ℤ) else 0) +
    if producersAccountName = a then 2 * permissionSize ext producersAuthority else 0

omit [LinearOrder Key] in
theorem initialTables_ledger (h : initialTables = .ok db) : Ledger ext db codes fun a =>
      if 0 = a then permissionSize ext ⟨0, [], [], []⟩ else 0 := by
  obtain ⟨permissions, hcreate, h⟩ := bind_eq_ok.mp h
  obtain rfl := Except.ok.inj h
  intro a
  have htotal := (createRow_eq_ok hcreate).total
    fun p => if p.owner = a then permissionSize ext p.auth else 0
  unfold billable accountSize permissionsSize linksSize codeSize
  rw [htotal]
  simp [total, empty]

theorem initializeDatabase_ledger {time : ℤ} {initialKey : Key} {abi : List UInt8}
    (hfree : CollisionFree ext codes)
    (h : initializeDatabase ext context time initialKey abi = .ok db) : Ledger ext db codes fun a =>
      (if 0 = a then permissionSize ext ⟨0, [], [], []⟩ else 0) + genesisUncharged ext abi a := by
  obtain ⟨db₀, db₁, db₂, db₃, db₄, db₅, active, hinit, hsystem, hnull, hprods, hgas, -,
    hmajority, hminority⟩ := initializeDatabase_eq_ok h
  have haccounts := ((((initialTables_ledger hinit).accountAdded hfree hsystem).accountAdded hfree
    hnull).accountAdded hfree hprods).accountAdded hfree hgas
  have hpermissions := (haccounts.permissionAdded hmajority.1 hmajority.2).permissionAdded
    hminority.1 hminority.2
  refine hpermissions.congr fun a => ?_
  simp only [genesisUncharged, length_nil, Nat.cast_zero, ite_self]
  split_ifs <;> ring

end Runs

section Invariant
variable {a : AccountName} {abi : List UInt8}

def codeOf (db : NativeDb Key) (m : AccountMetadataObject) : List UInt8 :=
  ((db.codes.find (m.codeHash, m.vmType, m.vmVersion)).map fun c => c.2.code).getD []

variable {m : ℕ × AccountMetadataObject}

theorem CodesCounted.exists_code (h : CodesCounted ext codes db)
    (hm : m ∈ db.metadata.rows) (hne : m.2.codeHash ≠ 0) :
    ∃ c ∈ db.codes.rows, c.2.codeHash = m.2.codeHash := by
  refine h.counted.present _ hne ?_
  rw [users_eq_length]
  exact_mod_cast length_pos_of_mem (mem_filter.mpr ⟨hm, by simp⟩)

theorem CodesCounted.codeOf_length (h : CodesCounted ext codes db)
    (hfree : CollisionFree ext codes)
    (hm : m ∈ db.metadata.rows) :
    ((codeOf db m.2).length : ℤ) = hashSize ext codes m.2.codeHash := by
  unfold codeOf
  obtain ⟨htype, hversion⟩ := h.versions m hm
  rw [htype, hversion]
  by_cases hzero : m.2.codeHash = 0
  · have hnone : db.codes.find (m.2.codeHash, 0, 0) = none := by
      refine find_eq_none.mpr fun hkey => ?_
      obtain ⟨id, c, hc, heq⟩ := mem_keys.mp hkey
      exact h.counted.hash_ne_zero hfree hc ((congrArg Prod.fst heq).trans hzero)
    rw [hnone, hzero, hfree.hashSize_zero]
    rfl
  · obtain ⟨⟨id, c⟩, hc, hhash⟩ := h.exists_code hm hzero
    have hkey : c.hashKey = (m.2.codeHash, 0, 0) := by
      rw [h.counted.version _ hc, ← hhash]
    rw [find_eq_some.mpr ⟨hc, hkey⟩, ← hhash]
    exact h.counted.size_eq hfree hc

theorem accountSize_eq {r : ℕ × AccountObject} (hr : r ∈ db.accounts.rows) :
    accountSize db r.2.name = overheadPerAccountRamBytes + r.2.abi.length :=
  total_of_key (fun o : AccountObject => (overheadPerAccountRamBytes + o.abi.length : ℤ)) hr

theorem codeSize_eq (hm : m ∈ db.metadata.rows) :
    codeSize ext db m.2.name codes = hashSize ext codes m.2.codeHash * setcodeRamBytesMultiplier :=
  total_of_key (fun m : AccountMetadataObject =>
    hashSize ext codes m.codeHash * (setcodeRamBytesMultiplier : ℤ)) hm

variable (ext) in
theorem permissionSize_pos (auth : Authority Key) : 0 < permissionSize ext auth := by
  have hpos : 0 < permissionObjectSize := by decide
  unfold permissionSize
  omega

variable (ext) in
theorem genesisUncharged_eq_zero : genesisUncharged ext abi a = 0 ↔
    (a = systemAccountName → abi = []) ∧ a ≠ producersAccountName := by
  have hpos := permissionSize_pos ext producersAuthority
  have hlength : abi.length = 0 ↔ abi = [] := length_eq_zero_iff
  have hne : systemAccountName ≠ producersAccountName := by decide +kernel
  unfold genesisUncharged
  by_cases hsystem : systemAccountName = a
  · subst hsystem
    rw [if_pos rfl, if_neg hne.symm, ← hlength]
    simp [hne]
  · rw [if_neg hsystem, zero_add]
    by_cases hproducers : producersAccountName = a
    · subst hproducers
      simp [hpos.ne']
    · rw [if_neg hproducers]
      simp [Ne.symm hsystem, Ne.symm hproducers]

variable [LinearOrder Key]

/-- What was charged to an account is the size of its objects exactly if the account was not
created with an uncharged ABI or permission, and codes are counted by the accounts. -/
theorem native_ram_ledger {start : NativeDb Key} {time : ℤ} {initialKey : Key}
    (hfree : CollisionFree ext codes)
    (hgenesis : initializeDatabase ext context time initialKey abi = .ok start)
    (hrun : Runs ext (SetsCodeIn codes) start db) :
    (∀ r ∈ db.accounts.rows, ∃ m ∈ db.metadata.rows, m.2.name = r.2.name ∧
      (db.ramDeltas r.2.name = overheadPerAccountRamBytes + permissionsSize ext db r.2.name +
          linksSize db r.2.name + (codeOf db m.2).length * setcodeRamBytesMultiplier +
          r.2.abi.length ↔
        (r.2.name = systemAccountName → abi = []) ∧ r.2.name ≠ producersAccountName)) ∧
    (∀ hash, (∃ c ∈ db.codes.rows, c.2.codeHash = hash) ↔
      hash ≠ 0 ∧ ∃ m ∈ db.metadata.rows, m.2.codeHash = hash) ∧
    ∀ c ∈ db.codes.rows, c.2.codeRefCount.toNat =
      (db.metadata.rows.filter fun m => m.2.codeHash = c.2.codeHash).length := by
  have htree := (initializeDatabase_tree hgenesis).1
  obtain ⟨hcounted, hledger⟩ := hrun.ledger hfree htree
    (initializeDatabase_counted hfree hgenesis) (initializeDatabase_ledger hfree hgenesis)
  refine ⟨fun r hr => ?_, fun hash => ⟨?_, ?_⟩, fun c hc => ?_⟩
  · have hkey : r.2.name ∈ db.accounts.keys := mem_keys.mpr ⟨r.1, r.2, hr, rfl⟩
    have hname : (0 : AccountName) ≠ r.2.name :=
      ((hrun.permissionTree htree).hierarchy.named _ hkey).symm
    rw [← hcounted.names] at hkey
    obtain ⟨id, m, hm, heq⟩ := mem_keys.mp hkey
    refine ⟨(id, m), hm, heq, ?_⟩
    have hcode : codeSize ext db r.2.name codes = _ := heq ▸ codeSize_eq hm
    have hbalance := hledger r.2.name
    beta_reduce at hbalance
    rw [if_neg hname, zero_add, billable, accountSize_eq hr, hcode,
      ← hcounted.codeOf_length hfree hm] at hbalance
    rw [← genesisUncharged_eq_zero ext]
    constructor
    · intro hcharged
      linarith
    · intro hzero
      linarith
  · rintro ⟨c, hc, rfl⟩
    refine ⟨hcounted.counted.hash_ne_zero hfree hc, ?_⟩
    have hpos := (hcounted.counted.counted c hc).2
    rw [users_eq_length] at hpos
    obtain ⟨m, hm⟩ := exists_mem_of_length_pos (by exact_mod_cast hpos)
    obtain ⟨hm, hhash⟩ := mem_filter.mp hm
    exact ⟨m, hm, by simpa using hhash⟩
  · rintro ⟨hne, m, hm, rfl⟩
    exact hcounted.exists_code hm hne
  · have hcount := (hcounted.counted.counted c hc).1
    rw [users_eq_length] at hcount
    exact_mod_cast hcount

def sampleGenesis : Except Failure (NativeDb ℕ) :=
  initializeDatabase sampleExternals sampleContext 0 0 [0, 0]

def sampleCodes : List (DeclaredAction ℕ) :=
  let active := fun name : AccountName => [(⟨name, activeName⟩ : PermissionLevel)]
  [⟨active systemAccountName,
      .newaccount ⟨systemAccountName, alice, sampleKey 1, sampleKey 2⟩⟩,
    ⟨active alice, .setcode ⟨alice, 0, 0, [1]⟩⟩,
    ⟨active gasAccountName, .setcode ⟨gasAccountName, 0, 0, [1]⟩⟩,
    ⟨active alice, .setcode ⟨alice, 0, 0, [1, 2]⟩⟩,
    ⟨active alice, .setabi ⟨alice, [0]⟩⟩]

theorem sampleExternals_free : CollisionFree sampleExternals {[1], [1, 2]} := by
  rintro code hcode code' hcode'
  rcases hcode with rfl | rfl | rfl <;> rcases hcode' with rfl | rfl | rfl <;> decide +kernel

theorem native_ram_ledger_codes : ∃ start db, sampleGenesis = .ok start ∧
    start.applyActions sampleExternals sampleContext sampleCodes = .ok db ∧
    (∀ r ∈ db.accounts.rows, ∃ m ∈ db.metadata.rows, m.2.name = r.2.name ∧
      (db.ramDeltas r.2.name = overheadPerAccountRamBytes +
          permissionsSize sampleExternals db r.2.name + linksSize db r.2.name +
          (codeOf db m.2).length * setcodeRamBytesMultiplier + r.2.abi.length ↔
        r.2.name ≠ systemAccountName ∧ r.2.name ≠ producersAccountName)) ∧
    (∀ hash, (∃ c ∈ db.codes.rows, c.2.codeHash = hash) ↔
      hash ≠ 0 ∧ ∃ m ∈ db.metadata.rows, m.2.codeHash = hash) ∧
    ∀ c ∈ db.codes.rows, c.2.codeRefCount.toNat =
      (db.metadata.rows.filter fun m => m.2.codeHash = c.2.codeHash).length := by
  have hok : (sampleGenesis.bind fun start =>
      start.applyActions sampleExternals sampleContext sampleCodes).isOk = true := by
    decide +kernel
  obtain ⟨db, hdb⟩ := isOk_iff.mp hok
  obtain ⟨start, hstart, hok⟩ := bind_eq_ok.mp hdb
  have hrun : Runs sampleExternals (SetsCodeIn {[1], [1, 2]}) start db :=
    Runs.refl.applyActions hok (by simp [sampleCodes, SetsCodeIn])
  obtain ⟨hledger, hcodes⟩ := native_ram_ledger sampleExternals_free hstart hrun
  refine ⟨start, db, hstart, hok, fun r hr => ?_, hcodes⟩
  -- the ABI of the system account is not empty in this genesis
  simpa using hledger r hr

/-- On a new chain less is charged to the system account and to the producers. -/
theorem genesis_undercharged : ∃ db, sampleGenesis = .ok db ∧
    (0, ⟨systemAccountName, 0, [0, 0]⟩) ∈ db.accounts.rows ∧
    db.ramDeltas systemAccountName < overheadPerAccountRamBytes +
      permissionsSize sampleExternals db systemAccountName + linksSize db systemAccountName + 2 ∧
    (2, ⟨producersAccountName, 0, []⟩) ∈ db.accounts.rows ∧
    db.ramDeltas producersAccountName < overheadPerAccountRamBytes +
      permissionsSize sampleExternals db producersAccountName +
      linksSize db producersAccountName := by
  have hok : sampleGenesis.map (fun db => decide (
      (0, ⟨systemAccountName, 0, [0, 0]⟩) ∈ db.accounts.rows ∧
      db.ramDeltas systemAccountName < overheadPerAccountRamBytes +
        permissionsSize sampleExternals db systemAccountName +
        linksSize db systemAccountName + 2 ∧
      (2, ⟨producersAccountName, 0, []⟩) ∈ db.accounts.rows ∧
      db.ramDeltas producersAccountName < overheadPerAccountRamBytes +
        permissionsSize sampleExternals db producersAccountName +
        linksSize db producersAccountName)) = .ok true := by
    decide +kernel
  obtain ⟨db, hdb, hdecide⟩ := map_eq_ok.mp hok
  exact ⟨db, hdb, of_decide_eq_true hdecide⟩

end Invariant
end NativeDb
end FlonCore
