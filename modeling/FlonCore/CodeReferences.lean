import Mathlib.Data.Set.Function
import FlonCore.PermissionTree

/-!
# References to code

Accounts that run the same code share one object, which counts them and is removed with
the last one. The objects are found by the hash of the code, where zero stands for no code;
this is meant for codes among which there are no collisions.
-/

namespace FlonCore
open Library List
open CodeObject Table

namespace NativeDb
variable {Key : Type} {ext : Externals Key} {context : ApplyContext Key}
  {db db' : NativeDb Key} {codes : Set (List UInt8)}

variable (ext codes)

def CollisionFree : Prop := Set.InjOn (codeHashOf ext) (insert [] codes)

noncomputable def hashSize (hash : Digest) : ℤ :=
  (Function.invFunOn (codeHashOf ext) (insert [] codes) hash).length

variable {ext codes} {code : List UInt8}

section
variable (h : CollisionFree ext codes)
include h

theorem CollisionFree.hashSize_eq (hcode : code ∈ insert [] codes) :
    hashSize ext codes (codeHashOf ext code) = code.length := by
  rw [hashSize, h.leftInvOn_invFunOn hcode]

theorem CollisionFree.hashSize_zero : hashSize ext codes 0 = 0 :=
  h.hashSize_eq (Set.mem_insert [] codes)

theorem CollisionFree.hash_ne_zero (hcode : code ∈ codes) (hne : code ≠ []) :
    codeHashOf ext code ≠ 0 := by
  intro hzero
  refine hne (h (Set.mem_insert_of_mem _ hcode) (Set.mem_insert [] codes) ?_)
  rw [hzero]
  rfl

end

/-- The stored codes, where `n` gives the number of accounts that run the code with a hash. -/
structure Counted (ext : Externals Key) (codes : Set (List UInt8))
    (table : Table hashKey) (n : Digest → ℤ) : Prop where
  version : ∀ c ∈ table.rows, c.2.hashKey = (c.2.codeHash, 0, 0)
  stored : ∀ c ∈ table.rows, c.2.code ≠ [] ∧ c.2.code ∈ codes ∧
    c.2.codeHash = codeHashOf ext c.2.code
  counted : ∀ c ∈ table.rows, (c.2.codeRefCount.toNat : ℤ) = n c.2.codeHash ∧ 0 < n c.2.codeHash
  present : ∀ hash ≠ 0, 0 < n hash → ∃ c ∈ table.rows, c.2.codeHash = hash

variable {table table' : Table hashKey} {n : Digest → ℤ} {id j : ℕ}
  {c d : CodeObject}

section
variable (h : Counted ext codes table n)
include h

theorem Counted.eq_of_hash (hc : (id, c) ∈ table.rows) (hd : (j, d) ∈ table.rows)
    (heq : c.codeHash = d.codeHash) : id = j ∧ c = d := by
  refine eq_of_key hc hd ?_
  rw [h.version _ hc, h.version _ hd]
  rw [heq]

theorem Counted.remove (hc : (id, c) ∈ table.rows) (hcount : c.codeRefCount = 1) :
    Counted ext codes (table.remove id)
      fun hash => n hash - if c.codeHash = hash then 1 else 0 := by
  have hone : n c.codeHash = 1 := by
    rw [← (h.counted _ hc).1, hcount]
    rfl
  have hother : ∀ r ∈ (table.remove id).rows, c.codeHash ≠ r.2.codeHash := by
    intro r hr heq
    obtain ⟨hr, hne⟩ := mem_remove.mp hr
    exact hne (h.eq_of_hash hc hr heq).1.symm
  refine ⟨fun r hr => h.version r (mem_remove.mp hr).1,
    fun r hr => h.stored r (mem_remove.mp hr).1, fun r hr => ?_, fun hash hne hpos => ?_⟩
  · rw [if_neg (hother r hr), sub_zero]
    exact h.counted r (mem_remove.mp hr).1
  · have hhash : c.codeHash ≠ hash := by
      rintro rfl
      simp [hone] at hpos
    rw [if_neg hhash, sub_zero] at hpos
    obtain ⟨r, hr, heq⟩ := h.present hash hne hpos
    refine ⟨r, mem_remove.mpr ⟨hr, ?_⟩, heq⟩
    rintro rfl
    rw [eq_of_id hr hc] at heq
    exact hhash heq

theorem Counted.modify {n' : Digest → ℤ} {f : CodeObject → CodeObject} (hc : (id, c) ∈ table.rows)
    (hf : ∀ d, (f d).hashKey = d.hashKey) (hcode : ∀ d, (f d).code = d.code)
    (hother : ∀ hash ≠ c.codeHash, n' hash = n hash)
    (hcount : ((f c).codeRefCount.toNat : ℤ) = n' c.codeHash ∧ 0 < n' c.codeHash) :
    Counted ext codes (table.modify id f hf) n' := by
  have hhash : ∀ d, (f d).codeHash = d.codeHash := fun d => congrArg Prod.fst (hf d)
  -- a row is either an old one with another hash or the changed one
  have hrow : ∀ r ∈ (table.modify id f hf).rows,
      (r ∈ table.rows ∧ r.2.codeHash ≠ c.codeHash) ∨ r.2 = f c := by
    rintro ⟨j, d⟩ hd
    rcases mem_modify.mp hd with ⟨hj, hd⟩ | ⟨-, e, he, rfl⟩
    · exact .inl ⟨hd, fun heq => hj (h.eq_of_hash hd hc heq).1⟩
    · rw [eq_of_id he hc]
      exact .inr rfl
  refine ⟨fun r hr => ?_, fun r hr => ?_, fun r hr => ?_, fun hash hne hpos => ?_⟩
  · rcases hrow r hr with ⟨hold, -⟩ | heq
    · exact h.version r hold
    · rw [heq, hf, hhash]
      exact h.version _ hc
  · rcases hrow r hr with ⟨hold, -⟩ | heq
    · exact h.stored r hold
    · rw [heq, hcode, hhash]
      exact h.stored _ hc
  · rcases hrow r hr with ⟨hold, hne⟩ | heq
    · rw [hother _ hne]
      exact h.counted r hold
    · rw [heq, hhash]
      exact hcount
  · by_cases heq : hash = c.codeHash
    · exact ⟨(id, f c), mem_modify.mpr (.inr ⟨rfl, c, hc, rfl⟩), (hhash c).trans heq.symm⟩
    · rw [hother _ heq] at hpos
      obtain ⟨⟨j, d⟩, hd, hhash'⟩ := h.present hash hne hpos
      refine ⟨(j, d), mem_modify.mpr (.inl ⟨?_, hd⟩), hhash'⟩
      rintro rfl
      exact heq (hhash'.symm.trans (congrArg codeHash (eq_of_id hd hc)))

variable (hfree : CollisionFree ext codes)
include hfree

theorem Counted.hash_ne_zero (hc : (id, c) ∈ table.rows) : c.codeHash ≠ 0 := by
  obtain ⟨hne, hmem, hhash⟩ := h.stored _ hc
  rw [hhash]
  exact hfree.hash_ne_zero hmem hne

theorem Counted.size_eq (hc : (id, c) ∈ table.rows) :
    (c.code.length : ℤ) = hashSize ext codes c.codeHash := by
  obtain ⟨-, hmem, hhash⟩ := h.stored _ hc
  rw [hhash, hfree.hashSize_eq (Set.mem_insert_of_mem _ hmem)]

theorem Counted.congr {n' : Digest → ℤ} (hn : ∀ hash ≠ 0, n' hash = n hash) :
    Counted ext codes table n' := by
  refine ⟨h.version, h.stored, fun r hr => ?_, fun hash hne hpos => ?_⟩
  · rw [hn _ (h.hash_ne_zero hfree hr)]
    exact h.counted r hr
  · exact h.present hash hne (hn hash hne ▸ hpos)

variable {account : AccountMetadataObject} {act : SetCode} {codeHash : Digest} {size : ℤ}

theorem Counted.release
    (hrelease : CodeReleased table account codeHash size table') :
    Counted ext codes table' (fun hash => n hash - if account.codeHash = hash then 1 else 0) ∧
      size = hashSize ext codes account.codeHash * setcodeRamBytesMultiplier := by
  have hhash : ∀ {c : CodeObject}, c.hashKey = (account.codeHash, account.vmType, account.vmVersion)
      → c.codeHash = account.codeHash := fun hkey => congrArg Prod.fst hkey
  cases hrelease with
  | none hzero =>
    refine ⟨h.congr hfree fun hash hne => ?_, ?_⟩
    · rw [hzero, if_neg hne.symm, sub_zero]
    · rw [hzero, hfree.hashSize_zero, zero_mul]
  | @last id c hcode hmem hkey hne hcount =>
    rw [← hhash hkey]
    exact ⟨h.remove hmem hcount, by rw [h.size_eq hfree hmem]⟩
  | @shared id c hcode hmem hkey hne hcount =>
    rw [← hhash hkey]
    obtain ⟨hn, hpos⟩ := h.counted _ hmem
    dsimp only at hn hpos
    have hne : c.codeRefCount.toNat ≠ 1 := fun heq => hcount (UInt64.toNat_inj.mp heq)
    have hle : (1 : UInt64) ≤ c.codeRefCount := UInt64.le_iff_toNat_le.mpr (by
      change 1 ≤ c.codeRefCount.toNat
      omega)
    have hcount' : c.released.codeRefCount.toNat = c.codeRefCount.toNat - 1 :=
      UInt64.toNat_sub_of_le _ _ hle
    refine ⟨h.modify hmem released_hashKey (fun _ => rfl) (fun hash hne => ?_) ?_,
      by rw [h.size_eq hfree hmem]⟩
    · rw [if_neg hne.symm, sub_zero]
    · rw [if_pos rfl, hcount']
      omega

theorem Counted.acquire
    (hacquire : CodeAcquired table act (codeHashOf ext act.code) table')
    (hversion : act.vmType = 0 ∧ act.vmVersion = 0) (hcodes : act.code ∈ codes)
    (hnonneg : 0 ≤ n (codeHashOf ext act.code))
    (hbound : n (codeHashOf ext act.code) + 1 < 2 ^ 64) : Counted ext codes table' fun hash =>
      n hash + if codeHashOf ext act.code = hash then 1 else 0 := by
  cases hacquire with
  | none hempty =>
    refine h.congr hfree fun hash hne => ?_
    have hzero : codeHashOf ext act.code = 0 := if_pos hempty
    rw [hzero, if_neg hne.symm, add_zero]
  | @shared id c hcode hmem hkey =>
    have hhash : c.codeHash = codeHashOf ext act.code := congrArg Prod.fst hkey
    obtain ⟨hn, hpos⟩ := h.counted _ hmem
    dsimp only at hn hpos
    rw [← hhash] at hbound ⊢
    have hcount : c.acquired.codeRefCount.toNat = c.codeRefCount.toNat + 1 := by
      exact Nat.mod_eq_of_lt (by
        change c.codeRefCount.toNat + 1 < 2 ^ 64
        omega)
    refine h.modify hmem acquired_hashKey (fun _ => rfl) (fun hash hne => ?_) ?_
    · rw [if_neg hne.symm, add_zero]
    · rw [if_pos rfl, hcount]
      omega
  | @first _ block hcode hcreated =>
    have hne := hfree.hash_ne_zero hcodes hcode
    -- an account that ran the code would have stored it
    have hzero : n (codeHashOf ext act.code) = 0 := by
      refine le_antisymm (not_lt.mp fun hpos => ?_) hnonneg
      obtain ⟨⟨id, c⟩, hc, hhash⟩ := h.present _ hne hpos
      refine hcreated.fresh (mem_keys.mpr ⟨id, c, hc, ?_⟩)
      rw [h.version _ hc, hashKey, hversion.1, hversion.2]
      rw [hhash]
    have hrow : ∀ r ∈ table.rows, codeHashOf ext act.code ≠ r.2.codeHash := by
      intro r hr heq
      have hpos := (h.counted r hr).2
      rw [← heq, hzero] at hpos
      exact lt_irrefl _ hpos
    refine ⟨fun r hr => ?_, fun r hr => ?_, fun r hr => ?_, fun hash hne' hpos => ?_⟩
    · rcases hcreated.mem.mp hr with hold | rfl
      · exact h.version r hold
      · simp [hashKey, hversion]
    · rcases hcreated.mem.mp hr with hold | rfl
      · exact h.stored r hold
      · exact ⟨hcode, hcodes, rfl⟩
    · rcases hcreated.mem.mp hr with hold | rfl
      · rw [if_neg (hrow r hold), add_zero]
        exact h.counted r hold
      · rw [if_pos rfl, hzero]
        exact ⟨rfl, by norm_num⟩
    · by_cases heq : codeHashOf ext act.code = hash
      · exact ⟨_, hcreated.mem.mpr (.inr rfl), heq⟩
      · rw [if_neg heq, add_zero] at hpos
        obtain ⟨r, hr, hhash⟩ := h.present hash hne' hpos
        exact ⟨r, hcreated.mem.mpr (.inl hr), hhash⟩

end

def users (db : NativeDb Key) (hash : Digest) : ℤ :=
  db.metadata.total fun m => if m.codeHash = hash then 1 else 0

structure CodesCounted (ext : Externals Key) (codes : Set (List UInt8)) (db : NativeDb Key) :
    Prop where
  names : db.metadata.keys = db.accounts.keys
  versions : ∀ m ∈ db.metadata.rows, m.2.vmType = 0 ∧ m.2.vmVersion = 0
  counted : Counted ext codes db.codes db.users

def SetsCodeIn [LinearOrder Key] (codes : Set (List UInt8)) (_ : ApplyContext Key)
    (action : NativeAction Key) : Prop :=
  ∀ act, action = .setcode act → act.code ∈ codes

theorem users_eq_length (hash : Digest) : db.users hash =
    ((db.metadata.rows.filter fun m => m.2.codeHash = hash).length : ℤ) :=
  total_indicator _

theorem users_lt (hnames : db.metadata.keys = db.accounts.keys) (htree : db.PermissionTree)
    (hash : Digest) : 0 ≤ db.users hash ∧ db.users hash < 2 ^ 64 := by
  rw [users_eq_length]
  have hnodup : (0 :: db.metadata.keys).Nodup := by
    refine nodup_cons.mpr ⟨fun hmem => ?_, db.metadata.unique⟩
    rw [hnames] at hmem
    exact htree.hierarchy.named 0 hmem rfl
  have hsub : (0 :: db.metadata.keys).map UInt64.toNat ⊆ List.range (2 ^ 64) := by
    intro k hk
    obtain ⟨name, -, rfl⟩ := mem_map.mp hk
    exact mem_range.mpr name.toNat_lt
  have hinj : Function.Injective UInt64.toNat := fun a b => UInt64.toNat_inj.mp
  have hle := (subperm_of_subset (hnodup.map hinj) hsub).length_le
  rw [length_map, length_range, length_cons, Table.keys, length_map] at hle
  have hfilter := length_filter_le (fun m => decide (m.2.codeHash = hash)) db.metadata.rows
  omega

section
variable (h : CodesCounted ext codes db)
include h

theorem CodesCounted.of_same (hmetadata : db'.metadata = db.metadata)
    (haccounts : db'.accounts = db.accounts) (hcodes : db'.codes = db.codes) :
    CodesCounted ext codes db' := by
  refine ⟨?_, ?_, ?_⟩
  · rw [hmetadata, haccounts, h.names]
  · rw [hmetadata]
    exact h.versions
  · have husers : db'.users = db.users := by
      unfold users
      rw [hmetadata]
    rw [hcodes, husers]
    exact h.counted

theorem CodesCounted.setabi {act : SetAbi} (hchanged : AbiChanged db act db') :
    CodesCounted ext codes db' := by
  obtain ⟨id, hmetadata⟩ := hchanged.metadata
  obtain ⟨_, _, -, -, haccounts, -⟩ := hchanged.effect
  have hrow : ∀ m ∈ db'.metadata.rows, ∃ a ∈ db.metadata.rows, m.2.vmType = a.2.vmType ∧
      m.2.vmVersion = a.2.vmVersion := by
    intro m hm
    rw [hmetadata] at hm
    rcases mem_modify.mp hm with ⟨-, hold⟩ | ⟨-, a, ha, heq⟩
    · exact ⟨m, hold, rfl, rfl⟩
    · exact ⟨(id, a), ha, by rw [heq]; rfl, by rw [heq]; rfl⟩
  refine ⟨?_, fun m hm => ?_, ?_⟩
  · rw [hmetadata, haccounts, keys_modify, keys_modify, h.names]
  · obtain ⟨a, ha, htype, hversion⟩ := hrow m hm
    rw [htype, hversion]
    exact h.versions a ha
  · have husers : db'.users = db.users := by
      funext hash
      unfold users
      rw [hmetadata]
      exact total_modify_same fun _ => rfl
    rw [hchanged.codes, husers]
    exact h.counted

variable (hfree : CollisionFree ext codes)
include hfree

theorem CodesCounted.setcode {act : SetCode} (htree : db.PermissionTree) (hcodes : act.code ∈ codes)
    (hversion : act.vmType = 0 ∧ act.vmVersion = 0) (hchanged : CodeChanged ext db act db')
    (htree' : db'.PermissionTree) : CodesCounted ext codes db' := by
  obtain ⟨id, account, size, mid, time, hmem, -, hrelease, hacquire, hmetadata, -⟩ :=
    hchanged.effect
  have hnames : db'.metadata.keys = db'.accounts.keys := by
    rw [hmetadata, keys_modify, hchanged.accounts, h.names]
  have husers : ∀ hash, db'.users hash =
      db.users hash - (if account.codeHash = hash then 1 else 0) +
        if codeHashOf ext act.code = hash then 1 else 0 := by
    intro hash
    rw [users, hmetadata, total_modify _ hmem]
    rfl
  have hnonneg : 0 ≤ db.users (codeHashOf ext act.code) -
      if account.codeHash = codeHashOf ext act.code then 1 else 0 := by
    split_ifs with heq
    · have hpos : 0 < (db.metadata.rows.filter fun m =>
          m.2.codeHash = codeHashOf ext act.code).length :=
        length_pos_of_mem (mem_filter.mpr ⟨hmem, by simpa using heq⟩)
      rw [users_eq_length]
      omega
    · rw [sub_zero]
      exact (users_lt h.names htree _).1
  have hbound := (users_lt hnames htree' (codeHashOf ext act.code)).2
  rw [husers, if_pos rfl] at hbound
  obtain ⟨hreleased, -⟩ := h.counted.release hfree hrelease
  refine ⟨hnames, fun m hm => ?_, ?_⟩
  · rw [hmetadata] at hm
    rcases mem_modify.mp hm with ⟨-, hold⟩ | ⟨-, a, -, heq⟩
    · exact h.versions m hold
    · rw [heq]
      exact ⟨rfl, rfl⟩
  · have hacquired := hreleased.acquire hfree hacquire hversion hcodes hnonneg hbound
    exact hacquired.congr hfree fun hash _ => husers hash

theorem CodesCounted.accountAdded {account : AccountObject} {owner active : Authority Key}
    (hadded : AccountAdded ext db account owner active db') :
    CodesCounted ext codes db' := by
  obtain ⟨isPrivileged, hmetadata⟩ := hadded.metadata
  refine ⟨?_, fun m hm => ?_, ?_⟩
  · rw [hmetadata.keys, hadded.accounts.keys, h.names]
  · rcases hmetadata.mem.mp hm with hold | rfl
    · exact h.versions m hold
    · exact ⟨rfl, rfl⟩
  · rw [hadded.codes]
    refine h.counted.congr hfree fun hash hne => ?_
    rw [users, hmetadata.total, if_neg hne.symm, add_zero]
    rfl

theorem CodesCounted.applyAction [LinearOrder Key] {action : NativeAction Key}
    (htree : db.PermissionTree) (hcodes : SetsCodeIn codes context action)
    (hok : db.applyAction ext context action = .ok db') : CodesCounted ext codes db' := by
  have htree' := htree.applyAction hok
  cases action with
  | newaccount create => exact h.accountAdded hfree (applyEosioNewaccount_eq_ok hok).2
  | setcode act =>
    obtain ⟨hversion, hchanged⟩ := applyEosioSetcode_eq_ok hok
    exact h.setcode hfree htree (hcodes act rfl) hversion hchanged htree'
  | setabi act => exact h.setabi (applyEosioSetabi_eq_ok hok)
  | updateauth update =>
    obtain ⟨-, parent, -, hcases⟩ := applyEosioUpdateauth_eq_ok hok
    rcases hcases with ⟨id, p, -, -, hchanged⟩ | ⟨-, time, -, hdb'⟩
    · exact h.of_same hchanged.metadata hchanged.accounts hchanged.codes
    · exact h.of_same (by rw [hdb']; rfl) (by rw [hdb']; rfl) (by rw [hdb']; rfl)
  | deleteauth remove =>
    obtain ⟨id, p, -, hremoved⟩ := applyEosioDeleteauth_eq_ok hok
    exact h.of_same hremoved.metadata hremoved.accounts hremoved.codes
  | linkauth link =>
    obtain ⟨-, hcases⟩ := applyEosioLinkauth_eq_ok hok
    rcases hcases with ⟨_, _, _, _, _, hchanged⟩ | ⟨_, hchanged⟩
    · exact h.of_same hchanged.metadata hchanged.accounts hchanged.codes
    · exact h.of_same hchanged.metadata hchanged.accounts hchanged.codes
  | unlinkauth unlink =>
    obtain ⟨id, l, -, -, -, hchanged⟩ := applyEosioUnlinkauth_eq_ok hok
    exact h.of_same hchanged.metadata hchanged.accounts hchanged.codes

end

theorem initializeDatabase_counted [LinearOrder Key] {time : ℤ} {initialKey : Key}
    {abi : List UInt8} (hfree : CollisionFree ext codes)
    (h : initializeDatabase ext context time initialKey abi = .ok db) :
    CodesCounted ext codes db := by
  obtain ⟨db₀, db₁, db₂, db₃, db₄, db₅, active, hinit, hsystem, hnull, hprods, hgas, -,
    hmajority, hminority⟩ := initializeDatabase_eq_ok h
  have hempty : CodesCounted ext codes db₀ := by
    obtain ⟨permissions, -, hinit⟩ := bind_eq_ok.mp hinit
    cases hinit
    refine ⟨rfl, by simp [empty], ⟨by simp [empty], by simp [empty],
      by simp [empty], fun hash _ hpos => ?_⟩⟩
    exact absurd hpos (by simp [users, total, empty])
  have haccounts := (((hempty.accountAdded hfree hsystem).accountAdded hfree hnull).accountAdded
    hfree hprods).accountAdded hfree hgas
  have hmajor : CodesCounted ext codes db₅ :=
    haccounts.of_same (by rw [hmajority.2]) (by rw [hmajority.2]) (by rw [hmajority.2])
  exact hmajor.of_same (by rw [hminority.2]) (by rw [hminority.2]) (by rw [hminority.2])

end NativeDb
end FlonCore
