import FlonCore.PermissionAncestry

/-!
# Permissions in a snapshot

In a snapshot the parent of a permission is given by its name. Rows are written in the
order of the ids and get new ids when they are read, one after the other.
-/

namespace FlonCore
open Library List
open Table

structure SnapshotPermissionObject (Key : Type) where
  parent : PermissionName
  owner : AccountName
  name : PermissionName
  lastUpdated : ℤ
  auth : Authority Key
deriving DecidableEq, Repr

abbrev PermissionTable (Key : Type) := Table (@PermissionObject.level Key)

namespace PermissionTable
variable {Key : Type} (t : PermissionTable Key)

def toSnapshotRow (p : PermissionObject Key) : Except Failure (SnapshotPermissionObject Key) := do
  let parent ← getRow (t.get p.parent)
  return ⟨parent.name, p.owner, p.name, p.lastUpdated, p.auth⟩

def addToSnapshot : Except Failure (List (SnapshotPermissionObject Key)) :=
  t.rows.mapM fun r => toSnapshotRow t r.2

def checkReserved (row : SnapshotPermissionObject Key) : Except Failure Unit := do
  eosAssert (row.parent == 0) .snapshotException "Unexpected parent name on reserved permission 0"
  eosAssert (row.name == 0) .snapshotException "Unexpected permission name on reserved permission 0"
  eosAssert (row.owner == 0) .snapshotException "Unexpected owner name on reserved permission 0"
  eosAssert row.auth.accounts.isEmpty .snapshotException
    "Unexpected auth accounts on reserved permission 0"
  eosAssert row.auth.keys.isEmpty .snapshotException "Unexpected auth keys on reserved permission 0"
  eosAssert row.auth.waits.isEmpty .snapshotException
    "Unexpected auth waits on reserved permission 0"
  eosAssert (row.auth.threshold == 0) .snapshotException
    "Unexpected auth threshold on reserved permission 0"
  eosAssert (row.lastUpdated == 0) .snapshotException
    "Unexpected auth last updated on reserved permission 0"

def snapshotParent (row : SnapshotPermissionObject Key) : Except Failure ℕ := do
  if t.nextId = 0 then
    checkReserved row
    return 0
  else if row.parent = 0 then return 0
  else
    let parent ← getRow (t.find ⟨row.owner, row.parent⟩)
    eosAssert (parent.1 != 0) .snapshotException "Unexpected mapping to reserved permission 0"
    return parent.1

/-- The loop over the rows; `t` has the permissions that were read before. -/
def readFromSnapshot (t : PermissionTable Key) :
    List (SnapshotPermissionObject Key) → Except Failure (PermissionTable Key)
  | [] => .ok t
  | row :: rest => do
    let parent ← snapshotParent t row
    let t ← NativeDb.createRow t ⟨parent, row.owner, row.name, row.lastUpdated, row.auth⟩
    readFromSnapshot t rest

end PermissionTable

namespace NativeDb
open PermissionTable
variable {Key : Type} {db : NativeDb Key}

def snapshotRow (db : NativeDb Key) (p : PermissionObject Key) : SnapshotPermissionObject Key :=
  ⟨((db.permissions.get p.parent).map PermissionObject.name).getD 0, p.owner, p.name,
    p.lastUpdated, p.auth⟩

structure Copied (pairs : List ((ℕ × PermissionObject Key) × (ℕ × PermissionObject Key)))
    (e : (ℕ × PermissionObject Key) × (ℕ × PermissionObject Key)) : Prop where
  same : e.2.2 = { e.1.2 with parent := e.2.2.parent }
  parent : ∃ f ∈ pairs, f.1.1 = e.1.2.parent ∧ f.2.1 = e.2.2.parent
  reserved : e.1.1 = 0 ↔ e.2.1 = 0

structure Copies (done : List (ℕ × PermissionObject Key)) (t : PermissionTable Key)
    (pairs : List ((ℕ × PermissionObject Key) × (ℕ × PermissionObject Key))) : Prop where
  originals : pairs.map Prod.fst = done
  copies : pairs.map Prod.snd = t.rows
  copied : ∀ e ∈ pairs, Copied pairs e
  nextId : t.nextId = done.length

variable {done : List (ℕ × PermissionObject Key)} {t : PermissionTable Key}
  {pairs : List ((ℕ × PermissionObject Key) × (ℕ × PermissionObject Key))} {id : ℕ}
  {p : PermissionObject Key} {e : (ℕ × PermissionObject Key) × (ℕ × PermissionObject Key)}

theorem Copied.level (h : Copied pairs e) : e.2.2.level = e.1.2.level := by
  rw [h.same]
  rfl

theorem Copies.keys (h : Copies done t pairs) : t.keys = done.map fun r => r.2.level := by
  rw [Table.keys, ← h.copies, ← h.originals, map_map, map_map]
  exact map_congr_left fun e he => (h.copied e he).level

theorem Copied.mono {pairs' : List ((ℕ × PermissionObject Key) × (ℕ × PermissionObject Key))}
    (h : Copied pairs e) (hsub : pairs ⊆ pairs') : Copied pairs' e := by
  obtain ⟨f, hf, hparent⟩ := h.parent
  exact ⟨h.same, ⟨f, hsub hf, hparent⟩, h.reserved⟩

theorem Copies.next (h : Copies done t pairs) (hnew : p.level ∉ t.keys) {parent : ℕ}
    (hreserved : id = 0 ↔ done = [])
    (hparent : ∃ f ∈ pairs ++ [((id, p), (t.nextId, { p with parent }))],
      f.1.1 = p.parent ∧ f.2.1 = parent) :
    ∃ t', createRow t { p with parent } = .ok t' ∧
      Copies (done ++ [(id, p)]) t' (pairs ++ [((id, p), (t.nextId, { p with parent }))]) := by
  obtain ⟨t', ht'⟩ := exists_create (a := { p with parent }) hnew
  have hcreated := create_eq_some ht'
  refine ⟨t', by rw [createRow, ht'], ?_, ?_, ?_, ?_⟩
  · rw [map_append, h.originals]
    rfl
  · rw [map_append, h.copies, hcreated.rows]
    rfl
  · intro e he
    rcases mem_append.mp he with he | he
    · exact (h.copied e he).mono (subset_append_left _ _)
    · obtain rfl := mem_singleton.mp he
      refine ⟨rfl, hparent, hreserved.trans ?_⟩
      rw [h.nextId, length_eq_zero_iff]
  · rw [hcreated.nextId, h.nextId, length_append]
    rfl

section RoundTrip
variable {rest : List (ℕ × PermissionObject Key)} {q : PermissionObject Key}

theorem snapshotRow_parent (hq : (p.parent, q) ∈ db.permissions.rows) :
    (db.snapshotRow p).parent = q.name := by
  rw [snapshotRow, get_eq_some.mpr hq]
  rfl

theorem Copies.toSnapshotRow (h : Copies db.permissions.rows t pairs)
    (he : e ∈ pairs) : toSnapshotRow t e.2.2 = .ok (db.snapshotRow e.1.2) := by
  obtain ⟨f, hf, hold, hnew⟩ := (h.copied e he).parent
  have hcopy : (e.2.2.parent, f.2.2) ∈ t.rows := by
    rw [← hnew, ← h.copies]
    exact mem_map_of_mem hf
  have horiginal : (e.1.2.parent, f.1.2) ∈ db.permissions.rows := by
    rw [← hold, ← h.originals]
    exact mem_map_of_mem hf
  rw [PermissionTable.toSnapshotRow, get_eq_some.mpr hcopy, snapshotRow,
    get_eq_some.mpr horiginal, (h.copied e he).same, (h.copied f hf).same]
  rfl

theorem Copies.addToSnapshot (h : Copies db.permissions.rows t pairs) :
    addToSnapshot t = .ok (db.permissions.rows.map fun r => db.snapshotRow r.2) := by
  rw [PermissionTable.addToSnapshot, ← h.copies, mapM_map, ← h.originals, map_map]
  exact mapM_eq_ok fun e he => h.toSnapshotRow he

variable (htree : db.PermissionTree)
include htree

theorem PermissionTree.name_ne_zero (hp : (id, p) ∈ db.permissions.rows) (hid : id ≠ 0) :
    p.name ≠ 0 :=
  (htree.hierarchy.placed id (shape p) (mem_shapes.mpr ⟨p, hp, rfl⟩) hid).named

theorem PermissionTree.addToSnapshot : addToSnapshot db.permissions =
    .ok (db.permissions.rows.map fun r => db.snapshotRow r.2) := by
  refine mapM_eq_ok fun r hr => ?_
  obtain ⟨q, hq⟩ := htree.exists_parent hr
  rw [PermissionTable.toSnapshotRow, get_eq_some.mpr hq, snapshotRow, get_eq_some.mpr hq]
  rfl

theorem PermissionTree.reserved_first (hrows : db.permissions.rows = done ++ (id, p) :: rest) :
    id = 0 ↔ done = [] := by
  constructor
  · rintro rfl
    have hascending := db.permissions.ascending
    rw [hrows] at hascending
    refine eq_nil_iff_forall_not_mem.mpr fun r hr => ?_
    have hlt := (pairwise_append.mp hascending).2.2 r hr (0, p) mem_cons_self
    exact Nat.not_lt_zero _ hlt
  · rintro rfl
    by_contra hid
    simpa using mem_before hrows htree.reserved (Nat.pos_of_ne_zero hid)

theorem PermissionTree.snapshotParent (hrows : db.permissions.rows = done ++ (id, p) :: rest)
    (h : Copies done t pairs) : ∃ parent, snapshotParent t (db.snapshotRow p) = .ok parent ∧
      ∃ f ∈ pairs ++ [((id, p), (t.nextId, { p with parent }))],
        f.1.1 = p.parent ∧ f.2.1 = parent := by
  have hp : (id, p) ∈ db.permissions.rows := by
    rw [hrows]
    exact mem_append_right _ mem_cons_self
  obtain ⟨q, hq⟩ := htree.exists_parent hp
  have hfirst := htree.reserved_first hrows
  have hnext : t.nextId = 0 ↔ id = 0 := by rw [h.nextId, length_eq_zero_iff, hfirst]
  have hfound : p.parent < id → ∃ f ∈ pairs, f.1 = (p.parent, q) := by
    intro hlt
    have hmem := mem_before hrows hq hlt
    rw [← h.originals] at hmem
    exact mem_map.mp hmem
  unfold PermissionTable.snapshotParent
  rw [snapshotRow_parent hq]
  by_cases hid : id = 0
  -- the reserved permission is its own parent
  · subst hid
    obtain rfl := eq_of_id hp htree.reserved
    obtain rfl := eq_of_id hq htree.reserved
    refine ⟨0, ?_, _, mem_append_right _ (mem_singleton_self _), rfl, hnext.mpr rfl⟩
    rw [if_pos (hnext.mpr rfl), snapshotRow, get_eq_some.mpr hq]
    rfl
  · rw [if_neg (mt hnext.mp hid)]
    by_cases hparent : p.parent = 0
    · obtain ⟨f, hf, hfirst⟩ := hfound (hparent ▸ Nat.pos_of_ne_zero hid)
      have hzero : f.1.1 = 0 := by rw [hfirst, hparent]
      rw [hparent] at hq
      obtain rfl := eq_of_id hq htree.reserved
      refine ⟨0, if_pos rfl, f, mem_append_left _ hf, hzero.trans hparent.symm, ?_⟩
      exact (h.copied f hf).reserved.mp hzero
    · obtain ⟨hlt, q', hq', howner⟩ := htree.parent hp hparent
      obtain rfl := eq_of_id hq hq'
      obtain ⟨f, hf, hfirst⟩ := hfound hlt
      have hcopied := h.copied f hf
      have hid' : f.2.1 ≠ 0 := fun hzero => hparent (by
        have := hcopied.reserved.mpr hzero
        rwa [hfirst] at this)
      have hlevel : f.2.2.level = ⟨p.owner, q.name⟩ := by
        rw [hcopied.level, hfirst, ← howner]
        rfl
      have hmem : f.2 ∈ t.rows := by
        rw [← h.copies]
        exact mem_map_of_mem hf
      have hfind : t.find ⟨p.owner, q.name⟩ = some f.2 := find_eq_some.mpr ⟨hmem, hlevel⟩
      refine ⟨f.2.1, ?_, f, mem_append_left _ hf, by rw [hfirst], rfl⟩
      rw [if_neg (htree.name_ne_zero hq hparent), snapshotRow, hfind]
      simp [getRow, eosAssert, hid', bind, Except.bind]
      rfl

theorem PermissionTree.readFromSnapshot (hrows : db.permissions.rows = done ++ rest)
    (h : Copies done t pairs) :
    ∃ t' pairs', readFromSnapshot t (rest.map fun r => db.snapshotRow r.2) = .ok t' ∧
      Copies db.permissions.rows t' pairs' := by
  induction rest generalizing done t pairs with
  | nil =>
    rw [hrows, append_nil]
    exact ⟨t, pairs, rfl, h⟩
  | cons r rest ih =>
    obtain ⟨id, p⟩ := r
    obtain ⟨parent, hparent, hfound⟩ := htree.snapshotParent hrows h
    have hnew : p.level ∉ t.keys := by
      have hunique := db.permissions.unique
      rw [hrows, map_append, map_cons] at hunique
      rw [h.keys]
      exact fun hmem => (disjoint_of_nodup_append hunique) hmem mem_cons_self
    obtain ⟨t', hcreate, hcopies⟩ := h.next hnew (htree.reserved_first hrows) hfound
    obtain ⟨t'', pairs', hread, hall⟩ := ih (by rw [hrows, append_assoc]; rfl) hcopies
    refine ⟨t'', pairs', ?_, hall⟩
    refine bind_eq_ok.mpr ⟨parent, hparent, bind_eq_ok.mpr ⟨t', hcreate, hread⟩⟩

theorem PermissionTree.snapshot : ∃ rows t,
    PermissionTable.addToSnapshot db.permissions = .ok rows ∧
    PermissionTable.readFromSnapshot (.empty _) rows = .ok t ∧
    PermissionTable.addToSnapshot t = .ok rows := by
  have hempty : Copies [] (.empty _ : PermissionTable Key) [] := ⟨rfl, rfl, by simp, rfl⟩
  obtain ⟨t, pairs, hread, hcopies⟩ := htree.readFromSnapshot (nil_append _).symm hempty
  exact ⟨_, t, htree.addToSnapshot, hread, hcopies.addToSnapshot⟩

end RoundTrip

section Invariant
variable [LinearOrder Key] {ext : Externals Key}

/-- The permissions of every account form a tree below its owner permission, whatever
permissions and links are created and deleted. -/
theorem Reachable.permission_invariant (h : Reachable ext OnlyLinkToExisting db) :
    (∀ a ∈ db.accounts.keys, ∃ owner active,
      (∀ r, r ∈ db.permissions.rows ∧ r.2.level = ⟨a, ownerName⟩ ↔ r = owner) ∧
      owner.2.parent = 0 ∧
      (∀ r, r ∈ db.permissions.rows ∧ r.2.level = ⟨a, activeName⟩ ↔ r = active) ∧
      active.2.parent = owner.1) ∧
    (∀ id p, (id, p) ∈ db.permissions.rows → id ≠ 0 → p.owner ∈ db.accounts.keys ∧
      (p.name = ownerName ∨ (p.parent ≠ 0 ∧ p.parent < id ∧
        ∃ q, (p.parent, q) ∈ db.permissions.rows ∧ q.owner = p.owner))) ∧
    (∃ rows t, PermissionTable.addToSnapshot db.permissions = .ok rows ∧
      PermissionTable.readFromSnapshot (.empty _) rows = .ok t ∧
      PermissionTable.addToSnapshot t = .ok rows) ∧
    (∀ l ∈ db.links.rows, l.2.requiredPermission = eosioAnyName ∨
      ⟨l.2.account, l.2.requiredPermission⟩ ∈ db.permissions.keys) ∧
    (∀ r ∈ db.permissions.rows, ∀ s ∈ db.permissions.rows, ∃ b,
      (∀ n ≥ db.permissions.nextId, satisfies db.permissions n r s = some b) ∧
      (b = true ↔ r.2.owner = s.2.owner ∧ db.Above r.1 s.1)) := by
  have htree := h.permissionTree
  refine ⟨fun a ha => ?_, fun id p hp hid => ?_, htree.snapshot, h.linksExist, fun r hr s hs => ?_⟩
  · obtain ⟨i, hi, j, hj⟩ := htree.hierarchy.complete a ha
    obtain ⟨p, hp, hshape⟩ := mem_shapes.mp hi
    obtain ⟨q, hq, hshape'⟩ := mem_shapes.mp hj
    have hlevel := level_of_shape hshape
    have hlevel' := level_of_shape hshape'
    exact ⟨(i, p), (j, q), mem_key_iff hp hlevel, congrArg PermissionShape.parent hshape,
      mem_key_iff hq hlevel', congrArg PermissionShape.parent hshape'⟩
  · have hplaced := htree.hierarchy.placed id (shape p) (mem_shapes.mpr ⟨p, hp, rfl⟩) hid
    refine ⟨hplaced.account, hplaced.parent.imp And.left ?_⟩
    rintro ⟨-, hne, -⟩
    exact ⟨hne, htree.parent hp hne⟩
  · obtain ⟨b, -, hiff⟩ := htree.satisfies le_rfl hr hs
    refine ⟨b, fun n hn => ?_, hiff⟩
    obtain ⟨c, hc, hiff'⟩ := htree.satisfies hn hr hs
    rw [hc, Bool.eq_iff_iff.mpr (hiff'.trans hiff.symm)]

def sampleChanges : List (DeclaredAction ℕ) :=
  let active : List PermissionLevel := [⟨alice, activeName⟩]
  let vote := stringToName "vote"
  [⟨active, .updateauth ⟨alice, vote, activeName, sampleKey 3⟩⟩,
    ⟨active, .updateauth ⟨alice, stringToName "sub", vote, sampleKey 4⟩⟩,
    ⟨active, .linkauth ⟨alice, systemAccountName, 0, stringToName "sub"⟩⟩,
    ⟨active, .linkauth ⟨alice, systemAccountName, 0, vote⟩⟩,
    ⟨active, .deleteauth ⟨alice, stringToName "sub"⟩⟩,
    ⟨active, .updateauth ⟨alice, stringToName "sub", activeName, sampleKey 4⟩⟩]

theorem permission_invariant_changes : ∃ start db, sampleStart = .ok start ∧
    start.applyActions sampleExternals sampleContext sampleChanges = .ok db ∧
    (∀ a ∈ db.accounts.keys, ∃ owner active,
      (∀ r, r ∈ db.permissions.rows ∧ r.2.level = ⟨a, ownerName⟩ ↔ r = owner) ∧
      owner.2.parent = 0 ∧
      (∀ r, r ∈ db.permissions.rows ∧ r.2.level = ⟨a, activeName⟩ ↔ r = active) ∧
      active.2.parent = owner.1) ∧
    (∀ id p, (id, p) ∈ db.permissions.rows → id ≠ 0 → p.owner ∈ db.accounts.keys ∧
      (p.name = ownerName ∨ (p.parent ≠ 0 ∧ p.parent < id ∧
        ∃ q, (p.parent, q) ∈ db.permissions.rows ∧ q.owner = p.owner))) ∧
    (∃ rows t, PermissionTable.addToSnapshot db.permissions = .ok rows ∧
      PermissionTable.readFromSnapshot (.empty _) rows = .ok t ∧
      PermissionTable.addToSnapshot t = .ok rows) ∧
    (∀ l ∈ db.links.rows, l.2.requiredPermission = eosioAnyName ∨
      ⟨l.2.account, l.2.requiredPermission⟩ ∈ db.permissions.keys) ∧
    (∀ r ∈ db.permissions.rows, ∀ s ∈ db.permissions.rows, ∃ b,
      (∀ n ≥ db.permissions.nextId, satisfies db.permissions n r s = some b) ∧
      (b = true ↔ r.2.owner = s.2.owner ∧ db.Above r.1 s.1)) := by
  have hok : (sampleStart.bind fun start =>
      start.applyActions sampleExternals sampleContext sampleChanges).isOk = true := by
    decide +kernel
  obtain ⟨db, hdb⟩ := isOk_iff.mp hok
  obtain ⟨start, hstart, hok⟩ := bind_eq_ok.mp hdb
  have hreachable := (sampleStart_reachable hstart).applyActions hok fun _ _ => rfl
  exact ⟨start, db, hstart, hok, Reachable.permission_invariant hreachable⟩

end Invariant
end NativeDb
end FlonCore
