import FlonCore.ContractTables
import FlonCore.Library.Ledger
import FlonCore.NativeEffects

/-!
# RAM that is charged for contract tables

Stores, updates and removals charge and refund the payers of the rows, and who made a
table pays for its id object until the last row is gone. The sums balance as long as the
32-bit counters of the tables do not wrap.
-/

namespace FlonCore
open Library Finset Function
open Outcome Table
open TableIdObject

namespace ContractDb
variable {db mid db' : ContractDb} {k : RowKind} {id tableId : ℕ} {payer : AccountName}
  {delta : ℤ}

section Sizes
variable (db)

def carriers (id : ℕ) : ℤ :=
  ∑ k, (db.rows k).total fun r => if r.tId = id then 1 else 0

def rowsSize (a : AccountName) : ℤ :=
  ∑ k, (db.rows k).total fun r => if r.payer = a then r.size else 0

def tablesSize (a : AccountName) : ℤ :=
  db.tables.total fun t => if t.payer = a then (tableIdObjectSize : ℤ) else 0

def Ledger (uncharged : AccountName → ℤ) : Prop :=
  ∀ a, db.ramDeltas a + uncharged a = db.tablesSize a + db.rowsSize a

structure Counted : Prop where
  counted : ∀ t ∈ db.tables.rows, (t.2.count.toNat : ℤ) = db.carriers t.1
  present : ∀ k, ∀ r ∈ (db.rows k).rows, ∃ t, (r.2.tId, t) ∈ db.tables.rows

structure Balanced : Prop extends db.Counted where
  ledger : db.Ledger fun _ => 0
  nonempty : ∀ t ∈ db.tables.rows, 0 < db.carriers t.1

end Sizes

section Carriers

theorem carriers_nonneg (id : ℕ) : 0 ≤ db.carriers id := by
  refine sum_nonneg fun k _ => ?_
  rw [total_indicator]
  exact Int.natCast_nonneg _

theorem carriers_pos {r : ℕ × TableRow k} (hr : r ∈ (db.rows k).rows) :
    0 < db.carriers r.2.tId := by
  have hone : 0 < (db.rows k).total fun s => if s.tId = r.2.tId then 1 else 0 := by
    rw [total_indicator]
    exact_mod_cast List.length_pos_of_mem (List.mem_filter.mpr ⟨hr, by simp⟩)
  refine hone.trans_le (single_le_sum
    (f := fun j => (db.rows j).total fun s => if s.tId = r.2.tId then 1 else 0)
    (fun j _ => ?_) (mem_univ k))
  rw [total_indicator]
  exact Int.natCast_nonneg _

theorem Counted.carriers_fresh (h : db.Counted) : db.carriers db.tables.nextId = 0 := by
  refine sum_eq_zero fun k _ => total_eq_zero _ fun r hr => if_neg fun heq => ?_
  obtain ⟨t, ht⟩ := h.present k r hr
  rw [heq] at ht
  exact lt_irrefl _ (db.tables.below _ ht)

variable {t : Table (@TableRow.key k)}

section
variable (hrows : db'.rows = Function.update db.rows k t)
include hrows

theorem carriers_update (id : ℕ) : db'.carriers id =
      db.carriers id - (db.rows k).total (fun r => if r.tId = id then 1 else 0) +
        t.total fun r => if r.tId = id then 1 else 0 := by
  rw [carriers, hrows]
  exact sum_update db.rows k t fun _ t => t.total fun r => if r.tId = id then 1 else 0

theorem rowsSize_update (a : AccountName) : db'.rowsSize a =
      db.rowsSize a - (db.rows k).total (fun r => if r.payer = a then r.size else 0) +
        t.total fun r => if r.payer = a then r.size else 0 := by
  rw [rowsSize, hrows]
  exact sum_update db.rows k t fun _ t => t.total fun r => if r.payer = a then r.size else 0

theorem mem_rows_update {P : (j : RowKind) → ℕ × TableRow j → Prop} (hnew : ∀ r ∈ t.rows, P k r)
    (hold : ∀ j, ∀ r ∈ (db.rows j).rows, P j r) : ∀ j, ∀ r ∈ (db'.rows j).rows, P j r := by
  intro j r hr
  rw [hrows] at hr
  by_cases hj : j = k
  · subst hj
    rw [update_self] at hr
    exact hnew r hr
  · rw [update_of_ne hj] at hr
    exact hold j r hr

end

theorem Balanced.congr (h : db.Balanced) (htables : db'.tables = db.tables)
    (hrows : db'.rows = db.rows) (hdeltas : db'.ramDeltas = db.ramDeltas) : db'.Balanced := by
  have hcarriers : db'.carriers = db.carriers := by
    unfold carriers
    rw [hrows]
  refine ⟨⟨?_, ?_⟩, fun a => ?_, ?_⟩
  · rw [htables, hcarriers]
    exact h.counted
  · rw [htables, hrows]
    exact h.present
  · have hold := h.ledger a
    unfold tablesSize rowsSize at hold ⊢
    rw [htables, hrows, hdeltas]
    exact hold
  · rw [htables, hcarriers]
    exact h.nonempty

end Carriers

section Usage
variable {uncharged : AccountName → ℤ}

theorem updateDbUsage_eq_ok (h : db.updateDbUsage payer delta = .ok db') : db' = { db with
      ramDeltas := Function.update db.ramDeltas payer (db.ramDeltas payer + delta) } := by
  obtain ⟨-, h⟩ := seq_eq_ok.mp h
  exact (Except.ok.inj h).symm

theorem Ledger.charge (h : db.Ledger uncharged) (hok : db.updateDbUsage payer delta = .ok db') :
    db'.Ledger fun a => uncharged a - if payer = a then delta else 0 := by
  intro a
  have hold := h a
  rw [updateDbUsage_eq_ok hok]
  change Function.update db.ramDeltas payer (db.ramDeltas payer + delta) a + _ =
    db.tablesSize a + db.rowsSize a
  rw [← hold, update_apply]
  by_cases ha : payer = a
  · subst ha
    simp only [if_true]
    ring
  · simp only [if_neg ha, if_neg (Ne.symm ha)]
    ring

theorem Ledger.congr {uncharged' : AccountName → ℤ} (h : db.Ledger uncharged)
    (heq : ∀ a, uncharged' a = uncharged a) : db.Ledger uncharged' := by
  intro a
  rw [heq]
  exact h a

end Usage

section Stores
variable {code : AccountName} {scope table : UInt64} {row : TableRow k} {rowId : ℕ}

structure Prepared (db : ContractDb) (tableId : ℕ) (mid : ContractDb) : Prop where
  counted : mid.Counted
  ledger : mid.Ledger fun _ => 0
  rows : mid.rows = db.rows
  table : ∃ t, (tableId, t) ∈ mid.tables.rows
  nonempty : ∀ t ∈ mid.tables.rows, t.1 ≠ tableId → 0 < mid.carriers t.1

theorem findOrCreateTable_eq_ok
    (hok : db.findOrCreateTable code scope table payer = .ok (tableId, mid)) :
    (∃ t, db.tables.find (code, scope, table) = some (tableId, t) ∧ mid = db) ∨
      (db.tables.find (code, scope, table) = none ∧ tableId = db.tables.nextId ∧
        ∃ charged tables, db.updateDbUsage payer tableIdObjectSize = .ok charged ∧
          db.tables.Created ⟨code, scope, table, payer, 0⟩ tables ∧
          mid = { charged with tables }) := by
  unfold ContractDb.findOrCreateTable at hok
  cases hfind : db.tables.find (code, scope, table) with
  | some existing =>
    rw [hfind] at hok
    cases hok
    exact .inl ⟨existing.2, rfl, rfl⟩
  | none =>
    rw [hfind] at hok
    obtain ⟨charged, hcharge, hok⟩ := bind_eq_ok.mp hok
    obtain ⟨tables, hcreate, hok⟩ := bind_eq_ok.mp hok
    cases hok
    have htables : charged.tables = db.tables := by rw [updateDbUsage_eq_ok hcharge]
    rw [htables] at hcreate ⊢
    exact .inr ⟨rfl, rfl, charged, tables, hcharge, NativeDb.createRow_eq_ok hcreate, rfl⟩

theorem Balanced.findOrCreateTable (h : db.Balanced)
    (hok : db.findOrCreateTable code scope table payer = .ok (tableId, mid)) :
    db.Prepared tableId mid := by
  rcases findOrCreateTable_eq_ok hok with
    ⟨t, hfind, rfl⟩ | ⟨-, rfl, charged, tables, hcharge, hcreated, rfl⟩
  · exact ⟨h.toCounted, h.ledger, rfl, ⟨t, (find_eq_some.mp hfind).1⟩,
      fun t ht _ => h.nonempty t ht⟩
  · have hledger := h.ledger.charge hcharge
    obtain rfl := updateDbUsage_eq_ok hcharge
    refine ⟨⟨fun t ht => ?_, fun k r hr => ?_⟩, fun a => ?_, rfl,
      ⟨_, hcreated.mem.mpr (.inr rfl)⟩, fun t ht hne => ?_⟩
    · rcases hcreated.mem.mp ht with hold | rfl
      · exact h.counted t hold
      · exact h.carriers_fresh.symm
    · obtain ⟨t, ht⟩ := h.present k r hr
      exact ⟨t, hcreated.mem.mpr (.inl ht)⟩
    · have hbalance := hledger a
      unfold tablesSize at hbalance ⊢
      rw [hcreated.total]
      change _ = _ + _ + db.rowsSize a
      change _ = _ + db.rowsSize a at hbalance
      linarith
    · rcases hcreated.mem.mp ht with hold | rfl
      · exact h.nonempty t hold
      · exact absurd rfl hne

structure RowCreated (mid : ContractDb) (row : TableRow k) (db' : ContractDb) : Prop where
  rows : ∃ t, (mid.rows k).Created row t ∧ db'.rows = Function.update mid.rows k t
  tables : db'.tables = mid.tables.modify row.tId .incremented incremented_name
  ramDeltas : db'.ramDeltas = mid.ramDeltas

theorem createRowIn_eq_ok (h : mid.createRowIn k row = .ok (rowId, db')) :
    mid.RowCreated row db' := by
  obtain ⟨rows, hcreate, h⟩ := bind_eq_ok.mp h
  cases h
  exact ⟨⟨rows, NativeDb.createRow_eq_ok hcreate, rfl⟩, rfl, rfl⟩

theorem RowCreated.carriers (h : mid.RowCreated row db') (id : ℕ) :
    db'.carriers id = mid.carriers id + if row.tId = id then 1 else 0 := by
  obtain ⟨t, hcreated, hrows⟩ := h.rows
  rw [carriers_update hrows, hcreated.total]
  ring

theorem Prepared.rowCreated (h : db.Prepared row.tId mid) (hcreated : mid.RowCreated row db')
    (hbound : db'.carriers row.tId < 2 ^ 32) :
    db'.Counted ∧ (∀ t ∈ db'.tables.rows, 0 < db'.carriers t.1) ∧
      db'.Ledger fun a => if row.payer = a then row.size else 0 := by
  obtain ⟨rows, hcreated', hrows⟩ := hcreated.rows
  have hcarriers := hcreated.carriers
  rw [hcarriers, if_pos rfl] at hbound
  refine ⟨⟨fun t ht => ?_, mem_rows_update hrows ?_ ?_⟩, fun t ht => ?_, fun a => ?_⟩
  · rw [hcreated.tables] at ht
    rw [hcarriers]
    rcases mem_modify.mp ht with ⟨hne, hold⟩ | ⟨heq, u, hu, hincr⟩
    · rw [if_neg (Ne.symm hne), add_zero]
      exact h.counted.counted t hold
    · have hcount := h.counted.counted _ hu
      dsimp only at hcount
      rw [heq, if_pos rfl, ← hcount, hincr, incremented, UInt32.toNat_add, Nat.mod_eq_of_lt]
      · rfl
      · change u.count.toNat + 1 < 2 ^ 32
        omega
  · intro r hr
    rw [hcreated.tables, exists_mem_modify]
    rcases hcreated'.mem.mp hr with hold | rfl
    · exact h.counted.present _ r hold
    · exact h.table
  · intro j r hr
    rw [hcreated.tables, exists_mem_modify]
    exact h.counted.present j r hr
  · rw [hcreated.tables] at ht
    rw [hcarriers]
    rcases mem_modify.mp ht with ⟨hne, hold⟩ | ⟨heq, -⟩
    · rw [if_neg (Ne.symm hne), add_zero]
      exact h.nonempty t hold hne
    · have hnonneg : 0 ≤ mid.carriers row.tId := carriers_nonneg _
      rw [heq, if_pos rfl]
      omega
  · have hbalance := h.ledger a
    have htables : db'.tablesSize a = mid.tablesSize a := by
      rw [tablesSize, hcreated.tables]
      exact total_modify_same fun _ => rfl
    rw [htables, rowsSize_update hrows, hcreated'.total, hcreated.ramDeltas]
    linarith

theorem Balanced.store (h : db.Balanced)
    (hfind : db.findOrCreateTable code scope table payer = .ok (row.tId, mid))
    {stored : ContractDb} (hcreate : mid.createRowIn k row = .ok (rowId, stored))
    (hcharge : stored.updateDbUsage row.payer row.size = .ok db')
    (hbound : ∀ id, db'.carriers id < 2 ^ 32) : db'.Balanced := by
  have hcreated := createRowIn_eq_ok hcreate
  have hdb' := updateDbUsage_eq_ok hcharge
  have hbound' : stored.carriers row.tId < 2 ^ 32 := by
    have := hbound row.tId
    rwa [hdb'] at this
  obtain ⟨hcounted, hnonempty, hledger⟩ :=
    (h.findOrCreateTable hfind).rowCreated hcreated hbound'
  have hcharged := hledger.charge hcharge
  rw [hdb'] at hcharged ⊢
  exact ⟨⟨hcounted.counted, hcounted.present⟩, hcharged.congr fun a => (sub_self _).symm, hnonempty⟩

theorem Balanced.dbStoreI64 {id : UInt64} {value : List UInt8} {iterator : ℤ} (h : db.Balanced)
    (hok : db.dbStoreI64 scope table payer id value = .ok (iterator, db'))
    (hbound : ∀ id, db'.carriers id < 2 ^ 32) : db'.Balanced := by
  obtain ⟨-, hok⟩ := seq_eq_ok.mp hok
  obtain ⟨⟨tableId, mid⟩, hfind, hok⟩ := bind_eq_ok.mp hok
  obtain ⟨-, hok⟩ := seq_eq_ok.mp hok
  obtain ⟨⟨rowId, stored⟩, hcreate, hok⟩ := bind_eq_ok.mp hok
  obtain ⟨charged, hcharge, hok⟩ := bind_eq_ok.mp hok
  cases hok
  exact (h.store hfind hcreate hcharge hbound).congr rfl rfl rfl

theorem Balanced.indexStore {kind : SecondaryKind} {id : UInt64} {value : SecondaryKey kind}
    {iterator : ℤ} (h : db.Balanced)
    (hok : db.indexStore kind scope table payer id value = .ok (iterator, db'))
    (hbound : ∀ id, db'.carriers id < 2 ^ 32) : db'.Balanced := by
  iterate 2 obtain ⟨-, hok⟩ := seq_eq_ok.mp hok
  obtain ⟨⟨tableId, mid⟩, hfind, hok⟩ := bind_eq_ok.mp hok
  obtain ⟨⟨rowId, stored⟩, hcreate, hok⟩ := bind_eq_ok.mp hok
  obtain ⟨charged, hcharge, hok⟩ := bind_eq_ok.mp hok
  cases hok
  exact (h.store hfind hcreate hcharge hbound).congr rfl rfl rfl

end Stores

section Changes
variable {row : TableRow k} {table : TableIdObject} {iterator : ℤ}

theorem writableRow_eq_returns
    (h : db.writableRow k iterator = .returns ((id, row), table)) :
    (id, row) ∈ (db.rows k).rows ∧ (row.tId, table) ∈ db.tables.rows := by
  obtain ⟨i, -, h⟩ := bind_eq_returns.mp h
  obtain ⟨r, hr, h⟩ := bind_eq_returns.mp h
  obtain ⟨⟨⟩, -, h⟩ := bind_eq_returns.mp h
  obtain ⟨t, ht, h⟩ := bind_eq_returns.mp h
  obtain ⟨⟨⟩, -, h⟩ := bind_eq_returns.mp h
  obtain ⟨hrow, rfl⟩ := Prod.mk.inj (returns.inj h)
  cases hrow
  exact ⟨get_eq_some.mp (ofOption_eq_returns.mp hr), get_eq_some.mp (ofOption_eq_returns.mp ht)⟩

structure Recharged (db : ContractDb) (oldPayer : AccountName) (oldSize : ℤ)
    (payer : AccountName) (newSize : ℤ) (db' : ContractDb) : Prop where
  tables : db'.tables = db.tables
  rows : db'.rows = db.rows
  ledger : db'.Ledger fun a =>
    (if oldPayer = a then oldSize else 0) - if payer = a then newSize else 0

section
variable (h : db.Balanced)
include h

theorem Balanced.changePayer {oldPayer : AccountName} {oldSize newSize : ℤ}
    (hok : db.changePayer oldPayer oldSize payer newSize = .ok db') :
    db.Recharged oldPayer oldSize payer newSize db' := by
  obtain ⟨refunded, hrefund, hcharge⟩ := bind_eq_ok.mp hok
  have hledger := (h.ledger.charge hrefund).charge hcharge
  have hrefunded := updateDbUsage_eq_ok hrefund
  have hcharged := updateDbUsage_eq_ok hcharge
  refine ⟨by rw [hcharged, hrefunded], by rw [hcharged, hrefunded], hledger.congr fun a => ?_⟩
  split_ifs <;> ring

theorem Balanced.chargeUpdateI64 {row : TableRow .primary} {value : List UInt8}
    (hok : db.chargeUpdateI64 row payer value = .ok db') :
    db.Recharged row.payer row.size payer (payloadSize .primary value) db' := by
  unfold ContractDb.chargeUpdateI64 at hok
  dsimp only at hok
  split_ifs at hok with hpayer hsize
  · exact h.changePayer hok
  · rw [not_not] at hpayer
    subst hpayer
    have hcharged := updateDbUsage_eq_ok hok
    refine ⟨by rw [hcharged], by rw [hcharged], (h.ledger.charge hok).congr fun a => ?_⟩
    simp only [TableRow.size, payloadSize]
    split_ifs <;> ring
  · rw [not_not] at hpayer hsize
    cases hok
    subst hpayer
    have hsame : payloadSize .primary value = row.size := hsize.symm
    exact ⟨rfl, rfl, h.ledger.congr fun a => by rw [hsame, sub_self]⟩

theorem Balanced.chargeIndexUpdate {kind : SecondaryKind} {row : TableRow (.secondary kind)}
    {value : SecondaryKey kind} (hok : db.chargeIndexUpdate row payer = .ok db') :
    db.Recharged row.payer row.size payer (payloadSize (.secondary kind) value) db' := by
  unfold ContractDb.chargeIndexUpdate at hok
  split_ifs at hok with hpayer
  · exact h.changePayer hok
  · rw [not_not] at hpayer
    cases hok
    subst hpayer
    exact ⟨rfl, rfl, h.ledger.congr fun a => sub_self _⟩

theorem Balanced.modifyRow {payload : Payload k} (hrow : (id, row) ∈ (db.rows k).rows)
    (hcharged : db.Recharged row.payer row.size payer (payloadSize k payload) mid) :
    (mid.modifyRow id payer payload).Balanced := by
  have hrows : (mid.modifyRow id payer payload).rows = Function.update mid.rows k
      ((mid.rows k).modify id (.updated payer payload) (TableRow.updated_key _ _)) := rfl
  have hmem : (id, row) ∈ (mid.rows k).rows := by
    rw [hcharged.rows]
    exact hrow
  have hcarriers : (mid.modifyRow id payer payload).carriers = db.carriers := by
    funext i
    have hsame : ((mid.rows k).modify id (.updated payer payload)
        (TableRow.updated_key _ _)).total (fun r => if r.tId = i then 1 else 0) =
          (mid.rows k).total fun r => if r.tId = i then 1 else 0 :=
      total_modify_same fun _ => rfl
    rw [carriers_update hrows, hsame, sub_add_cancel, carriers, hcharged.rows]
    rfl
  refine ⟨⟨?_, ?_⟩, fun a => ?_, ?_⟩
  · rw [hcarriers]
    change ∀ t ∈ mid.tables.rows, _
    rw [hcharged.tables]
    exact h.counted
  · change ∀ j, ∀ r ∈ ((mid.modifyRow id payer payload).rows j).rows,
      ∃ t, (r.2.tId, t) ∈ mid.tables.rows
    rw [hcharged.tables]
    refine mem_rows_update hrows ?_ ?_
    · rintro ⟨j, r⟩ hr
      rcases mem_modify.mp hr with ⟨-, hold⟩ | ⟨-, r', hr', rfl⟩
      · rw [hcharged.rows] at hold
        exact h.present k _ hold
      · rw [hcharged.rows] at hr'
        exact h.present k (id, r') hr'
    · rw [hcharged.rows]
      exact h.present
  · have hbalance := hcharged.ledger a
    rw [rowsSize_update hrows, total_modify _ hmem]
    change mid.ramDeltas a + 0 = mid.tablesSize a + _
    have hpayer : (row.updated payer payload).payer = payer := rfl
    have hsize : (row.updated payer payload).size = payloadSize k payload := rfl
    rw [hpayer, hsize]
    linarith
  · rw [hcarriers]
    change ∀ t ∈ mid.tables.rows, _
    rw [hcharged.tables]
    exact h.nonempty

theorem Balanced.dbUpdateI64 {value : List UInt8}
    (hok : db.dbUpdateI64 iterator payer value = .returns db') : db'.Balanced := by
  obtain ⟨⟨⟩, -, hok⟩ := bind_eq_returns.mp hok
  obtain ⟨⟨⟨id, row⟩, table⟩, hrow, hok⟩ := bind_eq_returns.mp hok
  obtain ⟨mid, hcharge, hok⟩ := bind_eq_returns.mp hok
  cases hok
  rw [ofExcept_eq_returns] at hcharge
  exact h.modifyRow (writableRow_eq_returns hrow).1 (h.chargeUpdateI64 hcharge)

theorem Balanced.indexUpdate {kind : SecondaryKind} {value : SecondaryKey kind}
    (hok : db.indexUpdate kind iterator payer value = .returns db') : db'.Balanced := by
  obtain ⟨⟨⟩, -, hok⟩ := bind_eq_returns.mp hok
  obtain ⟨⟨⟨id, row⟩, table⟩, hrow, hok⟩ := bind_eq_returns.mp hok
  obtain ⟨mid, hcharge, hok⟩ := bind_eq_returns.mp hok
  cases hok
  rw [ofExcept_eq_returns] at hcharge
  exact h.modifyRow (writableRow_eq_returns hrow).1 (h.chargeIndexUpdate hcharge)

end

structure RowDropped (db : ContractDb) (id : ℕ) (row : TableRow k) (db' : ContractDb) : Prop where
  mem : (id, row) ∈ (db.rows k).rows
  rows : db'.rows = Function.update db.rows k ((db.rows k).remove id)
  tables : db'.tables = db.tables.modify row.tId .decremented decremented_name
  ramDeltas : db'.ramDeltas =
    Function.update db.ramDeltas row.payer (db.ramDeltas row.payer + -row.size)

section
variable (h : db.RowDropped id row db')
include h

theorem RowDropped.carriers (i : ℕ) :
    db'.carriers i = db.carriers i - if row.tId = i then 1 else 0 := by
  rw [carriers_update h.rows, total_remove _ h.mem]
  ring

theorem RowDropped.counted (hdb : db.Counted) : db'.Counted := by
  refine ⟨fun t ht => ?_, mem_rows_update h.rows ?_ ?_⟩
  · rw [h.tables] at ht
    rw [h.carriers]
    rcases mem_modify.mp ht with ⟨hne, hold⟩ | ⟨heq, u, hu, hdecr⟩
    · rw [if_neg (Ne.symm hne), sub_zero]
      exact hdb.counted t hold
    · have hcount := hdb.counted _ hu
      have hpos : 0 < db.carriers row.tId := carriers_pos h.mem
      dsimp only at hcount
      have hle : (1 : UInt32) ≤ u.count := UInt32.le_iff_toNat_le.mpr (by
        change 1 ≤ u.count.toNat
        omega)
      have hsub : u.decremented.count.toNat = u.count.toNat - 1 :=
        UInt32.toNat_sub_of_le _ _ hle
      rw [heq, if_pos rfl, hdecr, hsub]
      omega
  · intro r hr
    rw [h.tables, exists_mem_modify]
    exact hdb.present k r (mem_remove.mp hr).1
  · intro j r hr
    rw [h.tables, exists_mem_modify]
    exact hdb.present j r hr

theorem RowDropped.ledger (hdb : db.Balanced) : db'.Ledger fun _ => 0 := by
  intro a
  have hbalance := hdb.ledger a
  have htables : db'.tablesSize a = db.tablesSize a := by
    rw [tablesSize, h.tables]
    exact total_modify_same fun _ => rfl
  rw [htables, rowsSize_update h.rows, total_remove _ h.mem, h.ramDeltas, update_apply]
  by_cases ha : row.payer = a
  · subst ha
    simp only [if_true]
    linarith
  · simp only [if_neg ha, if_neg (Ne.symm ha)]
    linarith

theorem RowDropped.nonempty (hdb : db.Balanced) :
    ∀ t ∈ db'.tables.rows, t.1 ≠ row.tId → 0 < db'.carriers t.1 := by
  intro t ht hne
  rw [h.tables] at ht
  rw [h.carriers, if_neg (Ne.symm hne), sub_zero]
  rcases mem_modify.mp ht with ⟨-, hold⟩ | ⟨heq, -⟩
  · exact hdb.nonempty t hold
  · exact absurd heq hne

end

theorem removeTable_balanced (hcounted : db.Counted) (hledger : db.Ledger fun _ => 0)
    (hnonempty : ∀ t ∈ db.tables.rows, t.1 ≠ tableId → 0 < db.carriers t.1)
    (htable : (tableId, table) ∈ db.tables.rows) (hempty : db.carriers tableId = 0)
    {payerOf : TableIdObject} (hpayer : payerOf.payer = table.payer)
    (hok : db.removeTable tableId payerOf = .ok db') : db'.Balanced := by
  obtain ⟨refunded, hrefund, hok⟩ := bind_eq_ok.mp hok
  cases hok
  have hledger' := hledger.charge hrefund
  obtain rfl := updateDbUsage_eq_ok hrefund
  refine ⟨⟨fun t ht => hcounted.counted t (mem_remove.mp ht).1, fun j r hr => ?_⟩,
    fun a => ?_, fun t ht => ?_⟩
  · obtain ⟨t, ht⟩ := hcounted.present j r hr
    refine ⟨t, mem_remove.mpr ⟨ht, fun heq => ?_⟩⟩
    have hpos : 0 < db.carriers r.2.tId := carriers_pos hr
    dsimp only at heq
    rw [heq, hempty] at hpos
    exact lt_irrefl _ hpos
  · have hbalance := hledger' a
    unfold tablesSize at hbalance ⊢
    dsimp only at hbalance ⊢
    rw [total_remove _ htable, ← hpayer]
    change _ = _ + db.rowsSize a at hbalance
    change _ = _ - _ + db.rowsSize a
    split_ifs at hbalance ⊢ <;> linarith
  · obtain ⟨ht, hne⟩ := mem_remove.mp ht
    exact hnonempty t ht hne

theorem Balanced.dropRow (h : db.Balanced) (hrow : (id, row) ∈ (db.rows k).rows)
    (htable : (row.tId, table) ∈ db.tables.rows)
    (hrefund : db.updateDbUsage row.payer (-row.size) = .ok mid)
    (hok : mid.dropRow k id row table = .ok db') : db'.Balanced := by
  obtain rfl := updateDbUsage_eq_ok hrefund
  unfold ContractDb.dropRow at hok
  generalize hdropped : ContractDb.mk (db.tables.modify row.tId .decremented
    decremented_name) (Function.update db.rows k ((db.rows k).remove id))
    (Function.update db.ramDeltas row.payer (db.ramDeltas row.payer + -row.size)) db.context
    db.caches = dropped at hok
  have hdrop : db.RowDropped id row dropped := by
    subst hdropped
    exact ⟨hrow, rfl, rfl, rfl⟩
  have hcounted := hdrop.counted h.toCounted
  have hmem : (row.tId, table.decremented) ∈ dropped.tables.rows := by
    rw [hdrop.tables]
    exact mem_modify.mpr (.inr ⟨rfl, table, htable, rfl⟩)
  have hcount := hcounted.counted _ hmem
  split_ifs at hok with hzero
  · refine removeTable_balanced hcounted (hdrop.ledger h) (hdrop.nonempty h) hmem ?_ rfl hok
    rw [← hcount, hzero]
    rfl
  · cases hok
    refine ⟨hcounted, hdrop.ledger h, fun t ht => ?_⟩
    by_cases hne : t.1 = row.tId
    · have hpos : 0 < table.decremented.count.toNat :=
        Nat.pos_of_ne_zero fun heq => hzero (UInt32.toNat_inj.mp heq)
      rw [hne, ← hcount]
      exact_mod_cast hpos
    · exact hdrop.nonempty h t ht hne

theorem Balanced.removeRow (h : db.Balanced) (hok : db.removeRow k iterator = .returns db') :
    db'.Balanced := by
  obtain ⟨⟨⟩, -, hok⟩ := bind_eq_returns.mp hok
  obtain ⟨⟨⟨id, row⟩, table⟩, hrow, hok⟩ := bind_eq_returns.mp hok
  obtain ⟨mid, hrefund, hok⟩ := bind_eq_returns.mp hok
  obtain ⟨dropped, hdrop, hok⟩ := bind_eq_returns.mp hok
  obtain ⟨cache, -, hok⟩ := bind_eq_returns.mp hok
  cases hok
  rw [ofExcept_eq_returns] at hrefund hdrop
  obtain ⟨hmem, htable⟩ := writableRow_eq_returns hrow
  exact (h.dropRow hmem htable hrefund hdrop).congr rfl rfl rfl

end Changes
end ContractDb
end FlonCore
