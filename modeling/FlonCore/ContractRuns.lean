import FlonCore.ContractLedger

/-!
# Runs of calls on contract tables

The books balance in every state that is reached while no table has as many rows as its
counter can hold; with more rows they do not.
-/

namespace FlonCore
open Library List
open Outcome Table

namespace ContractDb
variable {db db' : ContractDb} {context : ContractContext}

theorem initial_balanced : (initial context).Balanced := by
  refine ⟨⟨?_, ?_⟩, fun a => ?_, ?_⟩
  · simp [initial, empty]
  · simp [initial, empty]
  · simp [initial, tablesSize, rowsSize, total, empty]
  · simp [initial, empty]

variable (db) in
theorem findRow_same (k : RowKind) (code : AccountName) (scope table id : UInt64) :
    (db.findRow k code scope table id).2.tables = db.tables ∧
      (db.findRow k code scope table id).2.rows = db.rows ∧
      (db.findRow k code scope table id).2.ramDeltas = db.ramDeltas := by
  unfold findRow
  split
  · exact ⟨rfl, rfl, rfl⟩
  · dsimp only
    split
    · exact ⟨rfl, rfl, rfl⟩
    · exact ⟨rfl, rfl, rfl⟩

theorem Balanced.call {c : Call} (h : db.Balanced) (hok : db.call c = .returns db')
    (hbound : ∀ id, db'.carriers id < 2 ^ 32) : db'.Balanced := by
  cases c with
  | start context =>
    cases hok
    exact h.congr rfl rfl rfl
  | find k code scope table id =>
    cases hok
    obtain ⟨htables, hrows, hdeltas⟩ := findRow_same db k code scope table id
    exact h.congr htables hrows hdeltas
  | storeI64 scope table payer id value =>
    obtain ⟨⟨iterator, stored⟩, hstore, rfl⟩ :=
      map_eq_ok.mp (ofExcept_eq_returns.mp hok)
    exact h.dbStoreI64 hstore hbound
  | updateI64 iterator payer value => exact h.dbUpdateI64 hok
  | removeI64 iterator => exact h.removeRow hok
  | store kind scope table payer id value =>
    obtain ⟨⟨iterator, stored⟩, hstore, rfl⟩ :=
      map_eq_ok.mp (ofExcept_eq_returns.mp hok)
    exact h.indexStore hstore hbound
  | update kind iterator payer secondary => exact h.indexUpdate hok
  | remove kind iterator => exact h.removeRow hok

inductive Runs (allowed : ContractDb → Prop) : ContractDb → Prop
  | initial (context : ContractContext) : Runs allowed (initial context)
  | step {c : Call} {db db' : ContractDb} (h : Runs allowed db) (hok : db.call c = .returns db')
      (hallowed : allowed db') : Runs allowed db'

def CountersHold (db : ContractDb) : Prop := ∀ id, db.carriers id < 2 ^ 32

theorem Runs.balanced (h : Runs CountersHold db) : db.Balanced := by
  induction h with
  | initial context => exact initial_balanced
  | step _ hok hbound ih => exact ih.call hok hbound

/-- What is charged to an account is the size of the rows and table ids that it pays for;
table ids count their rows and exist as long as there are any. -/
theorem Runs.contract_ram_ledger (h : Runs CountersHold db) :
    (∀ a, db.ramDeltas a = db.tablesSize a + db.rowsSize a) ∧
    (∀ t ∈ db.tables.rows, (t.2.count.toNat : ℤ) = db.carriers t.1 ∧ 0 < t.2.count) ∧
    ∀ id, (∃ t, (id, t) ∈ db.tables.rows) ↔ 0 < db.carriers id := by
  have hbalanced := h.balanced
  refine ⟨fun a => ?_, fun t ht => ⟨hbalanced.counted t ht, ?_⟩, fun id => ⟨?_, fun hpos => ?_⟩⟩
  · have hledger := hbalanced.ledger a
    linarith
  · have hcount := hbalanced.counted t ht
    have hpos := hbalanced.nonempty t ht
    refine UInt32.lt_iff_toNat_lt.mpr ?_
    change 0 < t.2.count.toNat
    omega
  · rintro ⟨t, ht⟩
    exact hbalanced.nonempty _ ht
  · obtain ⟨k, -, hk⟩ := Finset.exists_ne_zero_of_sum_ne_zero hpos.ne'
    rw [total_indicator] at hk
    have hlength : 0 < ((db.rows k).rows.filter fun r => r.2.tId = id).length := by omega
    obtain ⟨r, hr⟩ := exists_mem_of_length_pos hlength
    obtain ⟨hr, htId⟩ := mem_filter.mp hr
    have heq : r.2.tId = id := by simpa using htId
    exact heq ▸ hbalanced.present k r hr

def sampleContract : ContractContext := ⟨1, 1, [], true, false, false, false⟩

def sampleCalls : List Call :=
  [.storeI64 0 0 2 7 [1, 2], .store .idx64 0 0 3 7 5, .updateI64 0 0 [1],
    .updateI64 0 4 [1, 2, 3], .update .idx64 0 4 6, .start sampleContract,
    .find .primary 1 0 0 7, .removeI64 0, .find (.secondary .idx64) 1 0 0 7, .remove .idx64 0,
    .storeI64 0 0 3 7 []]

def runCalls (db : ContractDb) : List Call → Outcome Failure ContractDb
  | [] => .returns db
  | c :: rest => do
    let db ← db.call c
    if ∑ k, (db.rows k).rows.length < 2 ^ 32 then runCalls db rest else .undefined

theorem countersHold_of_few (h : ∑ k, (db.rows k).rows.length < 2 ^ 32) : CountersHold db := by
  intro id
  have hle : db.carriers id ≤ ((∑ k, (db.rows k).rows.length : ℕ) : ℤ) := by
    rw [carriers, Nat.cast_sum]
    refine Finset.sum_le_sum fun k _ => ?_
    rw [total_indicator]
    exact_mod_cast length_filter_le _ _
  exact hle.trans_lt (by exact_mod_cast h)

theorem runCalls_runs {calls : List Call} (h : Runs CountersHold db)
    (hok : db.runCalls calls = .returns db') : Runs CountersHold db' := by
  induction calls generalizing db with
  | nil => exact returns.inj hok ▸ h
  | cons c rest ih =>
    obtain ⟨mid, hcall, hok⟩ := bind_eq_returns.mp hok
    split_ifs at hok with hfew
    exact ih (.step h hcall (countersHold_of_few hfew)) hok

theorem contract_ram_ledger_calls :
    ∃ db, (initial sampleContract).runCalls sampleCalls = .returns db ∧
      (∀ a, db.ramDeltas a = db.tablesSize a + db.rowsSize a) ∧
      (∀ t ∈ db.tables.rows, (t.2.count.toNat : ℤ) = db.carriers t.1 ∧ 0 < t.2.count) ∧
      ∀ id, (∃ t, (id, t) ∈ db.tables.rows) ↔ 0 < db.carriers id := by
  have hok : ((initial sampleContract).runCalls sampleCalls).isReturns = true := by
    decide +kernel
  obtain ⟨db, hdb⟩ := isReturns_iff.mp hok
  exact ⟨db, hdb, Runs.contract_ram_ledger (runCalls_runs (.initial _) hdb)⟩

variable (db) in
theorem updateDbUsage_of_privileged (h : db.context.privileged = true) (payer : AccountName)
    (delta : ℤ) : db.updateDbUsage payer delta = .ok { db with
      ramDeltas := Function.update db.ramDeltas payer (db.ramDeltas payer + delta) } := by
  unfold updateDbUsage checkCharge
  rw [if_neg (by simp [h])]
  rfl

theorem exists_dbStoreI64 {scope table id : UInt64} {payer : AccountName}
    {existing : ℕ × TableIdObject} (hread : db.context.isReadOnly = false)
    (hprivileged : db.context.privileged = true)
    (hfind : db.tables.find (db.context.receiver, scope, table) = some existing)
    (hpayer : payer ≠ 0) (hfresh : (existing.1, id) ∉ (db.rows .primary).keys) :
    ∃ iterator db' t, db.dbStoreI64 scope table payer id [] = .ok (iterator, db') ∧
      db'.context = db.context ∧
      db'.tables = db.tables.modify existing.1 .incremented TableIdObject.incremented_name ∧
      (db.rows .primary).Created ⟨existing.1, id, payer, []⟩ t ∧
      db'.rows = Function.update db.rows .primary t := by
  obtain ⟨t, ht⟩ := exists_create (a := (⟨existing.1, id, payer, []⟩ : TableRow .primary)) hfresh
  have htable : db.findOrCreateTable db.context.receiver scope table payer =
      .ok (existing.1, db) := by
    unfold findOrCreateTable
    rw [hfind]
    rfl
  have hcreate : db.createRowIn .primary ⟨existing.1, id, payer, []⟩ =
      .ok ((db.rows .primary).nextId, { db with
        rows := Function.update db.rows .primary t
        tables := db.tables.modify existing.1 .incremented TableIdObject.incremented_name }) := by
    unfold createRowIn NativeDb.createRow
    rw [ht]
    rfl
  have hstore : db.checkStore = .ok () := eosAssert_eq_ok.mpr (by simp [hread])
  have hvalid : checkPayer payer = .ok () := eosAssert_eq_ok.mpr (by simpa using hpayer)
  have hrun : db.dbStoreI64 scope table payer id [] = .ok (cacheRow _ .primary existing.1
      (db.rows .primary).nextId) :=
    seq_eq_ok.mpr ⟨hstore, bind_eq_ok.mpr ⟨_, htable, seq_eq_ok.mpr ⟨hvalid,
      bind_eq_ok.mpr ⟨_, hcreate, bind_eq_ok.mpr
        ⟨_, updateDbUsage_of_privileged _ (by exact hprivileged) _ _, rfl⟩⟩⟩⟩⟩
  exact ⟨_, _, t, hrun, rfl, rfl, create_eq_some ht, rfl⟩

structure Filled (n : ℕ) (db : ContractDb) : Prop where
  runs : Runs (fun _ => True) db
  context : db.context = sampleContract
  table : (0, ⟨1, 0, 0, 1, UInt32.ofNat n⟩) ∈ db.tables.rows
  carriers : db.carriers 0 = n
  keys : ∀ r ∈ (db.rows .primary).rows, r.2.primaryKey.toNat < n

theorem exists_filled_one : ∃ db, Filled 1 db := by
  have hok : (((initial sampleContract).dbStoreI64 0 0 1 0 []).map fun r =>
      (r.2.tables.rows, r.2.context, r.2.carriers 0,
        (r.2.rows .primary).rows.map fun r => r.2.primaryKey.toNat)) =
      .ok ([(0, ⟨1, 0, 0, 1, 1⟩)], sampleContract, 1, [0]) := by decide +kernel
  obtain ⟨⟨iterator, db⟩, hstore, heq⟩ := map_eq_ok.mp hok
  obtain ⟨htable, heq⟩ := Prod.mk.inj heq
  obtain ⟨hcontext, heq⟩ := Prod.mk.inj heq
  obtain ⟨hcarriers, hkeys⟩ := Prod.mk.inj heq
  refine ⟨db, .step (.initial sampleContract) (c := .storeI64 0 0 1 0 []) ?_ trivial, hcontext,
    ?_, hcarriers, fun r hr => ?_⟩
  · exact ofExcept_eq_returns.mpr (map_eq_ok.mpr ⟨_, hstore, rfl⟩)
  · rw [htable]
    exact mem_singleton_self _
  · have hmem := mem_map_of_mem (f := fun r => r.2.primaryKey.toNat) hr
    rw [hkeys, mem_singleton] at hmem
    omega

theorem Filled.next {n : ℕ} (h : Filled n db) (hn : n < 2 ^ 64) : ∃ db', Filled (n + 1) db' := by
  have hid : (UInt64.ofNat n).toNat = n := UInt64.toNat_ofNat_of_lt' hn
  have hfind : db.tables.find (db.context.receiver, 0, 0) =
      some (0, ⟨1, 0, 0, 1, UInt32.ofNat n⟩) := by
    rw [h.context]
    exact find_eq_some.mpr ⟨h.table, rfl⟩
  have hfresh : (0, UInt64.ofNat n) ∉ (db.rows .primary).keys := by
    intro hmem
    obtain ⟨i, r, hr, hkey⟩ := mem_keys.mp hmem
    have hlt := h.keys _ hr
    have heq : r.primaryKey = UInt64.ofNat n := congrArg Prod.snd hkey
    rw [heq, hid] at hlt
    exact lt_irrefl _ hlt
  obtain ⟨iterator, db', t, hstore, hcontext, htables, hcreated, hrows⟩ :=
    exists_dbStoreI64 (by rw [h.context]; rfl) (by rw [h.context]; rfl) hfind
      (by decide : (1 : AccountName) ≠ 0) hfresh
  refine ⟨db', .step h.runs (c := .storeI64 0 0 1 (UInt64.ofNat n) []) ?_ trivial,
    hcontext.trans h.context, ?_, ?_, fun r hr => ?_⟩
  · exact ofExcept_eq_returns.mpr (map_eq_ok.mpr ⟨_, hstore, rfl⟩)
  · rw [htables]
    refine mem_modify.mpr (Or.inr ⟨rfl, _, h.table, ?_⟩)
    rw [TableIdObject.incremented, UInt32.ofNat_add]
    rfl
  · rw [carriers_update hrows, hcreated.total, if_pos rfl, h.carriers]
    push_cast
    ring
  · rw [hrows, Function.update_self] at hr
    rcases hcreated.mem.mp hr with hold | rfl
    · exact (h.keys r hold).trans (Nat.lt_succ_self n)
    · dsimp only
      rw [hid]
      exact Nat.lt_succ_self n

theorem exists_filled {n : ℕ} (hpos : 1 ≤ n) (hn : n ≤ 2 ^ 64) : ∃ db, Filled n db := by
  induction n, hpos using Nat.le_induction with
  | base => exact exists_filled_one
  | succ n _ ih =>
    obtain ⟨db, hdb⟩ := ih (by omega)
    exact hdb.next (by omega)

/-- With 2^32 rows, the counter of a table is zero. -/
theorem full_table_counts_zero : ∃ db t, Runs (fun _ => True) db ∧ (0, t) ∈ db.tables.rows ∧
    t.count = 0 ∧ db.carriers 0 = 2 ^ 32 := by
  obtain ⟨db, hdb⟩ := exists_filled (n := 2 ^ 32) (by norm_num) (by norm_num)
  refine ⟨db, _, hdb.runs, hdb.table, ?_, ?_⟩
  · decide
  · rw [hdb.carriers]
    norm_num

end ContractDb
end FlonCore
