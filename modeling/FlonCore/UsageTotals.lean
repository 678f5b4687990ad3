import FlonCore.RamGas

/-!
# The usage totals

The state row counts the CPU, NET and RAM usage of all accounts together. Every call
that counts usage for an account counts it in the totals too, so the totals are the
sums over the accounts, and what an account gives back the total can give back.
-/

namespace FlonCore
open Library Function
open ResourceDb ResourceUsage
variable {cfg : ResourceConfig} {db db' : ResourceDb} {account : AccountName} {ramDelta : Int64}

/-- The constructor of a table throws when a row with the key exists. -/
def createRow {α : Type} (rows : AccountName → Option α) (key : AccountName) (row : α) :
    Except Failure (AccountName → Option α) :=
  match rows key with
  | none => .ok (Function.update rows key (some row))
  | some _ => .error ⟨.uniquenessViolated,
      "could not insert object, most likely a uniqueness constraint was violated"⟩

def initializeAccount (db : ResourceDb) (account : AccountName) : Except Failure ResourceDb := do
  let limits ← createRow db.limits account ⟨0, true⟩
  let usage ← createRow db.usage account ⟨0, 0, 0⟩
  return { db with limits := limits, usage := usage }

def setAccountLimits (cfg : ResourceConfig) (db : ResourceDb) (account : AccountName)
    (gas : UInt64) (isUnlimited : Bool) : Except Failure ResourceDb := do
  eosAssert (account != cfg.gasAccountName) .resourceLimitException
    "can not set the resource limits of account ${a}"
  let _ ← getRow (db.limits account)
  return { db with limits := Function.update db.limits account (some ⟨gas, isUnlimited⟩) }

def ResourceDb.used (db : ResourceDb) (resource : ResourceUsage → UInt64) (a : AccountName) : ℕ :=
  ((db.usage a).map fun u => (resource u).toNat).getD 0

structure UsageKept (db db' : ResourceDb) : Prop where
  usage : db'.usage = db.usage
  cpu : db'.state.totalCpuUsage = db.state.totalCpuUsage
  net : db'.state.totalNetUsage = db.state.totalNetUsage
  ram : db'.state.totalRamUsage = db.state.totalRamUsage

/-- The databases that are reached from an empty one. Each call may be made under another
configuration. -/
inductive UsageRun : ResourceDb → Prop
  | empty (accounts : AccountName → Option TokenRow) :
      UsageRun ⟨fun _ => none, fun _ => none, ⟨0, 0, 0, 0, 0, 0, 0⟩, accounts⟩
  | initializeAccount {db db' : ResourceDb} {account : AccountName} :
      UsageRun db → initializeAccount db account = .ok db' → UsageRun db'
  | setAccountLimits {cfg : ResourceConfig} {db db' : ResourceDb} {account : AccountName}
      {gas : UInt64} {isUnlimited : Bool} :
      UsageRun db → setAccountLimits cfg db account gas isUnlimited = .ok db' → UsageRun db'
  | addTransactionUsage {cfg : ResourceConfig} {db db' : ResourceDb}
      {res res' : TransactionResUsage} {trace : Option AccountGasTrace} :
      UsageRun db → addTransactionUsage cfg db res = .ok (db', res', trace) → UsageRun db'
  | addRamUsage {cfg : ResourceConfig} {db db' : ResourceDb} {account : AccountName}
      {ramDelta : Int64} {trace : Option AccountGasTrace} :
      UsageRun db → addRamUsage cfg db account ramDelta = .ok (db', trace) → UsageRun db'
  /-- a token transfer or the end of a block -/
  | other {db db' : ResourceDb} : UsageRun db → UsageKept db db' → UsageRun db'

variable {payer : AccountName} {limits : AccountLimits} {trace : AccountGasTrace}

theorem UsageKept.refl (db : ResourceDb) : UsageKept db db := ⟨rfl, rfl, rfl, rfl⟩

theorem UsageKept.trans {db'' : ResourceDb} (h : UsageKept db db') (h' : UsageKept db' db'') :
    UsageKept db db'' :=
  ⟨h'.usage.trans h.usage, h'.cpu.trans h.cpu, h'.net.trans h.net, h'.ram.trans h.ram⟩

theorem payGas_usageKept {cgs : CoreGasAccessor} {gas : UInt64}
    (h : cgs.payGas cfg db gas = .ok db') : UsageKept db db' := by
  unfold CoreGasAccessor.payGas at h
  simp only [bind_eq_ok] at h
  obtain ⟨quant, -, _, -, _, -, _, -, _, -, h⟩ := h
  cases h
  exact ⟨rfl, rfl, rfl, rfl⟩

theorem setAccountReservedGas_usageKept (gas : UInt64) :
    UsageKept db (setAccountReservedGas db payer limits gas) := by
  unfold setAccountReservedGas
  split_ifs
  · exact .refl db
  · exact ⟨rfl, rfl, rfl, rfl⟩

theorem chargeTransaction_usageKept {usedGas : UInt64}
    (h : chargeTransaction cfg db payer limits usedGas = .ok (db', trace)) : UsageKept db db' := by
  unfold chargeTransaction at h
  simp only [bind_eq_ok] at h
  obtain ⟨cgs, -, _, -, _, -, h⟩ := h
  split_ifs at h
  · cases cgs with
    | none => cases h
    | some cgs =>
      obtain ⟨paid, hpay, h⟩ := bind_eq_ok.mp h
      cases h
      exact (payGas_usageKept hpay).trans (setAccountReservedGas_usageKept 0)
  · cases h
    exact setAccountReservedGas_usageKept _

theorem payRam_usageKept {cgs : Option CoreGasAccessor}
    {reservedGas usedGas left converted : UInt64}
    (h : payRam cfg db cgs reservedGas usedGas = .ok (db', left, converted)) :
    UsageKept db db' := by
  unfold payRam at h
  cases cgs with
  | none =>
    cases h
    exact .refl db
  | some cgs =>
    dsimp only at h
    split_ifs at h
    · obtain ⟨paid, hpay, h⟩ := bind_eq_ok.mp h
      cases h
      exact payGas_usageKept hpay
    · cases h
      exact .refl db

theorem changeRamGas_usageKept
    (h : changeRamGas cfg db payer limits ramDelta = .ok (db', trace)) : UsageKept db db' := by
  unfold changeRamGas at h
  split_ifs at h
  · unfold chargeRam at h
    simp only [bind_eq_ok] at h
    obtain ⟨used, -, cgs, -, _, -, _, -, ⟨paid, left, converted⟩, hpay, _, -, _, -, _, -, h⟩ := h
    cases h
    have hset : UsageKept db (setAccountReservedGas paid payer limits left) :=
      (payRam_usageKept hpay).trans (setAccountReservedGas_usageKept left)
    exact ⟨hset.usage, hset.cpu, hset.net, hset.ram⟩
  · unfold refundRam at h
    simp only [bind_eq_ok] at h
    obtain ⟨gas, -, _, -, _, -, h⟩ := h
    cases h
    exact setAccountReservedGas_usageKept _

variable {u : ResourceUsage} {resource : ResourceUsage → UInt64}

theorem used_of_usage
    (h : db.usage account = some u) : db.used resource account = (resource u).toNat := by
  rw [used, h]
  rfl

theorem used_congr (h : db'.usage = db.usage) (resource : ResourceUsage → UInt64) :
    db'.used resource = db.used resource := by
  unfold used
  rw [h]

theorem used_of_ne (h : db'.usage = Function.update db.usage account (some u))
    (resource : ResourceUsage → UInt64) {a : AccountName} (ha : a ≠ account) :
    db'.used resource a = db.used resource a := by
  rw [used, used, h, update_of_ne ha]

structure Tallied (db : ResourceDb) : Prop where
  cpu : Tallies db.state.totalCpuUsage.toNat (db.used cpuUsage)
  net : Tallies db.state.totalNetUsage.toNat (db.used netUsage)
  ram : Tallies db.state.totalRamUsage.toNat (db.used ramUsage)

theorem Tallied.of_same (h : Tallied db) (hsame : UsageKept db db') : Tallied db' := by
  refine ⟨?_, ?_, ?_⟩
  · rw [hsame.cpu, used_congr hsame.usage]
    exact h.cpu
  · rw [hsame.net, used_congr hsame.usage]
    exact h.net
  · rw [hsame.ram, used_congr hsame.usage]
    exact h.ram

theorem createRow_eq_ok {α : Type} {rows rows' : AccountName → Option α} {row : α} :
    createRow rows account row = .ok rows' ↔
      rows account = none ∧ rows' = Function.update rows account (some row) := by
  unfold createRow
  cases rows account with
  | none => simp [eq_comm]
  | some old => simp

theorem Tallied.initializeAccount (h : Tallied db)
    (hok : initializeAccount db account = .ok db') : Tallied db' := by
  unfold FlonCore.initializeAccount at hok
  simp only [bind_eq_ok] at hok
  obtain ⟨limits, -, usage, husage, hok⟩ := hok
  obtain ⟨hnone, rfl⟩ := createRow_eq_ok.mp husage
  cases hok
  have hused : ∀ resource : ResourceUsage → UInt64, resource ⟨0, 0, 0⟩ = 0 →
      used { db with
        limits := limits
        usage := Function.update db.usage account (some ⟨0, 0, 0⟩) } resource =
      db.used resource := by
    intro resource hzero
    funext a
    by_cases ha : a = account
    · subst ha
      simp [used, hnone, hzero]
    · exact used_of_ne rfl resource ha
  refine ⟨?_, ?_, ?_⟩
  · rw [hused _ rfl]
    exact h.cpu
  · rw [hused _ rfl]
    exact h.net
  · rw [hused _ rfl]
    exact h.ram

theorem tallies_count {total total' units : UInt64} {description description' : String}
    {u u' : ResourceUsage}
    (h : Tallies total.toNat (db.used resource)) (hu : db.usage account = some u)
    (husage : db'.usage = Function.update db.usage account (some u'))
    (hrow : verifyAdd (resource u) units description = .ok ())
    (htotal : verifyAdd total units description' = .ok ())
    (hu' : resource u' = resource u + units) (htotal' : total' = total + units) :
    Tallies total'.toNat (db'.used resource) := by
  refine h.change (x := (units.toNat : ℤ)) ?_ ?_ fun a => used_of_ne husage resource
  · rw [htotal', toNat_add_of_verifyAdd htotal]
    norm_cast
  · rw [used_of_usage hu, used_of_usage (by rw [husage, update_self]), hu',
      toNat_add_of_verifyAdd hrow]
    norm_cast

theorem Tallied.countTransaction {res : TransactionResUsage}
    {usedGas : UInt64} (h : Tallied db) (hu : db.usage res.payer = some u)
    (hok : countTransaction cfg db res u usedGas = .ok db') : Tallied db' := by
  unfold FlonCore.countTransaction at hok
  simp only [bind_eq_ok] at hok
  obtain ⟨_, hcpu, _, hnet, _, -, _, -, _, htotalCpu, _, htotalNet, _, -, _, -, hok⟩ := hok
  cases hok
  refine ⟨tallies_count h.cpu hu rfl hcpu htotalCpu rfl rfl,
    tallies_count h.net hu rfl hnet htotalNet rfl rfl, ?_⟩
  refine h.ram.change (x := 0) (by simp) ?_ fun a => used_of_ne rfl _
  rw [used_of_usage hu, used_of_usage (update_self ..)]
  simp

variable {trace : Option AccountGasTrace}

theorem Tallied.addTransactionUsage {res res' : TransactionResUsage}
    (h : Tallied db)
    (hok : addTransactionUsage cfg db res = .ok (db', res', trace)) : Tallied db' := by
  unfold FlonCore.addTransactionUsage at hok
  simp only [bind_eq_ok, getRow_eq_ok] at hok
  obtain ⟨u, hu, limits, -, hok⟩ := hok
  split_ifs at hok
  · obtain ⟨counted, hcount, hok⟩ := bind_eq_ok.mp hok
    cases hok
    exact h.countTransaction hu hcount
  · simp only [bind_eq_ok] at hok
    obtain ⟨⟨res'', usedGas⟩, hcalc, ⟨charged, t⟩, hcharge, _, -, _, -, counted, hcount, hok⟩ := hok
    cases hok
    have hsame := chargeTransaction_usageKept hcharge
    have hpayer : res''.payer = res.payer := by
      unfold calcTransactionGasUsage at hcalc
      simp only [bind_eq_ok] at hcalc
      obtain ⟨_, -, _, -, _, -, hcalc⟩ := hcalc
      cases hcalc
      rfl
    refine (h.of_same hsame).countTransaction ?_ hcount
    rw [hsame.usage, hpayer]
    exact hu

theorem Tallied.countRam {description insufficient : String} (h : Tallied db)
    (hzero : ramDelta ≠ 0) (hu : db.usage account = some u)
    (hcheck : checkDelta u.ramUsage ramDelta description insufficient = .ok ())
    (hok : countRam cfg db account u ramDelta = .ok db') : Tallied db' := by
  unfold FlonCore.countRam at hok
  simp only [bind_eq_ok] at hok
  obtain ⟨_, htotal, _, -, hok⟩ := hok
  cases hok
  refine ⟨?_, ?_, ?_⟩
  · refine h.cpu.change (x := 0) (by simp) ?_ fun a => used_of_ne rfl _
    rw [used_of_usage hu, used_of_usage (update_self ..)]
    simp
  · refine h.net.change (x := 0) (by simp) ?_ fun a => used_of_ne rfl _
    rw [used_of_usage hu, used_of_usage (update_self ..)]
    simp
  · refine h.ram.change (toNat_add_of_checkDelta hzero htotal) ?_ fun a => used_of_ne rfl _
    rw [used_of_usage hu, used_of_usage (update_self ..)]
    exact toNat_add_of_checkDelta hzero hcheck

theorem Tallied.addRamUsage (h : Tallied db)
    (hok : addRamUsage cfg db account ramDelta = .ok (db', trace)) : Tallied db' := by
  unfold FlonCore.addRamUsage at hok
  split_ifs at hok with hzero
  · cases hok
    exact h
  · simp only [bind_eq_ok, getRow_eq_ok] at hok
    obtain ⟨u, hu, _, hcheck, limits, -, hok⟩ := hok
    split_ifs at hok
    · obtain ⟨counted, hcount, hok⟩ := bind_eq_ok.mp hok
      cases hok
      exact h.countRam hzero hu hcheck hcount
    · simp only [bind_eq_ok] at hok
      obtain ⟨⟨charged, t⟩, hchange, counted, hcount, hok⟩ := hok
      cases hok
      have hsame := changeRamGas_usageKept hchange
      exact (h.of_same hsame).countRam hzero (by rw [hsame.usage, hu]) hcheck hcount

theorem setAccountLimits_usageKept {gas : UInt64} {isUnlimited : Bool}
    (h : setAccountLimits cfg db account gas isUnlimited = .ok db') : UsageKept db db' := by
  unfold setAccountLimits at h
  simp only [bind_eq_ok] at h
  obtain ⟨_, -, _, -, h⟩ := h
  cases h
  exact ⟨rfl, rfl, rfl, rfl⟩

theorem UsageRun.tallied (h : UsageRun db) : Tallied db := by
  induction h with
  | empty accounts => exact ⟨tallies_zero, tallies_zero, tallies_zero⟩
  | initializeAccount _ hok ih => exact ih.initializeAccount hok
  | setAccountLimits _ hok ih => exact ih.of_same (setAccountLimits_usageKept hok)
  | addTransactionUsage _ hok ih => exact ih.addTransactionUsage hok
  | addRamUsage _ hok ih => exact ih.addRamUsage hok
  | other _ hsame ih => exact ih.of_same hsame

variable {e : Failure}

theorem getRow_error {α : Type} {row : Option α} (h : getRow row = .error e) :
    e.kind = .unknownKey := by
  cases row with
  | none =>
    cases h
    rfl
  | some a => cases h

theorem convertRamToGas_error {value : UInt64} (h : convertRamToGas cfg value = .error e) :
    e.kind = .calcOverflowException := by
  unfold convertRamToGas multiplyDecimalCeil at h
  split_ifs at h
  rcases bind_eq_error.mp h with h | ⟨_, -, h⟩
  · rw [(eosAssert_eq_error.mp h).2]
  · cases h

theorem refundRam_error (h : refundRam cfg db account limits ramDelta = .error e) :
    e.kind = .calcOverflowException := by
  rcases bind_eq_error.mp h with h | ⟨gas, -, h⟩
  · exact convertRamToGas_error h
  rcases bind_eq_error.mp h with h | ⟨_, -, h⟩
  · rw [(eosAssert_eq_error.mp h).2]
  rcases bind_eq_error.mp h with h | ⟨_, -, h⟩
  · rw [(eosAssert_eq_error.mp h).2]
  · cases h

variable {description insufficient : String}

theorem checkDelta_neg {bytes : UInt64} (hneg : ramDelta < 0) :
    checkDelta bytes ramDelta description insufficient =
      eosAssert ((-ramDelta).toUInt64 ≤ bytes) .transactionException insufficient :=
  if_neg (Int64.not_lt.mpr (Int64.le_of_lt hneg))

section
variable (h : Tallied db) (hneg : ramDelta < 0)
include h hneg

theorem Tallied.checkDelta
    {description insufficient description' insufficient' : String} (hu : db.usage account = some u)
    (hcheck : checkDelta u.ramUsage ramDelta description insufficient = .ok ()) :
    checkDelta db.state.totalRamUsage ramDelta description' insufficient' = .ok () := by
  rw [checkDelta_neg hneg, eosAssert_eq_ok, decide_eq_true_eq, UInt64.le_iff_toNat_le] at hcheck ⊢
  have hle := h.ram.entry_le account
  rw [used_of_usage hu] at hle
  exact hcheck.trans hle

theorem countRam_error_kind (hu : db.usage account = some u)
    (hcheck : checkDelta u.ramUsage ramDelta description insufficient = .ok ())
    (herr : countRam cfg db account u ramDelta = .error e) :
    e.kind = .resourceExhaustedException := by
  unfold countRam at herr
  rw [h.checkDelta hneg hu hcheck] at herr
  rcases bind_eq_error.mp herr with herr | ⟨_, -, herr⟩
  · cases herr
  rcases bind_eq_error.mp herr with herr | ⟨_, -, herr⟩
  · rw [(eosAssert_eq_error.mp herr).2]
  · cases herr

theorem addRamUsage_error_kind (herr : addRamUsage cfg db account ramDelta = .error e) :
    e.kind ≠ .transactionException ∨
      e = ⟨.transactionException, "Ram usage insufficent when substracting delta"⟩ := by
  have hzero : ramDelta ≠ 0 := Int64.ne_of_lt hneg
  rw [addRamUsage, if_neg hzero] at herr
  rcases bind_eq_error.mp herr with herr | ⟨u, hu, herr⟩
  · left
    rw [getRow_error herr]
    decide
  rw [getRow_eq_ok] at hu
  rcases bind_eq_error.mp herr with herr | ⟨_, hcheck, herr⟩
  · rw [checkDelta_neg hneg] at herr
    exact .inr (eosAssert_eq_error.mp herr).2
  left
  rcases bind_eq_error.mp herr with herr | ⟨limits, -, herr⟩
  · rw [getRow_error herr]
    decide
  split_ifs at herr
  · rcases bind_eq_error.mp herr with herr | ⟨_, -, herr⟩
    · rw [countRam_error_kind h hneg hu hcheck herr]
      decide
    · cases herr
  · rcases bind_eq_error.mp herr with herr | ⟨⟨charged, trace⟩, hchange, herr⟩
    · rw [changeRamGas, if_neg (Int64.not_lt.mpr (Int64.le_of_lt hneg))] at herr
      rw [refundRam_error herr]
      decide
    have hsame := changeRamGas_usageKept hchange
    rcases bind_eq_error.mp herr with herr | ⟨_, -, herr⟩
    · rw [countRam_error_kind (h.of_same hsame) hneg (by rw [hsame.usage, hu]) hcheck herr]
      decide
    · cases herr

end

/-- The totals are the sums over the accounts, and a delta that an account can give back never
fails for the total. -/
theorem usage_totals_eq_sums (h : UsageRun db) :
    db.state.totalCpuUsage.toNat = ∑ a, db.used cpuUsage a ∧
    db.state.totalNetUsage.toNat = ∑ a, db.used netUsage a ∧
    db.state.totalRamUsage.toNat = ∑ a, db.used ramUsage a ∧
    (∀ account u ramDelta, db.usage account = some u → ramDelta < 0 →
      checkDelta u.ramUsage ramDelta "delta to existed ram usage of account"
        "Ram usage insufficent when substracting delta" = .ok () →
      checkDelta db.state.totalRamUsage ramDelta "delta to total ram usage"
        "Total ram usage insufficent when substracting delta" = .ok ()) ∧
    ∀ cfg account ramDelta, ramDelta < 0 → addRamUsage cfg db account ramDelta ≠
      .error ⟨.transactionException, "Total ram usage insufficent when substracting delta"⟩ := by
  have htallied := h.tallied
  refine ⟨htallied.cpu, htallied.net, htallied.ram, ?_, ?_⟩
  · intro account u ramDelta hu hneg hcheck
    exact htallied.checkDelta hneg hu hcheck
  · intro cfg account ramDelta hneg herr
    rcases addRamUsage_error_kind htallied hneg herr with hkind | heq
    · exact hkind rfl
    · exact absurd (congrArg Failure.message heq) (by decide)

theorem usage_totals_after_refund : ∃ db, UsageRun db ∧
    db.usage 1 = some ⟨3, 4, 2⟩ ∧ db.usage 2 = some ⟨5, 6, 8⟩ ∧
    ∑ a, db.used cpuUsage a = 10 ∧ ∑ a, db.used netUsage a = 8 ∧
    ∑ a, db.used ramUsage a = 10 ∧
    checkDelta db.state.totalRamUsage (-8) "delta to total ram usage"
      "Total ram usage insufficent when substracting delta" = .ok () := by
  have h := UsageRun.empty fun _ => none
  have hfirst := h.initializeAccount (show initializeAccount _ 1 = .ok _ from rfl)
  have hsecond := hfirst.initializeAccount (show initializeAccount _ 2 = .ok _ from rfl)
  have hlimited := hsecond.setAccountLimits
    (show setAccountLimits unitRates _ 1 100 false = .ok _ from rfl)
  have hram := hlimited.addRamUsage (show addRamUsage unitRates _ 1 7 = .ok (_, _) from rfl)
  have hother := hram.addRamUsage (show addRamUsage unitRates _ 2 8 = .ok (_, _) from rfl)
  have hback := hother.addRamUsage (show addRamUsage unitRates _ 1 (-5) = .ok (_, _) from rfl)
  have htrx := hback.addTransactionUsage
    (show addTransactionUsage unitRates _ ⟨1, 3, 0, 4, 0⟩ = .ok (_, _, _) from rfl)
  have hlast := htrx.addTransactionUsage
    (show addTransactionUsage unitRates _ ⟨2, 5, 0, 6, 0⟩ = .ok (_, _, _) from rfl)
  obtain ⟨hcpu, hnet, hramSum, hcheck, -⟩ := usage_totals_eq_sums hlast
  exact ⟨_, hlast, rfl, rfl, hcpu.symm.trans rfl, hnet.symm.trans rfl, hramSum.symm.trans rfl,
    hcheck 2 _ (-8) rfl (by decide) rfl⟩

end FlonCore
