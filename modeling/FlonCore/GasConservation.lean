import FlonCore.Library.Ledger
import FlonCore.ResourceLimits
import Mathlib.Data.FinEnum

/-!
# Gas and tokens are conserved

A charge takes exactly the used gas from the payer, first from its reserved gas
and then from its core tokens, and what it takes from the tokens arrives at the
gas account. The two routines that charge split the gas in their own ways;
`GasMoved` says what both do.
-/

namespace FlonCore
open Library Function UInt64
open CoreAssetAccount CoreGasAccessor ResourceDb
variable {cfg : ResourceConfig} {db db' : ResourceDb}

def ResourceDb.reservedGas (db : ResourceDb) (a : AccountName) : ℕ :=
  ((db.limits a).map fun l => l.gas.toNat).getD 0

def ResourceDb.coreBalance (db : ResourceDb) (a : AccountName) : ℤ :=
  match db.accounts a with
  | some (.account balance _) => balance.amount
  | _ => 0

theorem toNat_maxU64 : maxU64.toNat = 2 ^ 64 - 1 := rfl

theorem le_maxU64 (x : UInt64) : x ≤ maxU64 := by
  have hx := x.toNat_lt
  rw [le_iff_toNat_le, toNat_maxU64]
  omega

theorem verifyAdd_eq_ok {a b : UInt64} {description : String} :
    verifyAdd a b description = .ok () ↔ a.toNat + b.toNat < 2 ^ 64 := by
  have ha := a.toNat_lt
  rw [verifyAdd, eosAssert_eq_ok, decide_eq_true_eq, le_iff_toNat_le,
    UInt64.toNat_sub_of_le _ _ (le_maxU64 a), toNat_maxU64]
  omega

theorem toNat_add_of_verifyAdd {a b : UInt64} {description : String}
    (h : verifyAdd a b description = .ok ()) : (a + b).toNat = a.toNat + b.toNat := by
  rw [UInt64.toNat_add, Nat.mod_eq_of_lt (verifyAdd_eq_ok.mp h)]

theorem CoreAssetAccount.create_eq_some {a : AccountName} {acc : CoreAssetAccount}
    (h : create cfg db a = .ok (some acc)) :
    acc.owner = a ∧ db.accounts a = some (.account acc.balance acc.remainingData) ∧
      acc.balance.amount < 2 ^ 62 := by
  unfold create at h
  split at h
  · cases h
  · cases h
  · rename_i balance remaining hrow
    rw [seq_eq_ok, seq_eq_ok, Asset.checkRange, eosAssert_eq_ok, Bool.and_eq_true,
      decide_eq_true_eq, decide_eq_true_eq] at h
    obtain ⟨⟨-, hle⟩, -, h⟩ := h
    cases h
    exact ⟨rfl, hrow, Int.lt_of_le_sub_one hle⟩

structure Accesses (cfg : ResourceConfig) (db : ResourceDb) (payer : AccountName)
    (cgs : CoreGasAccessor) : Prop where
  payer_owner : cgs.payerGasAccount.owner = payer
  payer_row : db.accounts payer =
    some (.account cgs.payerGasAccount.balance cgs.payerGasAccount.remainingData)
  sys_owner : cgs.sysGasAccount.owner = cfg.gasAccountName
  sys_row : db.accounts cfg.gasAccountName =
    some (.account cgs.sysGasAccount.balance cgs.sysGasAccount.remainingData)
  convertible_pos : 0 < cgs.convertibleGas
  convertible_eq : (cgs.convertibleGas.toNat : ℤ) = cgs.payerGasAccount.balance.amount

variable {payer : AccountName} {cgs : CoreGasAccessor}

theorem CoreGasAccessor.create_eq_some
    (h : CoreGasAccessor.create cfg db payer = .ok (some cgs)) : Accesses cfg db payer cgs := by
  unfold CoreGasAccessor.create at h
  obtain ⟨acc, hacc, h⟩ := bind_eq_ok.mp h
  cases acc with
  | none => cases h
  | some acc =>
    dsimp only at h
    split_ifs at h with hzero
    · cases h
    · obtain ⟨sys, hsys, h⟩ := bind_eq_ok.mp h
      cases sys with
      | none => cases h
      | some sys =>
        cases h
        obtain ⟨howner, hrow, hlt⟩ := CoreAssetAccount.create_eq_some hacc
        obtain ⟨hsysOwner, hsysRow, -⟩ := CoreAssetAccount.create_eq_some hsys
        refine ⟨howner, hrow, hsysOwner, hsysRow, UInt64.pos_iff_ne_zero.mpr hzero, ?_⟩
        unfold convertCoreAssetToGas at hzero ⊢
        split_ifs at hzero ⊢ with hpos
        · rw [toNat_ofNat_of_lt' (by simp [UInt64.size]; omega)]
          exact Int.toNat_of_nonneg hpos.le
        · exact absurd rfl hzero

theorem coreBalance_save (acc : CoreAssetAccount) (a : AccountName) :
    (save db acc).coreBalance a =
      if a = acc.owner then acc.balance.amount else db.coreBalance a := by
  unfold coreBalance save
  by_cases ha : a = acc.owner
  · simp [ha]
  · simp [ha]

structure Transfer (cfg : ResourceConfig) (db db' : ResourceDb) (payer : AccountName)
    (amount : ℕ) : Prop where
  usage_eq : db'.usage = db.usage
  state_eq : db'.state = db.state
  payer_balance : db'.coreBalance payer = db.coreBalance payer - amount
  gas_balance : db'.coreBalance cfg.gasAccountName = db.coreBalance cfg.gasAccountName + amount
  accounts_eq : ∀ a, a ≠ payer → a ≠ cfg.gasAccountName → db'.accounts a = db.accounts a

theorem Accesses.transfer
    (h : Accesses cfg db payer cgs) (hne : payer ≠ cfg.gasAccountName) {gas : UInt64}
    (hpay : cgs.payGas cfg db gas = .ok db') :
    Transfer cfg db db' payer gas.toNat ∧ db'.limits = db.limits := by
  unfold payGas convertGasToCoreAsset at hpay
  simp only [bind_eq_ok] at hpay
  obtain ⟨quant, ⟨_, -, _, -, hquant⟩, _, -, _, -, _, -, _, -, hsave⟩ := hpay
  cases hquant
  cases hsave
  have hpayer : db.coreBalance payer = cgs.payerGasAccount.balance.amount := by
    rw [coreBalance, h.payer_row]
  have hsys : db.coreBalance cfg.gasAccountName = cgs.sysGasAccount.balance.amount := by
    rw [coreBalance, h.sys_row]
  refine ⟨⟨rfl, rfl, ?_, ?_, ?_⟩, rfl⟩
  · rw [coreBalance_save, coreBalance_save, hpayer]
    simp [h.sys_owner, h.payer_owner, hne]
  · rw [coreBalance_save, hsys]
    simp [h.sys_owner]
  · intro a hp hg
    simp [save, h.sys_owner, h.payer_owner, update_of_ne hp, update_of_ne hg]

theorem transfer_zero (cfg : ResourceConfig) (db : ResourceDb) (payer : AccountName) :
    Transfer cfg db db payer 0 :=
  ⟨rfl, rfl, by simp, by simp, fun _ _ _ => rfl⟩

theorem Transfer.sum_eq {amount : ℕ} (h : Transfer cfg db db' payer amount)
    (hne : payer ≠ cfg.gasAccountName) : ∑ a, db'.coreBalance a = ∑ a, db.coreBalance a := by
  refine sum_eq_of_transfer hne h.payer_balance h.gas_balance fun a hp hg => ?_
  rw [coreBalance, coreBalance, h.accounts_eq a hp hg]

variable {limits : AccountLimits} {used reserved converted : UInt64}

structure GasMoved (cfg : ResourceConfig) (db db' : ResourceDb) (payer : AccountName)
    (limits : AccountLimits) (used reserved converted : UInt64) : Prop where
  transfer : Transfer cfg db db' payer converted.toNat
  limits_eq : db'.limits = update db.limits payer (some { limits with gas := reserved })
  converted_eq : converted.toNat = used.toNat - limits.gas.toNat
  split : reserved.toNat + used.toNat = limits.gas.toNat + converted.toNat

theorem setAccountReservedGas_eq (hl : db.limits payer = some limits) (gas : UInt64) :
    setAccountReservedGas db payer limits gas = { db with
      limits := update db.limits payer (some { limits with gas := gas }) } := by
  unfold setAccountReservedGas
  split_ifs with hgas
  · have hsame : some { limits with gas := gas } = db.limits payer := by rw [hl, ← hgas]
    rw [hsame, update_eq_self]
  · rfl

variable {paid : ResourceDb}

theorem Transfer.setAccountReservedGas {amount : ℕ}
    (h : Transfer cfg db paid payer amount) (hl : paid.limits payer = some limits) (gas : UInt64) :
    Transfer cfg db (setAccountReservedGas paid payer limits gas) payer amount := by
  rw [setAccountReservedGas_eq hl]
  exact ⟨h.usage_eq, h.state_eq, h.payer_balance, h.gas_balance, h.accounts_eq⟩

theorem accessorFor_eq_some (h : accessorFor cfg db payer reserved used = .ok (some cgs)) :
    reserved < used ∧ Accesses cfg db payer cgs := by
  unfold accessorFor at h
  split_ifs at h with hlt
  · exact ⟨hlt, create_eq_some h⟩
  · cases h

theorem countTransaction_frame {res : TransactionResUsage} {usage : ResourceUsage}
    (h : countTransaction cfg db res usage used = .ok db') :
    db'.limits = db.limits ∧ db'.accounts = db.accounts ∧
      db'.state.totalGasConsumed = db.state.totalGasConsumed + used := by
  unfold countTransaction at h
  simp only [bind_eq_ok] at h
  obtain ⟨_, -, _, -, _, -, _, -, _, -, _, -, _, -, _, -, h⟩ := h
  cases h
  exact ⟨rfl, rfl, rfl⟩

theorem countRam_frame {account : AccountName} {usage : ResourceUsage} {ramDelta : Int64}
    (h : countRam cfg db account usage ramDelta = .ok db') :
    db'.limits = db.limits ∧ db'.accounts = db.accounts ∧
      db'.state.totalGasConsumed = db.state.totalGasConsumed ∧
      db'.usage = update db.usage account
        (some { usage with ramUsage := usage.ramUsage + ramDelta.toUInt64 }) := by
  unfold countRam at h
  simp only [bind_eq_ok] at h
  obtain ⟨_, -, _, -, h⟩ := h
  cases h
  exact ⟨rfl, rfl, rfl, rfl⟩

section
variable (hl : db.limits payer = some limits)
include hl

theorem gasMoved_of_le (hle : used ≤ limits.gas) :
    GasMoved cfg db (setAccountReservedGas db payer limits (limits.gas - used)) payer limits used
      (limits.gas - used) 0 := by
  have hsub := UInt64.toNat_sub_of_le _ _ hle
  rw [le_iff_toNat_le] at hle
  refine ⟨(transfer_zero cfg db payer).setAccountReservedGas hl _, ?_, ?_, ?_⟩
  · rw [setAccountReservedGas_eq hl]
  · simp
    omega
  · simp
    omega

variable (hne : payer ≠ cfg.gasAccountName)
include hne

theorem gasMoved_of_pay (hlt : limits.gas < used) (hcgs : Accesses cfg db payer cgs)
    (hpay : cgs.payGas cfg db (used - limits.gas) = .ok paid) :
    GasMoved cfg db (setAccountReservedGas paid payer limits 0) payer limits used 0
      (used - limits.gas) := by
  have hsub := UInt64.toNat_sub_of_le _ _ (UInt64.le_of_lt hlt)
  rw [lt_iff_toNat_lt] at hlt
  obtain ⟨htransfer, hlimits⟩ := hcgs.transfer hne hpay
  have hl' : paid.limits payer = some limits := by rw [hlimits, hl]
  refine ⟨htransfer.setAccountReservedGas hl' 0, ?_, hsub, ?_⟩
  · rw [setAccountReservedGas_eq hl', hlimits]
  · simp
    omega

theorem chargeTransaction_moved {trace : AccountGasTrace}
    (h : chargeTransaction cfg db payer limits used = .ok (db', trace)) :
    ∃ reserved converted, GasMoved cfg db db' payer limits used reserved converted ∧
      trace = ⟨payer, limits.gas, reserved, used, converted, ⟨0, 0⟩⟩ := by
  unfold chargeTransaction at h
  obtain ⟨cgs, hcgs, h⟩ := bind_eq_ok.mp h
  rw [seq_eq_ok, seq_eq_ok] at h
  obtain ⟨-, -, h⟩ := h
  split_ifs at h with hlt
  · cases cgs with
    | none => cases h
    | some cgs =>
      obtain ⟨paid, hpay, h⟩ := bind_eq_ok.mp h
      cases h
      exact ⟨_, _, gasMoved_of_pay hl hne hlt (accessorFor_eq_some hcgs).2 hpay, rfl⟩
  · cases h
    exact ⟨_, _, gasMoved_of_le hl (UInt64.not_lt.mp hlt), rfl⟩

theorem payRam_moved {cgs : Option CoreGasAccessor}
    (hcgs : accessorFor cfg db payer limits.gas used = .ok cgs)
    (hused : used ≤ limits.gas + (cgs.map convertibleGas).getD 0)
    (h : payRam cfg db cgs limits.gas used = .ok (paid, reserved, converted)) :
    GasMoved cfg db (setAccountReservedGas paid payer limits reserved) payer limits used reserved
      converted := by
  unfold payRam at h
  cases cgs with
  | none =>
    cases h
    exact gasMoved_of_le hl (by simpa using hused)
  | some cgs =>
    obtain ⟨hlt, haccess⟩ := accessorFor_eq_some hcgs
    dsimp only at h
    rw [if_pos haccess.convertible_pos, bind_eq_ok] at h
    obtain ⟨paid', hpay, h⟩ := h
    cases h
    exact gasMoved_of_pay hl hne hlt haccess hpay

structure Consumed (db db' : ResourceDb) (used : UInt64) : Prop where
  consumed : db'.state.totalGasConsumed.toNat = db.state.totalGasConsumed.toNat + used.toNat
  value : db'.state.totalGasValueFlon.toNat = db.state.totalGasValueFlon.toNat + used.toNat
  ram : db'.state.totalRamUsage = db.state.totalRamUsage

theorem chargeRam_moved {ramDelta : Int64} {trace : AccountGasTrace}
    (h : chargeRam cfg db payer limits ramDelta = .ok (db', trace)) :
    ∃ used reserved converted charged, convertRamToGas cfg ramDelta.toUInt64 = .ok used ∧
      GasMoved cfg db charged payer limits used reserved converted ∧
      db'.limits = charged.limits ∧ db'.accounts = charged.accounts ∧ db'.usage = charged.usage ∧
      Consumed db db' used ∧
      trace = ⟨payer, limits.gas, reserved, used, converted, ⟨ramDelta, (-used).toInt64⟩⟩ := by
  unfold chargeRam at h
  obtain ⟨used, hused, h⟩ := bind_eq_ok.mp h
  obtain ⟨cgs, hcgs, h⟩ := bind_eq_ok.mp h
  rw [seq_eq_ok, seq_eq_ok, bind_eq_ok, eosAssert_eq_ok, decide_eq_true_eq] at h
  obtain ⟨-, hle, ⟨paid, reserved, converted⟩, hpaid, h⟩ := h
  rw [seq_eq_ok, seq_eq_ok, seq_eq_ok] at h
  obtain ⟨hconsumed, hvalue, -, h⟩ := h
  cases h
  have hmoved := payRam_moved hl hne hcgs hle hpaid
  refine ⟨used, reserved, converted, _, hused, hmoved, rfl, rfl, rfl, ⟨?_, ?_, ?_⟩, rfl⟩
  · exact (toNat_add_of_verifyAdd hconsumed).trans (by rw [hmoved.transfer.state_eq])
  · exact (toNat_add_of_verifyAdd hvalue).trans (by rw [hmoved.transfer.state_eq])
  · dsimp only
    rw [hmoved.transfer.state_eq]

structure Conserved (cfg : ResourceConfig) (db db' : ResourceDb) (payer : AccountName)
    (trace : AccountGasTrace) : Prop where
  payer_total : (db'.reservedGas payer : ℤ) + db'.coreBalance payer =
    db.reservedGas payer + db.coreBalance payer - trace.usedGas.toNat
  converted_eq : trace.convertedGas.toNat = trace.usedGas.toNat - db.reservedGas payer
  gas_balance : db'.coreBalance cfg.gasAccountName =
    db.coreBalance cfg.gasAccountName + trace.convertedGas.toNat
  supply : ∑ a, db'.coreBalance a = ∑ a, db.coreBalance a
  consumed : db'.state.totalGasConsumed.toNat =
    db.state.totalGasConsumed.toNat + trace.usedGas.toNat
  other_limits : ∀ a, a ≠ payer → db'.limits a = db.limits a
  other_accounts : ∀ a, a ≠ payer → a ≠ cfg.gasAccountName → db'.accounts a = db.accounts a
  account_eq : trace.account = payer
  before_eq : trace.reservedGasBefore.toNat = db.reservedGas payer
  after_eq : trace.reservedGasAfter.toNat = db'.reservedGas payer
  split : (trace.reservedGasAfter.toNat : ℤ) =
    trace.reservedGasBefore.toNat + trace.convertedGas.toNat - trace.usedGas.toNat

theorem GasMoved.conserved {charged : ResourceDb}
    (h : GasMoved cfg db charged payer limits used reserved converted)
    (hlimits : db'.limits = charged.limits) (haccounts : db'.accounts = charged.accounts)
    (hconsumed : db'.state.totalGasConsumed.toNat =
      db.state.totalGasConsumed.toNat + used.toNat) (delta : RamGasDelta) :
    Conserved cfg db db' payer ⟨payer, limits.gas, reserved, used, converted, delta⟩ := by
  have hbefore : db.reservedGas payer = limits.gas.toNat := by simp [reservedGas, hl]
  have hafter : db'.reservedGas payer = reserved.toNat := by
    simp [reservedGas, hlimits, h.limits_eq]
  have hbalance : ∀ a, db'.coreBalance a = charged.coreBalance a := by
    intro a
    rw [coreBalance, coreBalance, haccounts]
  have hsplit := h.split
  refine ⟨?_, ?_, ?_, ?_, hconsumed, ?_, ?_, rfl, hbefore.symm, hafter.symm, ?_⟩
  · rw [hbalance, h.transfer.payer_balance, hafter, hbefore]
    dsimp only
    omega
  · rw [hbefore]
    exact h.converted_eq
  · rw [hbalance]
    exact h.transfer.gas_balance
  · simp only [hbalance]
    exact h.transfer.sum_eq hne
  · intro a ha
    rw [hlimits, h.limits_eq, update_of_ne ha]
  · intro a ha hg
    rw [haccounts]
    exact h.transfer.accounts_eq a ha hg
  · dsimp only
    omega

theorem addRamUsage_conserved {ramDelta : Int64} {trx : Option AccountGasTrace}
    (hlimited : limits.isUnlimited = false) (hpos : 0 < ramDelta)
    (h : addRamUsage cfg db payer ramDelta = .ok (db', trx)) :
    ∃ trace, trx = some trace ∧ convertRamToGas cfg ramDelta.toUInt64 = .ok trace.usedGas ∧
      trace.ramGasDelta.ramDelta = ramDelta ∧ Conserved cfg db db' payer trace := by
  unfold addRamUsage at h
  rw [if_neg (by rintro rfl; exact absurd hpos (by decide)), bind_eq_ok] at h
  obtain ⟨usage, -, h⟩ := h
  rw [seq_eq_ok, hl, getRow, bind_eq_ok] at h
  obtain ⟨-, l, ⟨⟩, h⟩ := h
  rw [if_neg (by simp [hlimited]), changeRamGas, if_pos hpos, bind_eq_ok] at h
  obtain ⟨⟨charged, trace⟩, hcharge, h⟩ := h
  obtain ⟨counted, hcount, h⟩ := bind_eq_ok.mp h
  cases h
  obtain ⟨used, reserved, converted, charged', hused, hmoved, hlimits, haccounts, -, hconsumed,
    rfl⟩ := chargeRam_moved hl hne hcharge
  obtain ⟨hlimits', haccounts', hconsumed', -⟩ := countRam_frame hcount
  refine ⟨_, rfl, hused, rfl, hmoved.conserved hl hne (hlimits'.trans hlimits)
    (haccounts'.trans haccounts) ?_ _⟩
  rw [hconsumed']
  exact hconsumed.consumed

end

theorem addTransactionUsage_conserved {res res' : TransactionResUsage}
    {trx : Option AccountGasTrace} (hl : db.limits res.payer = some limits)
    (hlimited : limits.isUnlimited = false) (hne : res.payer ≠ cfg.gasAccountName)
    (h : addTransactionUsage cfg db res = .ok (db', res', trx)) :
    ∃ trace, trx = some trace ∧ calcTransactionGasUsage cfg res = .ok (res', trace.usedGas) ∧
      trace.ramGasDelta = ⟨0, 0⟩ ∧ Conserved cfg db db' res.payer trace := by
  unfold addTransactionUsage at h
  obtain ⟨usage, -, h⟩ := bind_eq_ok.mp h
  rw [hl, getRow, bind_eq_ok] at h
  obtain ⟨l, ⟨⟩, h⟩ := h
  rw [if_neg (by simp [hlimited]), bind_eq_ok] at h
  obtain ⟨⟨res'', used⟩, hcalc, h⟩ := h
  obtain ⟨⟨charged, trace⟩, hcharge, h⟩ := bind_eq_ok.mp h
  rw [seq_eq_ok, seq_eq_ok, bind_eq_ok] at h
  obtain ⟨hadd, -, counted, hcount, h⟩ := h
  cases h
  obtain ⟨reserved, converted, hmoved, rfl⟩ := chargeTransaction_moved hl hne hcharge
  obtain ⟨hlimits, haccounts, hconsumed⟩ := countTransaction_frame hcount
  refine ⟨_, rfl, hcalc, rfl, hmoved.conserved hl hne hlimits haccounts ?_ _⟩
  rw [hconsumed, toNat_add_of_verifyAdd hadd, hmoved.transfer.state_eq]

end FlonCore
