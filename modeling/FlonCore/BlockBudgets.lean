import FlonCore.BlockUsage
import FlonCore.Library.Session
import FlonCore.TransactionContext

/-!
# The budget of a block never wraps

The rest of a block's budget is an unchecked difference of the maximum and the usage
pending. What keeps it from wrapping is an assertion in another function, made after the
usage was written, and the session of the transaction, which takes the usage back when
the assertion fails. The maxima change at the end of a block only, together with the
usage, which starts again from zero.
-/

namespace FlonCore
open Library
open Call

section Calls
variable (cfg : ResourceConfig)

/-- `countTransaction` with its writes where the program makes them: the usage of the payer
before the counters of the block are checked, and the counters before the maxima are. -/
def countTransactionCall (res : TransactionResUsage) (usage : ResourceUsage) (usedGas : UInt64) :
    Call Failure ResourceDb Unit := do
  check (verifyAdd usage.cpuUsage res.cpuUsage "new cpu usage to existed of transaction payer")
  check (verifyAdd usage.netUsage res.netUsage "new net usage to existed of transaction payer")
  write fun db => { db with
    usage := Function.update db.usage res.payer (some { usage with
      cpuUsage := usage.cpuUsage + res.cpuUsage
      netUsage := usage.netUsage + res.netUsage }) }
  let db ← read
  check (verifyAdd db.state.pendingCpuUsage res.cpuUsage
    "new cpu usage to pending cpu usage of block")
  check (verifyAdd db.state.pendingNetUsage res.netUsage
    "new net usage to pending net usage of block")
  check (verifyAdd db.state.totalCpuUsage res.cpuUsage "new cpu usage to total cpu usage")
  check (verifyAdd db.state.totalNetUsage res.netUsage "new net usage to total net usage")
  write fun db => { db with
    state := { db.state with
      pendingCpuUsage := db.state.pendingCpuUsage + res.cpuUsage
      pendingNetUsage := db.state.pendingNetUsage + res.netUsage
      totalCpuUsage := db.state.totalCpuUsage + res.cpuUsage
      totalNetUsage := db.state.totalNetUsage + res.netUsage
      totalGasConsumed := db.state.totalGasConsumed + usedGas
      totalGasValueFlon := db.state.totalGasValueFlon + usedGas } }
  let db ← read
  check (eosAssert (db.state.pendingCpuUsage ≤ cfg.cpuLimitMax) .blockResourceExhausted
    "Block has insufficient cpu resources")
  check (eosAssert (db.state.pendingNetUsage ≤ cfg.netLimitMax) .blockResourceExhausted
    "Block has insufficient net resources")

/-- `addTransactionUsage` with its writes where the program makes them. Taking the gas from
the payer checks everything before it writes. -/
def addTransactionUsageCall (res : TransactionResUsage) :
    Call Failure ResourceDb (TransactionResUsage × Option AccountGasTrace) := do
  let db ← read
  let usage ← check (getRow (db.usage res.payer))
  let limits ← check (getRow (db.limits res.payer))
  if limits.isUnlimited then
    let res' := { res with netGas := 0, cpuGas := 0 }
    countTransactionCall cfg res' usage 0
    return (res', none)
  else
    let (res', usedGas) ← check (calcTransactionGasUsage cfg res)
    let (charged, trace) ← check (chargeTransaction cfg db res.payer limits usedGas)
    write fun _ => charged
    check (verifyAdd charged.state.totalGasConsumed usedGas "used gas to total gas consumed")
    check (verifyAdd charged.state.totalGasValueFlon usedGas
      "used gas value to total gas value in FLON")
    countTransactionCall cfg res' usage usedGas
    return (res', some trace)

theorem countTransactionCall_computes (db : ResourceDb) (res : TransactionResUsage)
    (usage : ResourceUsage) (usedGas : UInt64) :
    Call.Computes (fun db' => (db', ())) (countTransaction cfg db res usage usedGas)
      ((countTransactionCall cfg res usage usedGas).leaves db) := by
  refine computes_check_bind fun _ => computes_check_bind fun _ => ?_
  rw [leaves_write_bind, leaves_read_bind]
  iterate 2 refine computes_check_bind fun _ => computes_check_bind fun _ => ?_
  exact computes_check_bind fun _ => computes_check_pure rfl

theorem addTransactionUsageCall_computes (db : ResourceDb) (res : TransactionResUsage) :
    Call.Computes id (addTransactionUsage cfg db res)
      ((addTransactionUsageCall cfg res).leaves db) := by
  unfold addTransactionUsage addTransactionUsageCall
  rw [leaves_read_bind]
  refine computes_check_bind fun usage => computes_check_bind fun limits => ?_
  split_ifs
  · refine computes_bind (countTransactionCall_computes cfg db _ usage 0) fun db' => ?_
    exact computes_pure id _
  · refine computes_check_bind fun priced => computes_check_bind fun charge => ?_
    obtain ⟨res', usedGas⟩ := priced
    obtain ⟨charged, trace⟩ := charge
    rw [leaves_write_bind]
    refine computes_check_bind fun _ => computes_check_bind fun _ => ?_
    refine computes_bind (countTransactionCall_computes cfg charged res' usage usedGas)
      fun db' => ?_
    exact computes_pure id _

end Calls

namespace BlockLimits
variable (s : BlockLimits)

/-- A transaction in its session: its actions leave `worked`, then its usage is counted. -/
def runTransaction (maxTotalRamUsage : UInt64) (gasAccountName : AccountName) (coreSymbol : UInt64)
    (worked : ResourceDb) (res : TransactionResUsage) : BlockLimits :=
  { s with db := (addTransactionUsageCall
      (s.resourceConfig maxTotalRamUsage gasAccountName coreSymbol) res).inSession s.db worked }

structure WithinBudget : Prop where
  cpu : s.db.state.pendingCpuUsage ≤ s.cpuLimitParameters.max
  net : s.db.state.pendingNetUsage ≤ s.netLimitParameters.max

end BlockLimits

/-- The points of a chain where a transaction can start, with the limits at the start of the
block. A block ends with any parameters, or is given up and undone as a whole. -/
inductive InBlock : BlockLimits → BlockLimits → Prop
  | genesis (cfg : ChainConfig) (limits : AccountName → Option AccountLimits)
      (usage : AccountName → Option ResourceUsage) (accounts : AccountName → Option TokenRow) :
      InBlock (.initializeDatabase cfg limits usage accounts)
        (.initializeDatabase cfg limits usage accounts)
  | transaction {start s : BlockLimits} (maxTotalRamUsage : UInt64) (gasAccountName : AccountName)
      (coreSymbol : UInt64) (worked : ResourceDb) (res : TransactionResUsage) :
      InBlock start s →
      worked.state.pendingCpuUsage = s.db.state.pendingCpuUsage →
      worked.state.pendingNetUsage = s.db.state.pendingNetUsage →
      InBlock start (s.runTransaction maxTotalRamUsage gasAccountName coreSymbol worked res)
  | finish {start s installed s' : BlockLimits} {cfg : ChainConfig}
      {cpu net : ElasticLimitParameters} {blockNum : UInt32} :
      InBlock start s → s.setBlockParameters cfg cpu net = .ok installed →
      installed.processBlockUsage blockNum = .ok s' → InBlock s' s'
  | abort {start s : BlockLimits} : InBlock start s → InBlock start start

variable {start s s' : BlockLimits}

theorem BlockLimits.WithinBudget.runTransaction (h : s.WithinBudget) (maxTotalRamUsage : UInt64)
    (gasAccountName : AccountName) (coreSymbol : UInt64) (worked : ResourceDb)
    (res : TransactionResUsage) :
    (s.runTransaction maxTotalRamUsage gasAccountName coreSymbol worked res).WithinBudget := by
  have hcall := addTransactionUsageCall_computes
    (s.resourceConfig maxTotalRamUsage gasAccountName coreSymbol) worked res
  unfold BlockLimits.runTransaction
  cases hadd : addTransactionUsage
      (s.resourceConfig maxTotalRamUsage gasAccountName coreSymbol) worked res with
  | error e =>
    rw [hadd] at hcall
    rw [hcall.inSession_error]
    exact h
  | ok result =>
    rw [hadd] at hcall
    rw [hcall.inSession_ok]
    obtain ⟨hcpu, hnet⟩ := addTransactionUsage_pending hadd
    exact ⟨hcpu, hnet⟩

theorem BlockLimits.withinBudget_of_processBlockUsage {blockNum : UInt32}
    (h : s.processBlockUsage blockNum = .ok s') : s'.WithinBudget := by
  obtain ⟨_, _, _, _, -, -, -, -, rfl⟩ := processBlockUsage_eq_ok.mp h
  exact ⟨UInt64.zero_le, UInt64.zero_le⟩

theorem InBlock.withinBudget (h : InBlock start s) : start.WithinBudget ∧ s.WithinBudget := by
  induction h with
  | genesis => exact ⟨⟨UInt64.zero_le, UInt64.zero_le⟩, ⟨UInt64.zero_le, UInt64.zero_le⟩⟩
  | transaction maxTotalRamUsage gasAccountName coreSymbol worked res _ _ _ ih =>
    exact ⟨ih.1, ih.2.runTransaction _ _ _ worked res⟩
  | finish _ _ hprocess _ =>
    have hbudget := BlockLimits.withinBudget_of_processBlockUsage hprocess
    exact ⟨hbudget, hbudget⟩
  | abort _ ih => exact ⟨ih.1, ih.1⟩

theorem toNat_sub_eq_sub {x y : UInt64} (h : y ≤ x) : ((x - y).toNat : ℤ) = x.toNat - y.toNat := by
  rw [UInt64.toNat_sub_of_le _ _ h]
  exact Nat.cast_sub (UInt64.le_iff_toNat_le.mp h)

/-- Wherever a transaction can start the pending usage is within the maxima, so the limits
read there are what is left of the budget. -/
theorem block_budget_never_wraps {start s : BlockLimits} (h : InBlock start s) :
    s.db.state.pendingCpuUsage ≤ s.cpuLimitParameters.max ∧
      s.db.state.pendingNetUsage ≤ s.netLimitParameters.max ∧
      ((getBlockCpuLimit s.cpuLimitParameters.max s.db.state).toNat : ℤ) =
        s.cpuLimitParameters.max.toNat - s.db.state.pendingCpuUsage.toNat ∧
      ((getBlockNetLimit s.netLimitParameters.max s.db.state).toNat : ℤ) =
        s.netLimitParameters.max.toNat - s.db.state.pendingNetUsage.toNat := by
  have hbudget := h.withinBudget.2
  exact ⟨hbudget.cpu, hbudget.net, toNat_sub_eq_sub hbudget.cpu, toNat_sub_eq_sub hbudget.net⟩

def openLimits : BlockLimits :=
  .initializeDatabase overfullConfig (fun _ => some ⟨0, true⟩) (fun _ => some ⟨0, 0, 0⟩)
    fun _ => none

-- A transaction that is too long leaves its usage pending, and only the session takes it back.
example : ((addTransactionUsageCall (openLimits.resourceConfig 0 0 0)
    ⟨1, 8, 0, 300000, 0⟩).leaves openLimits.db).2.state.pendingCpuUsage = 300000 ∧
    (openLimits.runTransaction 0 0 0 openLimits.db ⟨1, 8, 0, 300000, 0⟩).db.state.pendingCpuUsage =
      0 := by
  decide +kernel

def loweredParameters : ElasticLimitParameters :=
  { BlockLimits.defaultCpuLimitParameters with target := 10000, max := 100000 }

def loweredLimits : BlockLimits :=
  { openLimits.runTransaction 0 0 0 openLimits.db ⟨1, 8, 0, 150000, 0⟩ with
    cpuLimitParameters := loweredParameters }

theorem block_budget_after_lowering : ∃ s, InBlock s s ∧
    s.cpuLimitParameters.max = 100000 ∧
    ((getBlockCpuLimit s.cpuLimitParameters.max s.db.state).toNat : ℤ) = 100000 := by
  have hfirst : InBlock openLimits openLimits := .genesis _ _ _ _
  have hused := hfirst.transaction 0 0 0 openLimits.db ⟨1, 8, 0, 150000, 0⟩ rfl rfl
  have hinstall : (openLimits.runTransaction 0 0 0 openLimits.db
      ⟨1, 8, 0, 150000, 0⟩).setBlockParameters overfullConfig loweredParameters
        BlockLimits.defaultNetLimitParameters = .ok loweredLimits := rfl
  obtain ⟨s, hprocess, hmax⟩ : ∃ s, loweredLimits.processBlockUsage 2 = .ok s ∧
      s.cpuLimitParameters.max = 100000 ∧ s.db.state.pendingCpuUsage = 0 :=
    ⟨_, processBlockUsage_eq_ok.mpr ⟨⟨2, 1250000000, 150000⟩, 200200, ⟨2, 66667, 8⟩, 1049625,
      by decide +kernel, by decide +kernel, by decide +kernel, by decide +kernel, rfl⟩, rfl, rfl⟩
  have hlowered := hused.finish hinstall hprocess
  obtain ⟨-, -, hcpu, -⟩ := block_budget_never_wraps hlowered
  refine ⟨s, hlowered, hmax.1, ?_⟩
  rw [hcpu, hmax.1, hmax.2]
  rfl

end FlonCore
