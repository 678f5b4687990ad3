import FlonCore.RamPrice
import FlonCore.TransactionContext

/-!
# What a producer bills, validators accept

A validator runs a transaction with the CPU time that its producer measured. It
checks that time against the limits and against the payer's gas before the
execution, where the producer checked less: the time it had used by then, and
after the execution a limit that a block deadline switches off. So a validator
accepts exactly if the billed time passes these checks.
-/

namespace FlonCore
open Library UInt64
open DurationLimit TransactionContext
variable {env : TransactionEnv} {trx : TransactionHeader} {db : ResourceDb} {args : PushArguments}
  {ctx ctx' : TransactionContext}

theorem checkNetLimit_eq_ok : ctx.checkNetLimit = .ok () ↔ ctx.billedNetUsage ≤ ctx.netLimit := by
  unfold checkNetLimit
  split_ifs with hlt hdue
  · simpa using hlt
  · simpa using hlt
  · simpa using hlt

theorem checkCpuLimit_eq_ok {checkMinimum : Bool} :
    ctx.checkCpuLimit env args checkMinimum = .ok () ↔
      (checkMinimum = true → (env.cfg.minTransactionCpuUsage.toNat : ℤ) ≤ ctx.billedCpuTimeUs) ∧
      (ctx.initialObjectiveDurationLimit < ctx.billedCpuTimeUs →
        ctx.deadlineExceptionCode = .deadlineException) := by
  unfold checkCpuLimit
  rw [seq_eq_ok]
  refine and_congr ?_ ?_
  · cases checkMinimum <;> simp
  · split_ifs with hlt
    · cases ctx.deadlineExceptionCode <;> simp [hlt]
    · simp [hlt]

theorem checktime_eq_ok {now : ℤ} : ctx.checktime args now = .ok () ↔ now < ctx.deadline := by
  unfold checktime
  split_ifs with hlt <;> simp [hlt]

variable {reason : TxCpuUsageExceededReason}

theorem DurationLimit.lower_lt {d : DurationLimit} {limit bound : ℤ}
    (h : d.limit < bound ∨ limit < bound) : (d.lower limit reason).limit < bound := by
  unfold lower
  split_ifs with hle
  · dsimp only
    omega
  · omega

theorem DurationLimit.lower_code {d : DurationLimit} {limit : ℤ}
    (h : d.code ≠ .deadlineException) : (d.lower limit reason).code ≠ .deadlineException := by
  unfold lower
  split_ifs with hle
  · simp
  · exact h

variable (env db trx)

theorem objectiveLimit_lt : (objectiveLimit env db trx).limit < 2 ^ 32 := by
  have hmax := env.cfg.maxTransactionCpuUsage.toNat_lt
  unfold objectiveLimit
  split_ifs
  · exact lower_lt (.inl (lower_lt (.inr (by omega))))
  · exact lower_lt (.inr (by omega))

theorem objectiveLimit_code : (objectiveLimit env db trx).code ≠ .deadlineException := by
  unfold objectiveLimit
  split_ifs
  · exact lower_code (lower_code (by simp))
  · exact lower_code (by simp)

theorem rawNetLimit_lt : (rawNetLimit env db trx).1.toNat < 2 ^ 32 := by
  have hmax := env.cfg.maxTransactionNetUsage.toNat_lt
  have hcast := UInt32.toNat_toUInt64 env.cfg.maxTransactionNetUsage
  unfold rawNetLimit
  simp only [le_iff_toNat_le]
  split_ifs <;> dsimp only at * <;> omega

variable {env db trx}

def usageGas (rate usage : ℕ) : ℕ :=
  (usage * rate + 999) / 1000

section
variable {rate usage : ℕ} (hrate : rate < 2 ^ 32) (husage : usage < 2 ^ 32)
include hrate husage

theorem usage_mul_rate_le : usage * rate ≤ (2 ^ 32 - 1) * (2 ^ 32 - 1) :=
  Nat.mul_le_mul (by omega) (by omega)

theorem ramGas_eq_usageGas : ramGas rate usage = usageGas rate usage := by
  have hmul := usage_mul_rate_le hrate husage
  rw [ramGas, usageGas, Nat.mod_eq_of_lt (by omega)]

theorem usageGas_lt : usageGas rate usage < 2 ^ 63 := by
  have hmul := usage_mul_rate_le hrate husage
  rw [usageGas]
  omega

end

def transactionGas (rc : ResourceConfig) (cpuUsage netUsage : ℕ) : ℕ :=
  usageGas rc.gasPerCpuMs.toNat cpuUsage + usageGas rc.gasPerNetKb.toNat netUsage

theorem exists_calcTransactionGasUsage (rc : ResourceConfig) (res : TransactionResUsage)
    (hcpu : res.cpuUsage.toNat < 2 ^ 32) (hnet : res.netUsage.toNat < 2 ^ 32) :
    ∃ cpuGas netGas, calcTransactionGasUsage rc res =
        .ok ({ res with cpuGas := cpuGas, netGas := netGas }, cpuGas + netGas) ∧
      cpuGas.toNat + netGas.toNat < 2 ^ 64 ∧
      cpuGas.toNat + netGas.toNat = transactionGas rc res.cpuUsage.toNat res.netUsage.toNat := by
  have hcpuRate := rc.gasPerCpuMs.toNat_lt
  have hnetRate := rc.gasPerNetKb.toNat_lt
  obtain ⟨cpuGas, hcpuGas, hcpuNat⟩ :=
    exists_multiplyDecimalCeil res.cpuUsage rc.gasPerCpuMs "converting cpu us to gas"
  obtain ⟨netGas, hnetGas, hnetNat⟩ :=
    exists_multiplyDecimalCeil res.netUsage rc.gasPerNetKb "converting net bytes to gas"
  rw [ramGas_eq_usageGas hcpuRate hcpu] at hcpuNat
  rw [ramGas_eq_usageGas hnetRate hnet] at hnetNat
  have hcpuLt := usageGas_lt hcpuRate hcpu
  have hnetLt := usageGas_lt hnetRate hnet
  have hroom : cpuGas.toNat + netGas.toNat < 2 ^ 64 := by omega
  refine ⟨cpuGas, netGas, ?_, hroom, by rw [hcpuNat, hnetNat, transactionGas]⟩
  exact bind_eq_ok.mpr ⟨cpuGas, hcpuGas, bind_eq_ok.mpr ⟨netGas, hnetGas,
    seq_eq_ok.mpr ⟨verifyAdd_eq_ok.mpr hroom, rfl⟩⟩⟩

variable {res : TransactionResUsage} {reserved convertible : UInt64}

theorem verifyTransactionGasUsage_eq_ok (hroom : res.cpuGas.toNat + res.netGas.toNat < 2 ^ 64) :
    verifyTransactionGasUsage res reserved convertible = .ok () ↔
      reserved.toNat + convertible.toNat < 2 ^ 64 ∧
      res.cpuGas.toNat + res.netGas.toNat ≤ reserved.toNat + convertible.toNat := by
  unfold verifyTransactionGasUsage
  rw [seq_eq_ok, seq_eq_ok, verifyAdd_eq_ok, verifyAdd_eq_ok, eosAssert_eq_ok, decide_eq_true_eq,
    le_iff_toNat_le, UInt64.toNat_add, UInt64.toNat_add, Nat.mod_eq_of_lt hroom]
  constructor
  · rintro ⟨-, hlt, hle⟩
    exact ⟨hlt, by rwa [Nat.mod_eq_of_lt hlt] at hle⟩
  · rintro ⟨hlt, hle⟩
    exact ⟨hroom, hlt, by rwa [Nat.mod_eq_of_lt hlt]⟩

structure SameUsage (a b : TransactionContext) : Prop where
  net : a.billedNetUsage = b.billedNetUsage
  netLimit : a.netLimit = b.netLimit
  cpu : a.billedCpuTimeUs = b.billedCpuTimeUs
  payer : a.resUsage.payer = b.resUsage.payer

theorem SameUsage.refl (ctx : TransactionContext) : SameUsage ctx ctx := ⟨rfl, rfl, rfl, rfl⟩

theorem limitByGas_sameUsage
    (h : limitByGas env args ctx reserved convertible = .ok ctx') : SameUsage ctx' ctx := by
  iterate 2 obtain ⟨-, h⟩ := seq_eq_ok.mp h
  obtain ⟨accountCpuLimit, -, h⟩ := bind_eq_ok.mp h
  have hlowered : ∀ (p : Prop) [Decidable p] (c : TransactionContext) (limit : UInt64),
      SameUsage c ctx → SameUsage (if p then c.lowerDuration args limit else c) ctx := by
    intro p _ c limit hc
    split_ifs
    · exact ⟨hc.net, hc.netLimit, hc.cpu, hc.payer⟩
    · exact hc
  by_cases hsubjective : 0 < args.subjectiveCpuBillUs
  · rw [if_pos hsubjective] at h
    obtain ⟨-, h⟩ := seq_eq_ok.mp h
    cases h
    iterate 2 apply hlowered
    exact SameUsage.refl ctx
  · rw [if_neg hsubjective] at h
    cases h
    apply hlowered
    exact SameUsage.refl ctx

theorem calcTransactionGasUsage_payer {rc : ResourceConfig} {res res' : TransactionResUsage}
    {gas : UInt64} (h : calcTransactionGasUsage rc res = .ok (res', gas)) :
    res'.payer = res.payer := by
  obtain ⟨cpuGas, -, h⟩ := bind_eq_ok.mp h
  obtain ⟨netGas, -, h⟩ := bind_eq_ok.mp h
  obtain ⟨-, h⟩ := seq_eq_ok.mp h
  cases h
  rfl

theorem checkGas_sameUsage (h : checkGas env db args ctx = .ok ctx') : SameUsage ctx' ctx := by
  obtain ⟨limits, -, h⟩ := bind_eq_ok.mp h
  split_ifs at h with hunlimited hexplicit
  · cases h
    exact SameUsage.refl ctx
  · obtain ⟨convertible, -, h⟩ := bind_eq_ok.mp h
    obtain ⟨⟨res, gas⟩, hcalc, h⟩ := bind_eq_ok.mp h
    obtain ⟨-, h⟩ := seq_eq_ok.mp h
    cases h
    exact ⟨rfl, rfl, rfl, calcTransactionGasUsage_payer hcalc⟩
  · obtain ⟨convertible, -, h⟩ := bind_eq_ok.mp h
    obtain ⟨⟨res, gas⟩, hcalc, h⟩ := bind_eq_ok.mp h
    obtain ⟨-, h⟩ := seq_eq_ok.mp h
    obtain ⟨hnet, hlimit, hcpu, hpayer⟩ := limitByGas_sameUsage h
    exact ⟨hnet, hlimit, hcpu, hpayer.trans (calcTransactionGasUsage_payer hcalc)⟩

variable {clock : ClockReadings} {out : Executed}

section Billing
theorem toNat_toUInt32 (b : UInt32) : toUInt32 b.toNat = b := by
  have hb := b.toNat_lt
  have hmod : ((b.toNat : ℤ) % 2 ^ 32).toNat = b.toNat := by omega
  rw [toUInt32, hmod, UInt32.ofNat_toNat]

variable {a b : TransactionResUsage}

theorem addTransactionUsage_congr {rc : ResourceConfig}
    (hpayer : a.payer = b.payer) (hnet : a.netUsage = b.netUsage)
    (hcpu : a.cpuUsage = b.cpuUsage) :
    addTransactionUsage rc db a = addTransactionUsage rc db b := by
  obtain ⟨payer, net, netGas, cpu, cpuGas⟩ := a
  obtain ⟨payer', net', netGas', cpu', cpuGas'⟩ := b
  subst hpayer hnet hcpu
  rfl

def TransactionContext.billedAt (env : TransactionEnv) (args : PushArguments)
    (ctx : TransactionContext) (now : ℤ) : ℤ :=
  if args.explicitBilledCpuTime then ctx.billedCpuTimeUs
  else max (now - args.start) env.cfg.minTransactionCpuUsage.toNat

theorem billedAt_explicit (hexplicit : args.explicitBilledCpuTime = true) (now : ℤ) :
    ctx.billedAt env args now = ctx.billedCpuTimeUs :=
  if_pos hexplicit

theorem updateBilledCpuTime_eq (now : ℤ) : ctx.updateBilledCpuTime env args now =
    { ctx with billedCpuTimeUs := ctx.billedAt env args now } := by
  unfold updateBilledCpuTime billedAt
  split_ifs <;> rfl

def TransactionContext.finalUsage (ctx : TransactionContext) (net : UInt64) (cpu : ℤ) :
    TransactionResUsage :=
  { ctx.resUsage with cpuUsage := (toUInt32 cpu).toUInt64, netUsage := net }

theorem finalize_eq_ok {ramDeltas : RamDeltas} :
    ctx.finalize env args clock db ramDeltas = .ok out ↔ ∃ net dbTraces,
      roundUpNetUsage ctx.billedNetUsage = .ok net ∧
      ramDeltas.entries.foldlM (addRamDelta env.resources) (db, []) = .ok dbTraces ∧
      net ≤ ctx.netLimit ∧
      (env.cfg.minTransactionCpuUsage.toNat : ℤ) ≤ ctx.billedAt env args clock.finalizeNow ∧
      (ctx.initialObjectiveDurationLimit < ctx.billedAt env args clock.finalizeNow →
        ctx.deadlineExceptionCode = .deadlineException) ∧
      billUsage env dbTraces.1 dbTraces.2
        (ctx.finalUsage net (ctx.billedAt env args clock.finalizeNow))
        (toUInt32 (ctx.billedAt env args clock.finalizeNow)) = .ok out := by
  unfold finalize
  simp only [updateBilledCpuTime_eq]
  constructor
  · intro h
    obtain ⟨net, hround, h⟩ := bind_eq_ok.mp h
    obtain ⟨dbTraces, hram, h⟩ := bind_eq_ok.mp h
    obtain ⟨hnet, h⟩ := seq_eq_ok.mp h
    obtain ⟨hcpu, hbill⟩ := seq_eq_ok.mp h
    obtain ⟨hmin, hlimit⟩ := checkCpuLimit_eq_ok.mp hcpu
    exact ⟨net, dbTraces, hround, hram, checkNetLimit_eq_ok.mp hnet, hmin rfl, hlimit, hbill⟩
  · rintro ⟨net, dbTraces, hround, hram, hnet, hmin, hlimit, hbill⟩
    exact bind_eq_ok.mpr ⟨net, hround, bind_eq_ok.mpr ⟨dbTraces, hram,
      seq_eq_ok.mpr ⟨checkNetLimit_eq_ok.mpr hnet,
        seq_eq_ok.mpr ⟨checkCpuLimit_eq_ok.mpr ⟨fun _ => hmin, hlimit⟩, hbill⟩⟩⟩⟩

variable {traces : List AccountGasTrace}

theorem billUsage_congr {cpu : UInt32} (hpayer : a.payer = b.payer) (hnet : a.netUsage = b.netUsage)
    (hcpu : a.cpuUsage = b.cpuUsage) :
    billUsage env db traces a cpu = billUsage env db traces b cpu := by
  unfold billUsage
  rw [addTransactionUsage_congr hpayer hnet hcpu]

theorem billUsage_billed {cpu : UInt32}
    (h : billUsage env db traces res cpu = .ok out) : out.billedCpuTimeUs = cpu := by
  obtain ⟨⟨db', res', trx⟩, -, h⟩ := bind_eq_ok.mp h
  cases trx with
  | none => rw [← Except.ok.inj h]
  | some trx =>
    obtain ⟨gasTraces, -, h⟩ := bind_eq_ok.mp h
    rw [← Except.ok.inj h]

theorem finalize_validator {producer : TransactionContext} {ramDeltas : RamDeltas}
    (explicit : PushArguments) (clock' : ClockReadings)
    (h : producer.finalize env args clock db ramDeltas = .ok out)
    (hnet : ctx.billedNetUsage = producer.billedNetUsage)
    (hlimit : ctx.netLimit = producer.netLimit)
    (hpayer : ctx.resUsage.payer = producer.resUsage.payer)
    (hcpu : ctx.billedCpuTimeUs = out.billedCpuTimeUs.toNat)
    (hexplicit : explicit.explicitBilledCpuTime = true)
    (hcode : ctx.deadlineExceptionCode = .deadlineException)
    (hmin : env.cfg.minTransactionCpuUsage ≤ out.billedCpuTimeUs) :
    ctx.finalize env explicit clock' db ramDeltas = .ok out := by
  obtain ⟨net, dbTraces, hround, hram, hle, -, -, hbill⟩ := finalize_eq_ok.mp h
  have hbilled : ctx.billedAt env explicit clock'.finalizeNow = out.billedCpuTimeUs.toNat := by
    rw [billedAt_explicit hexplicit, hcpu]
  refine finalize_eq_ok.mpr ⟨net, dbTraces, by rw [hnet, hround], hram, by rwa [hlimit], ?_,
    fun _ => hcode, ?_⟩
  · rw [hbilled]
    exact_mod_cast UInt32.le_iff_toNat_le.mp hmin
  · have hout := billUsage_billed hbill
    rw [hbilled, toNat_toUInt32, ← hbill, ← hout]
    refine billUsage_congr hpayer rfl ?_
    rw [finalUsage, finalUsage, toNat_toUInt32, hout]

end Billing

def startedContext (env : TransactionEnv) (trx : TransactionHeader) (db : ResourceDb)
    (args : PushArguments) (clock : ClockReadings) : TransactionContext :=
  ((initialContext env db trx args).updateBilledCpuTime env args clock.initNow).recordUsage

def timedContext (args : PushArguments) (checked : TransactionContext) : TransactionContext :=
  if args.explicitBilledCpuTime then
    { checked with
      deadline := effectiveBlockDeadline args
      deadlineExceptionCode := .deadlineException }
  else checked

theorem init_eq_ok : init env trx db args clock = .ok ctx ↔
    env.accountExists trx.firstAuthorizer = true ∧
    trx.initialNetUsage ≤ (rawNetLimit env db trx).1 / 8 * 8 ∧
    (startedContext env trx db args clock).checkCpuLimit env args false = .ok () ∧
    ∃ checked, checkGas env db args (startedContext env trx db args clock) = .ok checked ∧
      (timedContext args checked).checktime args clock.timerNow = .ok () ∧
      ctx = timedContext args checked := by
  have hnet : (startedContext env trx db args clock).checkNetLimit = .ok () ↔
      trx.initialNetUsage ≤ (rawNetLimit env db trx).1 / 8 * 8 := by
    rw [checkNetLimit_eq_ok, startedContext, updateBilledCpuTime_eq]
    rfl
  rw [← hnet]
  constructor
  · intro h
    obtain ⟨hpayer, h⟩ := seq_eq_ok.mp h
    obtain ⟨hlimit, h⟩ := seq_eq_ok.mp h
    obtain ⟨hcpu, h⟩ := seq_eq_ok.mp h
    obtain ⟨checked, hgas, h⟩ := bind_eq_ok.mp h
    obtain ⟨htime, h⟩ := seq_eq_ok.mp h
    exact ⟨eosAssert_eq_ok.mp hpayer, hlimit, hcpu, checked, hgas, htime, (Except.ok.inj h).symm⟩
  · rintro ⟨hpayer, hlimit, hcpu, checked, hgas, htime, rfl⟩
    exact seq_eq_ok.mpr ⟨eosAssert_eq_ok.mpr hpayer, seq_eq_ok.mpr ⟨hlimit, seq_eq_ok.mpr ⟨hcpu,
      bind_eq_ok.mpr ⟨checked, hgas, seq_eq_ok.mpr ⟨htime, rfl⟩⟩⟩⟩⟩

theorem timedContext_sameUsage (args : PushArguments) (checked : TransactionContext) :
    SameUsage (timedContext args checked) checked := by
  unfold timedContext
  split_ifs <;> exact ⟨rfl, rfl, rfl, rfl⟩

theorem init_usage (h : init env trx db args clock = .ok ctx) :
    ctx.billedNetUsage = trx.initialNetUsage ∧
      ctx.netLimit = (rawNetLimit env db trx).1 / 8 * 8 ∧
      ctx.resUsage.payer = trx.firstAuthorizer := by
  obtain ⟨-, -, -, checked, hgas, -, rfl⟩ := init_eq_ok.mp h
  have htimed := timedContext_sameUsage args checked
  have hsame := checkGas_sameUsage hgas
  rw [htimed.net, htimed.netLimit, htimed.payer, hsame.net, hsame.netLimit, hsame.payer,
    startedContext, updateBilledCpuTime_eq]
  exact ⟨rfl, rfl, rfl⟩

def validatorArguments (start : ℤ) (billedCpuTimeUs : UInt32) : PushArguments where
  start := start
  blockDeadline := none
  maxTransactionTimeSubjective := none
  explicitBilledCpuTime := true
  billedCpuTimeUs := billedCpuTimeUs
  subjectiveCpuBillUs := 0

def Affordable (env : TransactionEnv) (db : ResourceDb) (trx : TransactionHeader) (b : UInt32) :
    Prop :=
  ∀ limits, db.limits trx.firstAuthorizer = some limits → limits.isUnlimited = false →
    ∀ convertible, getAccountConvertibleGas env db trx.firstAuthorizer = .ok convertible →
      transactionGas env.resources b.toNat trx.initialNetUsage.toNat ≤
        limits.gas.toNat + convertible.toNat

structure PayerChecked (env : TransactionEnv) (db : ResourceDb) (trx : TransactionHeader) :
    Prop where
  payer : env.accountExists trx.firstAuthorizer = true
  net : trx.initialNetUsage ≤ (rawNetLimit env db trx).1 / 8 * 8
  gas : ∃ limits, db.limits trx.firstAuthorizer = some limits ∧ (limits.isUnlimited = false →
    ∃ convertible, getAccountConvertibleGas env db trx.firstAuthorizer = .ok convertible ∧
      limits.gas.toNat + convertible.toNat < 2 ^ 64)

theorem startedContext_payer : (startedContext env trx db args clock).resUsage.payer =
    trx.firstAuthorizer := by
  rw [startedContext, updateBilledCpuTime_eq]
  rfl

theorem init_payerChecked (h : init env trx db args clock = .ok ctx) : PayerChecked env db trx := by
  obtain ⟨hpayer, hnet, -, checked, hgas, -, -⟩ := init_eq_ok.mp h
  obtain ⟨limits, hrow, hgas⟩ := bind_eq_ok.mp hgas
  rw [startedContext_payer, getRow_eq_ok] at hrow
  refine ⟨hpayer, hnet, limits, hrow, fun hlimited => ?_⟩
  rw [if_neg (by simp [hlimited]), startedContext_payer] at hgas
  obtain ⟨convertible, hconvertible, hgas⟩ := bind_eq_ok.mp hgas
  obtain ⟨res, -, hgas⟩ := bind_eq_ok.mp hgas
  obtain ⟨hverify, -⟩ := seq_eq_ok.mp hgas
  obtain ⟨-, hverify⟩ := seq_eq_ok.mp hverify
  obtain ⟨hroom, -⟩ := seq_eq_ok.mp hverify
  exact ⟨convertible, hconvertible, verifyAdd_eq_ok.mp hroom⟩

theorem PayerChecked.net_lt (h : PayerChecked env db trx) : trx.initialNetUsage.toNat < 2 ^ 32 := by
  have hlimit := rawNetLimit_lt env trx db
  have hle := le_iff_toNat_le.mp h.net
  change _ ≤ (rawNetLimit env db trx).1.toNat / 8 * 8 % 2 ^ 64 at hle
  omega

theorem checkGas_unlimited {limits : AccountLimits}
    (hrow : db.limits ctx.resUsage.payer = some limits)
    (hunlimited : limits.isUnlimited = true) : checkGas env db args ctx = .ok ctx := by
  refine bind_eq_ok.mpr ⟨limits, getRow_eq_ok.mpr hrow, ?_⟩
  rw [if_pos hunlimited]
  rfl

theorem checkGas_explicit {limits : AccountLimits} {convertible gas : UInt64}
    (hexplicit : args.explicitBilledCpuTime = true)
    (hrow : db.limits ctx.resUsage.payer = some limits) (hlimited : limits.isUnlimited = false)
    (hconvertible : getAccountConvertibleGas env db ctx.resUsage.payer = .ok convertible)
    (hcalc : calcTransactionGasUsage env.resources ctx.resUsage = .ok (res, gas)) :
    (∃ checked, checkGas env db args ctx = .ok checked) ↔
      verifyTransactionGasUsage res limits.gas convertible = .ok () := by
  have hgas : checkGas env db args ctx = (do
      verifyTransactionGasUsage res limits.gas convertible
      return { ctx with resUsage := res }) := by
    unfold checkGas
    rw [getRow_eq_ok.mpr hrow, hconvertible, hcalc, hexplicit]
    change (if limits.isUnlimited = true then _ else _) = _
    rw [if_neg (by simp [hlimited])]
    rfl
  rw [hgas]
  constructor
  · rintro ⟨checked, h⟩
    exact (seq_eq_ok.mp h).1
  · intro h
    exact ⟨_, seq_eq_ok.mpr ⟨h, rfl⟩⟩

variable {b : UInt32} {start : ℤ}

theorem checkGas_validator (h : PayerChecked env db trx) (clock : ClockReadings) :
    (∃ checked, checkGas env db (validatorArguments start b)
      (startedContext env trx db (validatorArguments start b) clock) = .ok checked) ↔
      Affordable env db trx b := by
  set started := startedContext env trx db (validatorArguments start b) clock with hstarted
  have hpayer : started.resUsage.payer = trx.firstAuthorizer := startedContext_payer
  have hcpu : started.resUsage.cpuUsage.toNat = b.toNat := by
    have hus : started.resUsage.cpuUsage = (toUInt32 b.toNat).toUInt64 := rfl
    rw [hus, toNat_toUInt32, UInt32.toNat_toUInt64]
  have hnet : started.resUsage.netUsage = trx.initialNetUsage := rfl
  obtain ⟨limits, hrow, hgas⟩ := h.gas
  unfold Affordable
  cases hunlimited : limits.isUnlimited with
  | true =>
    refine iff_of_true ⟨started, checkGas_unlimited hrow hunlimited⟩ ?_
    intro limits' hrow' hlimited
    cases hrow.symm.trans hrow'
    exact absurd hunlimited (by simp [hlimited])
  | false =>
    obtain ⟨convertible, hconvertible, hfits⟩ := hgas hunlimited
    obtain ⟨cpuGas, netGas, hcalc, hroom, hsum⟩ := exists_calcTransactionGasUsage env.resources
      started.resUsage (hcpu ▸ b.toNat_lt) (hnet ▸ h.net_lt)
    rw [hcpu, hnet] at hsum
    rw [checkGas_explicit rfl hrow hunlimited hconvertible hcalc,
      verifyTransactionGasUsage_eq_ok hroom, hsum]
    constructor
    · rintro ⟨-, hle⟩ limits' hrow' - convertible' hconvertible'
      cases hrow.symm.trans hrow'
      cases hconvertible.symm.trans hconvertible'
      exact hle
    · intro hle
      exact ⟨hfits, hle limits hrow hunlimited convertible hconvertible⟩

theorem checkCpuLimit_validator :
    (startedContext env trx db (validatorArguments start b) clock).checkCpuLimit env
        (validatorArguments start b) false = .ok () ↔
      (b.toNat : ℤ) ≤ (objectiveLimit env db trx).limit := by
  have hlimit := objectiveLimit_lt env trx db
  have hcode :
      (startedContext env trx db (validatorArguments start b) clock).deadlineExceptionCode ≠
        .deadlineException := by
    change (if decide (start + 24 * 7 * 52 * 60 * 60 * 1000000 <
      start + (objectiveLimit env db trx).limit) = true then .deadlineException
      else (objectiveLimit env db trx).code) ≠ _
    rw [if_neg (by simp only [decide_eq_true_eq]; omega)]
    exact objectiveLimit_code env trx db
  rw [checkCpuLimit_eq_ok]
  change _ ∧ ((objectiveLimit env db trx).limit < (b.toNat : ℤ) → _) ↔ _
  constructor
  · rintro ⟨-, hexceeded⟩
    by_contra hlt
    exact hcode (hexceeded (by omega))
  · intro hle
    exact ⟨by simp, fun hlt => absurd hlt (by omega)⟩

structure AcceptedTime (env : TransactionEnv) (db : ResourceDb) (trx : TransactionHeader)
    (b : UInt32) : Prop where
  minimum : env.cfg.minTransactionCpuUsage ≤ b
  objective : (b.toNat : ℤ) ≤ (objectiveLimit env db trx).limit
  affordable : Affordable env db trx b

def StartsInTime (start : ℤ) (clock : ClockReadings) : Prop :=
  clock.timerNow < start + 24 * 7 * 52 * 60 * 60 * 1000000

theorem init_validator (h : PayerChecked env db trx) (start : ℤ) (b : UInt32)
    (clock : ClockReadings) :
    (∃ ctx, init env trx db (validatorArguments start b) clock = .ok ctx) ↔
      (b.toNat : ℤ) ≤ (objectiveLimit env db trx).limit ∧ Affordable env db trx b ∧
        StartsInTime start clock := by
  constructor
  · rintro ⟨ctx, hctx⟩
    obtain ⟨-, -, hcpu, checked, hgas, htime, -⟩ := init_eq_ok.mp hctx
    exact ⟨checkCpuLimit_validator.mp hcpu, (checkGas_validator h clock).mp ⟨checked, hgas⟩,
      checktime_eq_ok.mp htime⟩
  · rintro ⟨hcpu, hgas, htime⟩
    obtain ⟨checked, hchecked⟩ := (checkGas_validator h clock).mpr hgas
    exact ⟨_, init_eq_ok.mpr ⟨h.payer, h.net, checkCpuLimit_validator.mpr hcpu, checked, hchecked,
      checktime_eq_ok.mpr htime, rfl⟩⟩

def billedTime (env : TransactionEnv) (args : PushArguments) (clock : ClockReadings) : UInt32 :=
  toUInt32 (max (clock.finalizeNow - args.start) env.cfg.minTransactionCpuUsage.toNat)

variable {exec : ResourceDb → Except Failure (ResourceDb × RamDeltas)}

theorem pushTransaction_eq_ok : pushTransaction env trx exec db args clock = .ok out ↔
    ∃ ctx dbDeltas, init env trx db args clock = .ok ctx ∧
      exec db = .ok dbDeltas ∧
      ctx.finalize env args clock dbDeltas.1 dbDeltas.2 = .ok out := by
  constructor
  · intro h
    obtain ⟨ctx, hinit, h⟩ := bind_eq_ok.mp h
    obtain ⟨dbDeltas, hexec, h⟩ := bind_eq_ok.mp h
    exact ⟨ctx, dbDeltas, hinit, hexec, h⟩
  · rintro ⟨ctx, dbDeltas, hinit, hexec, h⟩
    exact bind_eq_ok.mpr ⟨ctx, hinit, bind_eq_ok.mpr ⟨dbDeltas, hexec, h⟩⟩

theorem finalize_billedTime {ramDeltas : RamDeltas} (hmeasured : args.explicitBilledCpuTime = false)
    (h : ctx.finalize env args clock db ramDeltas = .ok out) :
    out.billedCpuTimeUs = billedTime env args clock := by
  obtain ⟨net, dbTraces, -, -, -, -, -, hbill⟩ := finalize_eq_ok.mp h
  rw [billUsage_billed hbill, billedAt, if_neg (by simp [hmeasured]), billedTime]

theorem init_explicit
    (h : init env trx db (validatorArguments start b) clock = .ok ctx) :
    ctx.billedCpuTimeUs = b.toNat ∧ ctx.deadlineExceptionCode = .deadlineException := by
  obtain ⟨-, -, -, checked, hgas, -, rfl⟩ := init_eq_ok.mp h
  exact ⟨(checkGas_sameUsage hgas).cpu, rfl⟩

/-- A validator that replays what a producer billed gets the same result exactly if the
billed time passes the checks that it makes before the execution. -/
theorem validator_accepts_iff (hmeasured : args.explicitBilledCpuTime = false)
    (h : pushTransaction env trx exec db args clock = .ok out) (start : ℤ)
    (clock' : ClockReadings) :
    (∃ out', pushTransaction env trx exec db (validatorArguments start out.billedCpuTimeUs) clock' =
        .ok out' ∧ out'.billedCpuTimeUs = out.billedCpuTimeUs ∧
        out'.resUsage.netUsage = out.resUsage.netUsage ∧ out'.db = out.db) ↔
      AcceptedTime env db trx (billedTime env args clock) ∧ StartsInTime start clock' := by
  obtain ⟨producer, dbDeltas, hinit, hexec, hfinal⟩ := pushTransaction_eq_ok.mp h
  have hchecked := init_payerChecked hinit
  rw [← finalize_billedTime hmeasured hfinal]
  constructor
  · rintro ⟨out', hout', -, -, -⟩
    obtain ⟨validator, dbDeltas', hinit', -, hfinal'⟩ := pushTransaction_eq_ok.mp hout'
    obtain ⟨hobjective, haffordable, htime⟩ :=
      (init_validator hchecked start _ clock').mp ⟨validator, hinit'⟩
    obtain ⟨-, -, -, -, -, hmin, -, -⟩ := finalize_eq_ok.mp hfinal'
    rw [billedAt_explicit rfl, (init_explicit hinit').1] at hmin
    refine ⟨⟨?_, hobjective, haffordable⟩, htime⟩
    exact_mod_cast hmin
  · rintro ⟨⟨hmin, hobjective, haffordable⟩, htime⟩
    obtain ⟨validator, hinit'⟩ :=
      (init_validator hchecked start _ clock').mpr ⟨hobjective, haffordable, htime⟩
    obtain ⟨hnet, hlimit, hpayer⟩ := init_usage hinit
    obtain ⟨hnet', hlimit', hpayer'⟩ := init_usage hinit'
    obtain ⟨hcpu, hcode⟩ := init_explicit hinit'
    have hvalidator := finalize_validator (validatorArguments start out.billedCpuTimeUs) clock'
      hfinal (hnet'.trans hnet.symm) (hlimit'.trans hlimit.symm) (hpayer'.trans hpayer.symm) hcpu
      rfl hcode hmin
    exact ⟨out, pushTransaction_eq_ok.mpr ⟨validator, dbDeltas, hinit', hexec, hvalidator⟩,
      rfl, rfl, rfl⟩

def coarseEnv : TransactionEnv where
  cfg :=
    { maxBlockNetUsage := 1048576
      targetBlockNetUsagePct := 1000
      maxTransactionNetUsage := 524288
      basePerTransactionNetUsage := 12
      contextFreeDiscountNetUsageNum := 20
      contextFreeDiscountNetUsageDen := 100
      maxBlockCpuUsage := 200000
      targetBlockCpuUsagePct := 1000
      maxTransactionCpuUsage := 150000
      minTransactionCpuUsage := 2000
      maxAuthorityDepth := 6
      gasPerCpuMs := 10000
      gasPerNetKb := 50000
      gasPerRamKb := 50000
      maxActionReturnValueSize := 256 }
  resources := ⟨10000, 50000, 50000, 200000, 1048576, 1048576, 2, 0⟩
  accountExists a := a == 1

def coarseDb : ResourceDb where
  limits a := if a = 1 then some ⟨100000000, false⟩ else none
  usage a := if a = 1 then some ⟨0, 0, 0⟩ else none
  state := ⟨0, 0, 0, 0, 0, 0, 0⟩
  accounts _ := none

def noActions (db : ResourceDb) : Except Failure (ResourceDb × RamDeltas) :=
  .ok (db, ⟨[], List.nodup_nil⟩)

def storageDb : ResourceDb where
  limits a := if a = 1 ∨ a = 2 then some ⟨100000000, false⟩ else none
  usage a := if a = 1 then some ⟨0, 0, 0⟩ else if a = 2 then some ⟨0, 0, 150⟩ else none
  state := { coarseDb.state with totalRamUsage := 150 }
  accounts _ := none

/-- Opens account 3, for which the payer stores 240 bytes, and frees 100 bytes of account 2. -/
def openAccount (db : ResourceDb) : Except Failure (ResourceDb × RamDeltas) :=
  .ok ({ db with
    limits := Function.update db.limits 3 (some ⟨0, false⟩)
    usage := Function.update db.usage 3 (some ⟨0, 0, 0⟩) }, ⟨[(1, 240), (2, -100)], by decide⟩)

def limitedTrx (maxCpuUsageMs : UInt8) : TransactionHeader := ⟨1, 0, maxCpuUsageMs, 100⟩

def hurriedArguments : PushArguments := ⟨0, some 500, none, false, 0, 0⟩

def quickClock : ClockReadings := ⟨10, 20, 300⟩

theorem validator_accepts_storage : ∃ out,
    pushTransaction coarseEnv (limitedTrx 3) openAccount storageDb hurriedArguments quickClock =
      .ok out ∧
    out.billedCpuTimeUs = 2000 ∧
    ([1, 2, 3].map fun a => (out.db.usage a).map fun usage => usage.ramUsage) =
      [some 240, some 50, some 0] ∧
    ∃ out', pushTransaction coarseEnv (limitedTrx 3) openAccount storageDb
        (validatorArguments 0 out.billedCpuTimeUs) quickClock = .ok out' ∧
      out'.billedCpuTimeUs = out.billedCpuTimeUs ∧
      out'.resUsage.netUsage = out.resUsage.netUsage ∧ out'.db = out.db := by
  obtain ⟨out, hout, hbilled, hram⟩ : ∃ out, pushTransaction coarseEnv (limitedTrx 3) openAccount
      storageDb hurriedArguments quickClock = .ok out ∧ out.billedCpuTimeUs = 2000 ∧
      ([1, 2, 3].map fun a => (out.db.usage a).map fun usage => usage.ramUsage) =
        [some 240, some 50, some 0] := ⟨_, rfl, rfl, rfl⟩
  refine ⟨out, hout, hbilled, hram, (validator_accepts_iff rfl hout 0 quickClock).mpr
    ⟨⟨by decide, by decide, ?_⟩, by rw [StartsInTime]; decide⟩⟩
  rintro limits hrow - convertible hconvertible
  cases hrow
  cases hconvertible
  decide

/-- Under a limit of one millisecond the validator refuses the transaction, while the producer
does not check the limit under the deadline of its block. -/
theorem hurried_producer_exceeds_limit : coarseEnv.cfg.validate = .ok () ∧ ∃ out,
    pushTransaction coarseEnv (limitedTrx 1) noActions coarseDb hurriedArguments quickClock =
      .ok out ∧ out.billedCpuTimeUs = 2000 ∧
    pushTransaction coarseEnv (limitedTrx 1) noActions coarseDb
      (validatorArguments 0 out.billedCpuTimeUs) quickClock = .error ⟨.txCpuUsageExceeded,
        "transaction ${id} was executing for too long ${billed_cpu_time_us}us" ++
          " reached trx specified max_cpu_usage_ms ${limit}us"⟩ :=
  ⟨rfl, _, rfl, rfl, rfl⟩

end FlonCore
