import FlonCore.MovingAverage

/-!
# The end of a block cannot stop the chain

The accumulators and the virtual limits are fed back block after block through
checked products. For an average over 120 blocks the tightest check is that of the
decay, which multiplies the average by 119 in 64 bits. It bounds the maximum of a
block for which the chain can never get stuck.
-/

namespace FlonCore
open Library UInt32
open BlockLimits UsageAccumulator

def safeMaximum : ℕ := 155014656081

structure Calm (a : UsageAccumulator) (blockNum : ℕ) : Prop where
  ordinal_le : a.lastOrdinal.toNat ≤ blockNum
  value_le : a.valueEx.toNat ≤ rateLimitingPrecision * safeMaximum + 119
  consumed_le : a.consumed.toNat ≤ 2 * safeMaximum + 1

theorem contribAt_le {units : UInt64} (h : units.toNat ≤ safeMaximum) :
    120 * contribAt rateLimitingPrecision units 120 < units.toNat * 1000000 + 120 ∧
      contribAt rateLimitingPrecision units 120 < 2 ^ 63 := by
  have hceil := (mul_le_integerDivideCeil (units.toNat * rateLimitingPrecision)
    (show 0 < (120 : UInt32).toNat by decide)).2
  change 120 * contribAt rateLimitingPrecision units 120 < units.toNat * 1000000 + 120 at hceil
  rw [safeMaximum] at h
  omega

theorem Calm.add {a : UsageAccumulator} {n : ℕ} {units : UInt64} {blockNum : UInt32} (h : Calm a n)
    (hunits : units.toNat ≤ safeMaximum) (hnum : n < blockNum.toNat) :
    ∃ a', a.add units blockNum 120 = .ok a' ∧ Calm a' blockNum.toNat := by
  obtain ⟨hordinal, hvalue, hconsumed⟩ := h
  have hlt : a.lastOrdinal < blockNum := lt_iff_toNat_lt.mpr (by omega)
  have hkept : a.kept blockNum 120 ≤ 119 := by
    have hwindow : (120 : UInt32).toNat = 120 := rfl
    unfold kept
    omega
  have hdecay : a.valueEx.toNat * a.kept blockNum 120 ≤ a.valueEx.toNat * 119 :=
    Nat.mul_le_mul_left _ hkept
  obtain ⟨hcontrib, hsmall⟩ := contribAt_le hunits
  rw [safeMaximum] at hunits hconsumed
  change a.valueEx.toNat ≤ 1000000 * 155014656081 + 119 at hvalue
  have hfits : FitsAt rateLimitingPrecision a units blockNum 120 :=
    ⟨by rw [rateLimitingPrecision]; omega, by omega, by omega, by omega, by omega⟩
  obtain ⟨a', ha'⟩ := hfits.addAt hlt
  obtain ⟨-, hord, hval, hcons⟩ := fitsAt_of_addAt hlt (by decide) ha'
  have haverage := (mul_le_integerDivideCeil
    (a.valueEx.toNat * a.kept blockNum 120 / (120 : UInt32).toNat)
    (show 0 < rateLimitingPrecision by decide)).2
  change a'.valueEx.toNat = a.valueEx.toNat * a.kept blockNum 120 / 120 + _ at hval
  change 1000000 * integerDivideCeil _ _ < a.valueEx.toNat * a.kept blockNum 120 / 120 + 1000000
    at haverage
  refine ⟨a', ha', by rw [hord], ?_, ?_⟩
  · change a'.valueEx.toNat ≤ 1000000 * 155014656081 + 119
    omega
  · rw [safeMaximum]
    omega

theorem updateElasticLimit_safe {maxUsage limit : UInt64} (averageUsage : UInt64)
    (pct window : UInt32) (hmax : maxUsage.toNat ≤ safeMaximum)
    (hlimit : limit.toNat ≤ 1000 * safeMaximum) :
    ∃ x, (ChainConfig.elasticParameters maxUsage pct window).updateElasticLimit limit
        averageUsage = .ok x ∧ maxUsage.toNat ≤ x.toNat ∧ x.toNat ≤ maxUsage.toNat * 1000 := by
  rw [safeMaximum] at hmax hlimit
  have hrate : ∃ x, Ratio.mul limit
      (if (ChainConfig.elasticParameters maxUsage pct window).target < averageUsage then
        (ChainConfig.elasticParameters maxUsage pct window).contractRate
      else (ChainConfig.elasticParameters maxUsage pct window).expandRate) = .ok x := by
    split_ifs
    · exact ⟨_, Ratio.mul_eq_ok.mpr ⟨by
        change limit.toNat * 99 < 2 ^ 64
        omega, rfl⟩⟩
    · exact ⟨_, Ratio.mul_eq_ok.mpr ⟨by
        change limit.toNat * 1000 < 2 ^ 64
        omega, rfl⟩⟩
  obtain ⟨x, hx⟩ := hrate
  have hmul : (maxUsage * (1000 : UInt32).toUInt64).toNat = maxUsage.toNat * 1000 := by
    exact Nat.mod_eq_of_lt (by change maxUsage.toNat * 1000 < 2 ^ 64; omega)
  refine ⟨_, bind_eq_ok.mpr ⟨x, hx, rfl⟩, ?_⟩
  change _ ≤ (min (max x maxUsage) (maxUsage * (1000 : UInt32).toUInt64)).toNat ∧
    (min (max x maxUsage) (maxUsage * (1000 : UInt32).toUInt64)).toNat ≤ _
  rw [UInt64.toNat_min, UInt64.toNat_max, hmul]
  omega

/-- What the transactions of a block make of the database, together with anything else that
leaves the pending usage alone. -/
inductive Executes (s : BlockLimits) : ResourceDb → ResourceDb → Prop
  | done (db : ResourceDb) : Executes s db db
  | transaction {db db' db'' : ResourceDb} {res res' : TransactionResUsage}
      {trace : Option AccountGasTrace} {maxTotalRamUsage coreSymbol : UInt64}
      {gasAccountName : AccountName} :
      addTransactionUsage (s.resourceConfig maxTotalRamUsage gasAccountName coreSymbol) db res =
        .ok (db', res', trace) → Executes s db' db'' → Executes s db db''
  | other {db db' db'' : ResourceDb} :
      db'.state.pendingCpuUsage = db.state.pendingCpuUsage →
      db'.state.pendingNetUsage = db.state.pendingNetUsage →
      Executes s db' db'' → Executes s db db''

/-- The limits after block `n` of a chain whose configurations allow at most `M` bytes in a
block. -/
inductive AtBlock (M : ℕ) : ℕ → BlockLimits → Prop
  | genesis (cfg : ChainConfig) (limits : AccountName → Option AccountLimits)
      (usage : AccountName → Option ResourceUsage) (accounts : AccountName → Option TokenRow) :
      AtBlock M 1 (.initializeDatabase cfg limits usage accounts)
  | next {n : ℕ} {s s' : BlockLimits} {db : ResourceDb} {cfg : ChainConfig} :
      AtBlock M n s → Executes s s.db db → cfg.validate = .ok () →
      cfg.maxBlockNetUsage.toNat ≤ M → n + 1 < 2 ^ 32 →
      finishBlock { s with db := db } cfg (UInt32.ofNat (n + 1)) = .ok s' →
      AtBlock M (n + 1) s'

/-- The virtual limits lie between the maximum of a block and its multiple, which is not
wrapped. -/
def BlockLimits.InRange (s : BlockLimits) : Prop :=
  (s.cpuLimitParameters.max.toNat ≤ s.virtualCpuLimit.toNat ∧ s.virtualCpuLimit.toNat ≤
    s.cpuLimitParameters.max.toNat * s.cpuLimitParameters.maxMultiplier.toNat) ∧
  s.netLimitParameters.max.toNat ≤ s.virtualNetLimit.toNat ∧ s.virtualNetLimit.toNat ≤
    s.netLimitParameters.max.toNat * s.netLimitParameters.maxMultiplier.toNat

/-- In every chain whose configurations allow at most `M` bytes in a block, the end of the
next block returns and leaves the limits in range. -/
def NeverStops (M : ℕ) : Prop :=
  ∀ n s db cfg, AtBlock M n s → Executes s s.db db → cfg.validate = .ok () →
    cfg.maxBlockNetUsage.toNat ≤ M → n + 1 < 2 ^ 32 →
    ∃ s', finishBlock { s with db := db } cfg (UInt32.ofNat (n + 1)) = .ok s' ∧
      s'.InRange

structure SafeLimits (n : ℕ) (s : BlockLimits) : Prop where
  cpu_calm : Calm s.averageBlockCpuUsage n
  net_calm : Calm s.averageBlockNetUsage n
  cpu_max : s.cpuLimitParameters.max.toNat ≤ safeMaximum
  net_max : s.netLimitParameters.max.toNat ≤ safeMaximum
  cpu_limit : s.virtualCpuLimit.toNat ≤ 1000 * safeMaximum
  net_limit : s.virtualNetLimit.toNat ≤ 1000 * safeMaximum
  cpu_pending : s.db.state.pendingCpuUsage = 0
  net_pending : s.db.state.pendingNetUsage = 0

variable {M n : ℕ} {s s' : BlockLimits} {db db' : ResourceDb} {cfg : ChainConfig}

theorem addTransactionUsage_pending {rc : ResourceConfig} {res res' : TransactionResUsage}
    {trace : Option AccountGasTrace} (h : addTransactionUsage rc db res = .ok (db', res', trace)) :
    db'.state.pendingCpuUsage ≤ rc.cpuLimitMax ∧ db'.state.pendingNetUsage ≤ rc.netLimitMax := by
  have hcount : ∃ charged res usage used, countTransaction rc charged res usage used = .ok db' := by
    unfold addTransactionUsage at h
    simp only [bind_eq_ok] at h
    obtain ⟨usage, -, limits, -, h⟩ := h
    split_ifs at h
    · obtain ⟨counted, hcount, h⟩ := bind_eq_ok.mp h
      cases h
      exact ⟨_, _, _, _, hcount⟩
    · simp only [bind_eq_ok] at h
      obtain ⟨_, -, _, -, _, -, _, -, counted, hcount, h⟩ := h
      cases h
      exact ⟨_, _, _, _, hcount⟩
  obtain ⟨charged, res, usage, used, hcount⟩ := hcount
  unfold countTransaction at hcount
  simp only [bind_eq_ok, eosAssert_eq_ok, decide_eq_true_eq] at hcount
  obtain ⟨_, -, _, -, _, -, _, -, _, -, _, -, _, hcpu, _, hnet, hcount⟩ := hcount
  cases hcount
  exact ⟨hcpu, hnet⟩

theorem Executes.pending_le (h : Executes s db db')
    (hcpu : db.state.pendingCpuUsage ≤ s.cpuLimitParameters.max)
    (hnet : db.state.pendingNetUsage ≤ s.netLimitParameters.max) :
    db'.state.pendingCpuUsage ≤ s.cpuLimitParameters.max ∧
      db'.state.pendingNetUsage ≤ s.netLimitParameters.max := by
  induction h with
  | done => exact ⟨hcpu, hnet⟩
  | transaction htrx _ ih =>
    obtain ⟨hcpu', hnet'⟩ := addTransactionUsage_pending htrx
    exact ih hcpu' hnet'
  | other hc hn _ ih => exact ih (hc ▸ hcpu) (hn ▸ hnet)

theorem finishBlock_eq (s : BlockLimits) (cfg : ChainConfig) (blockNum : UInt32) :
    s.finishBlock cfg blockNum = processBlockUsage { s with
      cpuLimitParameters := cfg.cpuLimitParameters
      netLimitParameters := cfg.netLimitParameters
      gasPerCpuMs := cfg.gasPerCpuMs
      gasPerNetKb := cfg.gasPerNetKb
      gasPerRamKb := cfg.gasPerRamKb } blockNum := rfl

theorem maxBlockCpuUsage_safe (cfg : ChainConfig) :
    cfg.maxBlockCpuUsage.toUInt64.toNat ≤ safeMaximum := by
  have hlt := cfg.maxBlockCpuUsage.toNat_lt
  rw [toNat_toUInt64, safeMaximum]
  omega

theorem processBlockUsage_eq_ok {blockNum : UInt32} :
    s.processBlockUsage blockNum = .ok s' ↔ ∃ cpuAverage cpuLimit netAverage netLimit,
      s.averageBlockCpuUsage.add s.db.state.pendingCpuUsage blockNum
        s.cpuLimitParameters.periods = .ok cpuAverage ∧
      s.cpuLimitParameters.updateElasticLimit s.virtualCpuLimit cpuAverage.average =
        .ok cpuLimit ∧
      s.averageBlockNetUsage.add s.db.state.pendingNetUsage blockNum
        s.netLimitParameters.periods = .ok netAverage ∧
      s.netLimitParameters.updateElasticLimit s.virtualNetLimit netAverage.average =
        .ok netLimit ∧
      s' = { s with
        db := { s.db with state := { s.db.state with pendingCpuUsage := 0, pendingNetUsage := 0 } }
        averageBlockCpuUsage := cpuAverage
        averageBlockNetUsage := netAverage
        virtualCpuLimit := cpuLimit
        virtualNetLimit := netLimit } := by
  unfold processBlockUsage
  simp only [bind_eq_ok]
  constructor
  · rintro ⟨cpuAverage, h₁, cpuLimit, h₂, netAverage, h₃, netLimit, h₄, h⟩
    exact ⟨_, _, _, _, h₁, h₂, h₃, h₄, (Except.ok.inj h).symm⟩
  · rintro ⟨cpuAverage, cpuLimit, netAverage, netLimit, h₁, h₂, h₃, h₄, rfl⟩
    exact ⟨_, h₁, _, h₂, _, h₃, _, h₄, rfl⟩

theorem SafeLimits.finishBlock (h : SafeLimits n s) (hexec : Executes s s.db db)
    (hmax : cfg.maxBlockNetUsage.toNat ≤ safeMaximum) (hn : n + 1 < 2 ^ 32) :
    ∃ s', finishBlock { s with db := db } cfg (UInt32.ofNat (n + 1)) = .ok s' ∧
      SafeLimits (n + 1) s' ∧ s'.InRange := by
  have hnum : (UInt32.ofNat (n + 1)).toNat = n + 1 := toNat_ofNat_of_lt' hn
  have hlt : n < (UInt32.ofNat (n + 1)).toNat := by omega
  obtain ⟨hcpu, hnet⟩ := hexec.pending_le (h.cpu_pending ▸ UInt64.zero_le)
    (h.net_pending ▸ UInt64.zero_le)
  obtain ⟨cpuAverage, hcpuAdd, hcpuCalm⟩ :=
    h.cpu_calm.add ((UInt64.le_iff_toNat_le.mp hcpu).trans h.cpu_max) hlt
  obtain ⟨netAverage, hnetAdd, hnetCalm⟩ :=
    h.net_calm.add ((UInt64.le_iff_toNat_le.mp hnet).trans h.net_max) hlt
  have hcpuMax := maxBlockCpuUsage_safe cfg
  obtain ⟨cpuLimit, hcpuLimit, hcpuRange⟩ := updateElasticLimit_safe cpuAverage.average
    cfg.targetBlockCpuUsagePct blockCpuUsageAverageWindowMs hcpuMax h.cpu_limit
  obtain ⟨netLimit, hnetLimit, hnetRange⟩ := updateElasticLimit_safe netAverage.average
    cfg.targetBlockNetUsagePct blockSizeAverageWindowMs hmax h.net_limit
  rw [hnum] at hcpuCalm hnetCalm
  refine ⟨_, processBlockUsage_eq_ok.mpr ⟨_, _, _, _, hcpuAdd, hcpuLimit, hnetAdd, hnetLimit, rfl⟩,
    ⟨hcpuCalm, hnetCalm, hcpuMax, hmax, ?_, ?_, rfl, rfl⟩, hcpuRange, hnetRange⟩
  · change cpuLimit.toNat ≤ _
    omega
  · change netLimit.toNat ≤ _
    omega

theorem calm_zero (n : ℕ) : Calm ⟨0, 0, 0⟩ n := ⟨Nat.zero_le _, Nat.zero_le _, Nat.zero_le _⟩

theorem AtBlock.safe (h : AtBlock M n s) (hM : M ≤ safeMaximum) : SafeLimits n s := by
  induction h with
  | genesis =>
    have hcpu : defaultCpuLimitParameters.max.toNat ≤ safeMaximum := by decide
    have hnet : defaultNetLimitParameters.max.toNat ≤ safeMaximum := by decide
    exact ⟨calm_zero 1, calm_zero 1, hcpu, hnet, hcpu.trans (by omega), hnet.trans (by omega),
      rfl, rfl⟩
  | next _ hexec _ hmax hn hfinish ih =>
    obtain ⟨s', hs', hsafe, -⟩ := ih.finishBlock hexec (hmax.trans hM) hn
    rw [hfinish] at hs'
    cases hs'
    exact hsafe

def overfullConfig : ChainConfig where
  maxBlockNetUsage := 155014656082
  targetBlockNetUsagePct := 1000
  maxTransactionNetUsage := 524288
  basePerTransactionNetUsage := 12
  contextFreeDiscountNetUsageNum := 20
  contextFreeDiscountNetUsageDen := 100
  maxBlockCpuUsage := 200000
  targetBlockCpuUsagePct := 1000
  maxTransactionCpuUsage := 150000
  minTransactionCpuUsage := 100
  maxAuthorityDepth := 6
  gasPerCpuMs := 10000
  gasPerNetKb := 50000
  gasPerRamKb := 50000
  maxActionReturnValueSize := 256

def fullBlock (v : ℕ) : ℕ :=
  v * 119 / 120 + contribAt rateLimitingPrecision overfullConfig.maxBlockNetUsage 120

theorem overflow_after_full_blocks : 2 ^ 64 ≤ fullBlock^[3187] 0 * 119 := by decide +kernel

structure FullBlocks (M k : ℕ) (s : BlockLimits) : Prop where
  atBlock : AtBlock M (k + 2) s
  params : s.netLimitParameters = overfullConfig.netLimitParameters
  value : s.averageBlockNetUsage.valueEx.toNat = fullBlock^[k] 0
  ordinal : s.averageBlockNetUsage.lastOrdinal.toNat = k + 2
  limits : s.db.limits 1 = some ⟨0, true⟩
  usage : ∃ usage, s.db.usage 1 = some usage ∧ usage.cpuUsage = 0 ∧
    usage.netUsage.toNat = k * 155014656082
  totalCpu : s.db.state.totalCpuUsage = 0
  totalNet : s.db.state.totalNetUsage.toNat = k * 155014656082
  pendingCpu : s.db.state.pendingCpuUsage = 0
  pendingNet : s.db.state.pendingNetUsage = 0

variable {k : ℕ}

theorem verifyAdd_zero (a : UInt64) (description : String) : verifyAdd a 0 description = .ok () :=
  verifyAdd_eq_ok.mpr (by have := a.toNat_lt; simpa using this)

theorem addTransactionUsage_unlimited {rc : ResourceConfig} {net : UInt64}
    {limits : AccountLimits} {usage : ResourceUsage} (hlimits : db.limits 1 = some limits)
    (hunlimited : limits.isUnlimited = true) (husage : db.usage 1 = some usage)
    (hpendingCpu : db.state.pendingCpuUsage = 0) (hpendingNet : db.state.pendingNetUsage = 0)
    (hnet : net ≤ rc.netLimitMax) (hroom : usage.netUsage.toNat + net.toNat < 2 ^ 64)
    (htotal : db.state.totalNetUsage.toNat + net.toNat < 2 ^ 64) :
    ∃ db', addTransactionUsage rc db ⟨1, net, 0, 0, 0⟩ = .ok (db', ⟨1, net, 0, 0, 0⟩, none) ∧
      db'.limits = db.limits ∧
      db'.usage 1 = some { usage with cpuUsage := usage.cpuUsage + 0,
                                      netUsage := usage.netUsage + net } ∧
      db'.state.totalCpuUsage = db.state.totalCpuUsage + 0 ∧
      db'.state.totalNetUsage = db.state.totalNetUsage + net ∧
      db'.state.pendingCpuUsage = 0 ∧ db'.state.pendingNetUsage = net := by
  have hnetlt := net.toNat_lt
  have hcount : ∃ db', countTransaction rc db ⟨1, net, 0, 0, 0⟩ usage 0 = .ok db' := by
    refine ⟨_, seq_eq_ok.mpr ⟨verifyAdd_zero _ _, seq_eq_ok.mpr ⟨verifyAdd_eq_ok.mpr hroom,
      seq_eq_ok.mpr ⟨verifyAdd_zero _ _, seq_eq_ok.mpr ⟨verifyAdd_eq_ok.mpr ?_,
      seq_eq_ok.mpr ⟨verifyAdd_zero _ _, seq_eq_ok.mpr ⟨verifyAdd_eq_ok.mpr htotal,
      seq_eq_ok.mpr ⟨?_, seq_eq_ok.mpr ⟨?_, rfl⟩⟩⟩⟩⟩⟩⟩⟩⟩
    · rw [hpendingNet]
      simpa using hnetlt
    · rw [eosAssert_eq_ok, decide_eq_true_eq]
      rw [hpendingCpu]
      exact UInt64.zero_le
    · rw [eosAssert_eq_ok, decide_eq_true_eq]
      rw [hpendingNet, UInt64.zero_add]
      exact hnet
  obtain ⟨db', hcount⟩ := hcount
  refine ⟨db', bind_eq_ok.mpr ⟨usage, getRow_eq_ok.mpr husage, bind_eq_ok.mpr ⟨limits,
    getRow_eq_ok.mpr hlimits, ?_⟩⟩, ?_⟩
  · rw [if_pos hunlimited]
    exact bind_eq_ok.mpr ⟨db', hcount, rfl⟩
  · unfold countTransaction at hcount
    simp only [bind_eq_ok] at hcount
    obtain ⟨_, -, _, -, _, -, _, -, _, -, _, -, _, -, _, -, hcount⟩ := hcount
    cases hcount
    refine ⟨rfl, ?_, rfl, rfl, ?_, ?_⟩
    · exact Function.update_self (1 : AccountName) _ db.usage
    · change db.state.pendingCpuUsage + 0 = 0
      rw [hpendingCpu]
      rfl
    · change db.state.pendingNetUsage + net = net
      rw [hpendingNet, UInt64.zero_add]

theorem FullBlocks.next (h : FullBlocks M k s) (hk : k ≤ 3187) (hM : safeMaximum < M)
    (hall : NeverStops M) : fullBlock^[k] 0 * 119 < 2 ^ 64 ∧ ∃ s', FullBlocks M (k + 1) s' := by
  obtain ⟨usage, husage, hcpu, hnet⟩ := h.usage
  have hfull : (155014656082 : UInt64).toNat = 155014656082 := rfl
  have hmax : (155014656082 : UInt64) ≤ (s.resourceConfig 0 0 0).netLimitMax := by
    change _ ≤ s.netLimitParameters.max
    rw [h.params]
    exact UInt64.le_refl _
  have htotal := h.totalNet
  obtain ⟨db, hpay, hlimits, husage', htotalCpu, htotalNet, hpendingCpu, hpendingNet⟩ :=
    addTransactionUsage_unlimited h.limits rfl husage h.pendingCpu h.pendingNet hmax (by omega)
      (by omega)
  have hvalid : overfullConfig.validate = .ok () := rfl
  obtain ⟨s', hfinish, -⟩ := hall (k + 2) s db overfullConfig h.atBlock
    (.transaction hpay (.done _)) hvalid hM (by omega)
  have hnum : (UInt32.ofNat (k + 2 + 1)).toNat = k + 2 + 1 :=
    toNat_ofNat_of_lt' (by change k + 2 + 1 < 2 ^ 32; omega)
  have hlt : s.averageBlockNetUsage.lastOrdinal < UInt32.ofNat (k + 2 + 1) := by
    rw [lt_iff_toNat_lt, hnum, h.ordinal]
    omega
  have hfinish' := hfinish
  obtain ⟨_, _, netAverage, _, -, -, hadd, -, rfl⟩ := processBlockUsage_eq_ok.mp hfinish'
  change s.averageBlockNetUsage.add db.state.pendingNetUsage _ 120 = _ at hadd
  obtain ⟨hfits, hordinal, hvalue, -⟩ := fitsAt_of_addAt hlt (by decide) hadd
  have hkept : s.averageBlockNetUsage.kept (UInt32.ofNat (k + 2 + 1)) 120 = 119 := by
    have hwindow : (120 : UInt32).toNat = 120 := rfl
    have hlast := h.ordinal
    unfold kept
    omega
  have hdecay := hfits.decay_lt
  rw [hkept, h.value] at hdecay hvalue
  refine ⟨hdecay, _, .next h.atBlock (.transaction hpay (.done _)) hvalid hM (by omega) hfinish,
    rfl, ?_, ?_, by rw [← h.limits, ← hlimits], ⟨_, husage', ?_, ?_⟩, ?_, ?_, rfl, rfl⟩
  · change netAverage.valueEx.toNat = _
    rw [hvalue, hpendingNet, Function.iterate_succ_apply']
    rfl
  · change netAverage.lastOrdinal.toNat = _
    rw [hordinal, hnum]
  · rw [hcpu]
    rfl
  · rw [UInt64.toNat_add, hnet, hfull]
    omega
  · change db.state.totalCpuUsage = 0
    rw [htotalCpu, h.totalCpu]
    rfl
  · change db.state.totalNetUsage.toNat = _
    rw [htotalNet, UInt64.toNat_add, h.totalNet, hfull]
    omega

theorem exists_fullBlocks (hM : safeMaximum < M) (hall : NeverStops M) (hk : k ≤ 3187) :
    ∃ s, FullBlocks M k s := by
  induction k with
  | zero =>
    have hgenesis : AtBlock M 1 _ := .genesis overfullConfig (fun _ => some ⟨0, true⟩)
      (fun _ => some ⟨0, 0, 0⟩) fun _ => none
    have hvalid : overfullConfig.validate = .ok () := rfl
    obtain ⟨s, hfinish, -⟩ := hall 1 _ _ overfullConfig hgenesis (.done _) hvalid hM (by decide)
    have hfinish' := hfinish
    rw [finishBlock_eq] at hfinish'
    obtain ⟨_, _, netAverage, _, -, -, hadd, -, rfl⟩ := processBlockUsage_eq_ok.mp hfinish'
    obtain ⟨-, hordinal, hvalue, -⟩ := fitsAt_of_addAt (by decide) (by decide) hadd
    exact ⟨_, .next hgenesis (.done _) hvalid hM (by decide) hfinish, rfl, hvalue,
      congrArg UInt32.toNat hordinal, rfl, ⟨_, rfl, rfl, rfl⟩, rfl, rfl, rfl, rfl⟩
  | succ k ih =>
    obtain ⟨s, hs⟩ := ih (by omega)
    exact (hs.next (by omega) hM hall).2

/-- The end of a block never throws and keeps the limits in range exactly when the
configurations stay below the safe maximum. -/
theorem neverStops_iff (M : ℕ) : NeverStops M ↔ M ≤ safeMaximum := by
  constructor
  · intro hall
    by_contra hM
    obtain ⟨s, hs⟩ := exists_fullBlocks (not_le.mp hM) hall le_rfl
    have hlt := (hs.next le_rfl (not_le.mp hM) hall).1
    exact absurd overflow_after_full_blocks (not_le.mpr hlt)
  · intro hM n s db cfg hs hexec _ hmax hn
    obtain ⟨s', hs', -, hrange⟩ := (hs.safe hM).finishBlock hexec (hmax.trans hM) hn
    exact ⟨s', hs', hrange⟩

def hugeConfig : ChainConfig := { overfullConfig with maxBlockNetUsage := 20000000000000000 }

def hugeGenesis : BlockLimits :=
  .initializeDatabase hugeConfig (fun _ => none) (fun _ => none) fun _ => none

def hugeLimits : BlockLimits := { hugeGenesis with
  cpuLimitParameters := hugeConfig.cpuLimitParameters
  netLimitParameters := hugeConfig.netLimitParameters
  averageBlockCpuUsage := ⟨2, 0, 0⟩
  averageBlockNetUsage := ⟨2, 0, 0⟩
  virtualCpuLimit := 200200
  virtualNetLimit := 20000000000000000 }

/-- The end of the next block throws, also without any transaction. -/
theorem hugeConfig_stops : hugeConfig.validate = .ok () ∧ AtBlock (2 ^ 64 - 1) 2 hugeLimits ∧
    hugeLimits.finishBlock hugeConfig 3 = .error ⟨.rateLimitingStateInconsistent,
      "Usage exceeds maximum value representable after extending for precision"⟩ := by
  have hfirst : hugeGenesis.finishBlock hugeConfig 2 = .ok hugeLimits := by
    rw [finishBlock_eq]
    exact processBlockUsage_eq_ok.mpr ⟨⟨2, 0, 0⟩, 200200, ⟨2, 0, 0⟩, 20000000000000000,
      by decide +kernel, by decide +kernel, by decide +kernel, by decide +kernel, rfl⟩
  refine ⟨rfl, .next (.genesis hugeConfig _ _ _) (.done _) rfl (by decide) (by decide) hfirst, ?_⟩
  rfl

end FlonCore
