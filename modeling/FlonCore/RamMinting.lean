import FlonCore.RamGas

/-!
# When RAM gas can be minted

Charges and refunds are both rounded up, so bytes that are bought at once and
freed in parts can return more gas than they cost. A run on an account that is
alone with the gas account shows it for every configuration in which the price
is not linear up to the limit on the total.
-/

namespace FlonCore
open Library UInt64 Function
variable {cfg : ResourceConfig} {db db' : ResourceDb} {account : AccountName} {ramDelta : Int64}

def RamGasKept (cfg : ResourceConfig) : Prop :=
  ∀ db account deltas db' traces, GasUnlimited cfg db → LimitedAccount db account →
    db.ramBytes account = 0 → (∀ d ∈ deltas, d ≠ 0) →
    ramCalls cfg account db deltas = .ok (db', traces) →
    totalRefunded traces ≤ totalCharged traces ∧
      (db'.ramBytes account = 0 → db'.wealth account ≤ db.wealth account)

theorem ramGasKept_of_exact
    (hexact : ExactUpTo cfg.gasPerRamKb.toNat cfg.maxTotalRamUsage.toNat) : RamGasKept cfg := by
  intro db account deltas db' traces hgas hlimited hbytes hzero h
  have hbound : RamBound cfg db account := by
    constructor <;> omega
  have hrun := ramCalls_run hgas hlimited hbound hzero h
  have hnet := hrun.net hexact
  have hwealth := hrun.wealth
  have hprice : (0 : ℤ) ≤
      ((db'.ramBytes account : ℤ) - db.ramBytes account) * bytePrice cfg.gasPerRamKb.toNat :=
    mul_nonneg (by omega) (Int.natCast_nonneg _)
  constructor <;> omega

variable (cfg)

def soleDb (account : AccountName) (gas bytes consumed : UInt64) : ResourceDb where
  limits := update
    (fun a => if a = cfg.gasAccountName then some ⟨0, true⟩ else none) account (some ⟨gas, false⟩)
  usage := update (fun _ => none) account (some ⟨0, 0, bytes⟩)
  state := ⟨0, 0, 0, 0, bytes, consumed, consumed⟩
  accounts _ := none

variable {gas bytes consumed : UInt64}

@[simp] theorem soleDb_limits (account : AccountName) :
    (soleDb cfg account gas bytes consumed).limits account = some ⟨gas, false⟩ := by
  simp [soleDb]

@[simp] theorem soleDb_usage (account : AccountName) :
    (soleDb cfg account gas bytes consumed).usage account = some ⟨0, 0, bytes⟩ := by
  simp [soleDb]

variable {cfg}

theorem setAccountReservedGas_soleDb (gas' : UInt64) :
    setAccountReservedGas (soleDb cfg account gas bytes consumed) account ⟨gas, false⟩ gas' =
      soleDb cfg account gas' bytes consumed := by
  rw [setAccountReservedGas_eq (soleDb_limits cfg account)]
  simp [soleDb]

theorem addRamUsage_soleDb {gas' consumed' : UInt64} (hzero : ramDelta ≠ 0)
    (hcheck : ∀ description insufficient,
      checkDelta bytes ramDelta description insufficient = .ok ())
    (hmax : bytes + ramDelta.toUInt64 ≤ cfg.maxTotalRamUsage)
    (hchange : ∃ t, changeRamGas cfg (soleDb cfg account gas bytes consumed) account ⟨gas, false⟩
      ramDelta = .ok (soleDb cfg account gas' bytes consumed', t)) :
    ∃ t, addRamUsage cfg (soleDb cfg account gas bytes consumed) account ramDelta =
      .ok (soleDb cfg account gas' (bytes + ramDelta.toUInt64) consumed', t) := by
  obtain ⟨t, hchange⟩ := hchange
  refine ⟨some t, ?_⟩
  rw [addRamUsage, if_neg hzero, soleDb_usage, soleDb_limits]
  refine bind_eq_ok.mpr ⟨_, rfl, seq_eq_ok.mpr ⟨hcheck _ _, bind_eq_ok.mpr ⟨_, rfl, ?_⟩⟩⟩
  refine bind_eq_ok.mpr ⟨_, hchange, bind_eq_ok.mpr ⟨_, ?_, rfl⟩⟩
  refine seq_eq_ok.mpr ⟨hcheck _ _, seq_eq_ok.mpr ⟨eosAssert_eq_ok.mpr (decide_eq_true hmax), ?_⟩⟩
  simp [soleDb, pure, Except.pure]

theorem ne_zero_of_pos (h : 0 < ramDelta) : ramDelta ≠ 0 := by
  rintro rfl
  exact absurd h (by decide)

theorem ne_zero_of_neg (h : ramDelta < 0) : ramDelta ≠ 0 := by
  rintro rfl
  exact absurd h (by decide)

theorem toInt64_pos {x : UInt64} (hpos : 0 < x.toNat) (hlt : x.toNat < 2 ^ 63) : 0 < x.toInt64 := by
  rw [Int64.lt_iff_toInt_lt, Int64.toInt_zero, toInt_toInt64 (by omega)]
  omega

theorem neg_toInt64_neg {x : UInt64} (hpos : 0 < x.toNat) (hlt : x.toNat < 2 ^ 63) :
    -x.toInt64 < 0 := by
  have hneg : (-x.toInt64).toUInt64.toNat = 2 ^ 64 - x.toNat := by
    rw [Int64.toUInt64_neg, toUInt64_toInt64, toNat_neg, UInt64.size]
    omega
  rw [Int64.lt_iff_toInt_lt, Int64.toInt_zero, toInt_eq_toNat, hneg, if_neg (by omega)]
  omega

section Call
variable {x : UInt64} (hx : 0 < x.toNat) (hlt : x.toNat < 2 ^ 63)
include hx hlt

theorem charge_soleDb {used : UInt64} (hused : convertRamToGas cfg x = .ok used)
    (hgas : used ≤ gas) (hconsumed : consumed.toNat + used.toNat < 2 ^ 63)
    (hmax : bytes.toNat + x.toNat ≤ cfg.maxTotalRamUsage.toNat) :
    ∃ t, addRamUsage cfg (soleDb cfg account gas bytes consumed) account x.toInt64 =
      .ok (soleDb cfg account (gas - used) (bytes + x) (consumed + used), t) := by
  have hpos := toInt64_pos hx hlt
  have hwrap := cfg.maxTotalRamUsage.toNat_lt
  have hcount : bytes + x ≤ cfg.maxTotalRamUsage := by
    rw [le_iff_toNat_le, UInt64.toNat_add, Nat.mod_eq_of_lt (by omega)]
    exact hmax
  have hback : x.toInt64.toUInt64 = x := toUInt64_toInt64 x
  rw [← hback] at hused hcount
  nth_rewrite 2 [← hback]
  refine addRamUsage_soleDb (ne_zero_of_pos hpos) ?_ hcount ?_
  · intro description insufficient
    rw [checkDelta, if_pos hpos, verifyAdd_eq_ok, hback]
    omega
  · have hroom := gas.toNat_lt
    rw [changeRamGas, if_pos hpos, chargeRam, hused]
    refine ⟨⟨account, gas, gas - used, used, 0, ⟨x.toInt64, (-used).toInt64⟩⟩,
      bind_eq_ok.mpr ⟨used, rfl, bind_eq_ok.mpr ⟨none, ?_, ?_⟩⟩⟩
    · exact if_neg (UInt64.not_lt.mpr hgas)
    · refine seq_eq_ok.mpr ⟨verifyAdd_eq_ok.mpr (by simpa using hroom), seq_eq_ok.mpr
        ⟨eosAssert_eq_ok.mpr (by simpa using hgas), bind_eq_ok.mpr ⟨_, rfl, ?_⟩⟩⟩
      dsimp only
      rw [setAccountReservedGas_soleDb]
      refine seq_eq_ok.mpr ⟨verifyAdd_eq_ok.mpr ?_, seq_eq_ok.mpr ⟨verifyAdd_eq_ok.mpr ?_,
        seq_eq_ok.mpr ⟨eosAssert_eq_ok.mpr ?_, rfl⟩⟩⟩
      · simp only [soleDb]
        omega
      · simp only [soleDb]
        omega
      · rw [decide_eq_true_eq]
        omega

theorem refund_soleDb {refund : UInt64} (hrefund : convertRamToGas cfg x = .ok refund)
    (hgas : gas.toNat + refund.toNat < 2 ^ 63) (hfits : x ≤ bytes)
    (hmax : bytes ≤ cfg.maxTotalRamUsage) :
    ∃ t, addRamUsage cfg (soleDb cfg account gas bytes consumed) account (-x.toInt64) =
      .ok (soleDb cfg account (gas + refund) (bytes - x) consumed, t) := by
  have hneg := neg_toInt64_neg hx hlt
  have hnot : ¬ 0 < -x.toInt64 := fun hpos => Int64.lt_irrefl (Int64.lt_trans hpos hneg)
  have hback : (-(-x.toInt64)).toUInt64 = x := by simp
  have hsub : bytes + (-x.toInt64).toUInt64 = bytes - x := by
    rw [Int64.toUInt64_neg, toUInt64_toInt64, ← UInt64.sub_eq_add_neg]
  have hcount : bytes - x ≤ cfg.maxTotalRamUsage := by
    rw [le_iff_toNat_le] at hmax
    rw [le_iff_toNat_le, UInt64.toNat_sub_of_le _ _ hfits]
    omega
  rw [← hsub] at hcount ⊢
  refine addRamUsage_soleDb (ne_zero_of_neg hneg) ?_ hcount ?_
  · intro description insufficient
    rw [checkDelta, if_neg hnot, hback]
    exact eosAssert_eq_ok.mpr (decide_eq_true hfits)
  · rw [changeRamGas, if_neg hnot, refundRam, hback, hrefund]
    refine ⟨⟨account, gas, gas + refund, 0, 0, ⟨-x.toInt64, refund.toInt64⟩⟩,
      bind_eq_ok.mpr ⟨refund, rfl, ?_⟩⟩
    rw [setAccountReservedGas_soleDb]
    refine seq_eq_ok.mpr ⟨verifyAdd_eq_ok.mpr (by dsimp only; omega),
      seq_eq_ok.mpr ⟨eosAssert_eq_ok.mpr ?_, rfl⟩⟩
    rw [decide_eq_true_eq]
    omega

end Call

theorem ramGas_lt (rate n : ℕ) : ramGas rate n < 2 ^ 60 := by
  unfold ramGas
  omega

theorem soleDb_ramBytes : (soleDb cfg account gas bytes consumed).ramBytes account =
    bytes.toNat := by
  simp [ResourceDb.ramBytes]

theorem soleDb_wealth : (soleDb cfg account gas bytes consumed).wealth account = gas.toNat := by
  simp [ResourceDb.wealth, ResourceDb.reservedGas, ResourceDb.coreBalance, soleDb]

theorem soleDb_gasUnlimited (hne : account ≠ cfg.gasAccountName) :
    GasUnlimited cfg (soleDb cfg account gas bytes consumed) :=
  ⟨⟨0, true⟩, by simp [soleDb, Function.update_of_ne hne.symm], rfl⟩

theorem ramCalls_cons {db₁ db₂ : ResourceDb} {trx : Option AccountGasTrace} {deltas : List Int64}
    (hcall : addRamUsage cfg db account ramDelta = .ok (db₁, trx))
    (hrest : ∃ traces, ramCalls cfg account db₁ deltas = .ok (db₂, traces)) :
    ∃ traces, ramCalls cfg account db (ramDelta :: deltas) = .ok (db₂, traces) := by
  obtain ⟨traces, hrest⟩ := hrest
  exact ⟨_, bind_eq_ok.mpr ⟨_, hcall, bind_eq_ok.mpr ⟨_, hrest, rfl⟩⟩⟩

theorem ramCalls_soleDb {part used most last : UInt64} (hpos : 0 < part.toNat)
    (hlt : part.toNat + 1 < 2 ^ 63) (hmax : part.toNat + 1 ≤ cfg.maxTotalRamUsage.toNat)
    (hused : convertRamToGas cfg (part + 1) = .ok used)
    (hmost : convertRamToGas cfg part = .ok most) (hlast : convertRamToGas cfg 1 = .ok last)
    (hle : used ≤ gas)
    (hroom : gas.toNat + used.toNat + most.toNat + last.toNat < 2 ^ 63) :
    (gas - used + most + last).toNat = gas.toNat - used.toNat + most.toNat + last.toNat ∧
      ∃ traces, ramCalls cfg account (soleDb cfg account gas 0 0)
        [(part + 1).toInt64, -part.toInt64, -(1 : UInt64).toInt64] =
          .ok (soleDb cfg account (gas - used + most + last) 0 used, traces) := by
  have hone : (1 : UInt64).toNat = 1 := rfl
  have hzero : (0 : UInt64).toNat = 0 := rfl
  have hall : (part + 1).toNat = part.toNat + 1 := by
    rw [UInt64.toNat_add, hone, Nat.mod_eq_of_lt (by omega)]
  have hsub := UInt64.toNat_sub_of_le gas used hle
  have hadd : (gas - used + most).toNat = gas.toNat - used.toNat + most.toNat := by
    rw [UInt64.toNat_add, hsub, Nat.mod_eq_of_lt (by omega)]
  have hfits : part ≤ part + 1 := le_iff_toNat_le.mpr (by omega)
  have hmax₁ : part + 1 ≤ cfg.maxTotalRamUsage := le_iff_toNat_le.mpr (by omega)
  have hmax₂ : 1 ≤ cfg.maxTotalRamUsage := le_iff_toNat_le.mpr (by omega)
  obtain ⟨t₁, h₁⟩ := charge_soleDb (by omega) (by omega) hused hle
    (by omega : (0 : UInt64).toNat + used.toNat < 2 ^ 63)
    (by omega : (0 : UInt64).toNat + (part + 1).toNat ≤ cfg.maxTotalRamUsage.toNat)
  rw [UInt64.zero_add, UInt64.zero_add] at h₁
  have hroom₂ : (gas - used).toNat + most.toNat < 2 ^ 63 := by omega
  obtain ⟨t₂, h₂⟩ := refund_soleDb hpos (by omega) hmost hroom₂ hfits hmax₁
  rw [UInt64.add_comm part 1, UInt64.add_sub_cancel, UInt64.add_comm 1 part] at h₂
  have hroom₃ : (gas - used + most).toNat + last.toNat < 2 ^ 63 := by omega
  obtain ⟨t₃, h₃⟩ := refund_soleDb (by omega) (by omega) hlast hroom₃ UInt64.le_rfl hmax₂
  refine ⟨by rw [UInt64.toNat_add, hadd, Nat.mod_eq_of_lt (by omega)], ?_⟩
  exact ramCalls_cons h₁ (ramCalls_cons h₂ (ramCalls_cons h₃ ⟨[], rfl⟩))

theorem stepsUpTo_of_kept (h : RamGasKept cfg) :
    StepsUpTo cfg.gasPerRamKb.toNat cfg.maxTotalRamUsage.toNat := by
  intro n htwo hmax hlt
  obtain ⟨account, hne⟩ : ∃ account, account ≠ cfg.gasAccountName :=
    ⟨cfg.gasAccountName + 1, by simp⟩
  obtain ⟨part, hpart⟩ : ∃ part : UInt64, part.toNat = n - 1 :=
    ⟨UInt64.ofNat (n - 1), toNat_ofNat_of_lt' (by simp [UInt64.size]; omega)⟩
  have hone : (1 : UInt64).toNat = 1 := rfl
  have hall : (part + 1).toNat = n := by
    rw [UInt64.toNat_add, hpart, hone, Nat.mod_eq_of_lt (by omega)]
    omega
  obtain ⟨used, hused, husedN⟩ := exists_convertRamToGas cfg (part + 1)
  obtain ⟨most, hmost, hmostN⟩ := exists_convertRamToGas cfg part
  obtain ⟨last, hlast, hlastN⟩ := exists_convertRamToGas cfg 1
  rw [hall] at husedN
  rw [hpart] at hmostN
  rw [hone] at hlastN
  have hprices := ramGas_lt cfg.gasPerRamKb.toNat
  have hprice := hprices n
  have hprice₁ := hprices (n - 1)
  have hprice₂ := hprices 1
  obtain ⟨gas, hgas⟩ : ∃ gas : UInt64, gas.toNat = 2 ^ 62 := ⟨4611686018427387904, rfl⟩
  have hle : used ≤ gas := le_iff_toNat_le.mpr (by omega)
  obtain ⟨hwealth, traces, hrun⟩ := ramCalls_soleDb (by omega) (by omega) (by omega) hused hmost
    hlast hle (by omega)
  have hnonzero : ∀ d ∈ [(part + 1).toInt64, -part.toInt64, -(1 : UInt64).toInt64], d ≠ 0 := by
    simp only [List.forall_mem_cons]
    exact ⟨ne_zero_of_pos (toInt64_pos (by omega) (by omega)),
      ne_zero_of_neg (neg_toInt64_neg (by omega) (by omega)), by decide, nofun⟩
  have hkept := (h _ account _ _ traces (soleDb_gasUnlimited hne)
    ⟨_, soleDb_limits cfg account, rfl⟩ soleDb_ramBytes hnonzero hrun).2 soleDb_ramBytes
  rw [soleDb_wealth, soleDb_wealth] at hkept
  omega

/-- The account gains nothing exactly when the rate is a multiple of the precision, or the limit
so small that rounding never shows, and no product wraps. -/
theorem ramGasKept_iff : RamGasKept cfg ↔
    cfg.maxTotalRamUsage.toNat * roundingGap cfg.gasPerRamKb.toNat < 1000 ∧
      cfg.maxTotalRamUsage.toNat * cfg.gasPerRamKb.toNat + 999 < 2 ^ 64 := by
  have hrate := cfg.gasPerRamKb.toNat_lt
  constructor
  · intro h
    have hsteps := stepsUpTo_of_kept h
    exact ⟨hsteps.hidden hrate, hsteps.fits hrate⟩
  · rintro ⟨hhidden, hfits⟩
    exact ramGasKept_of_exact ⟨hhidden, hfits⟩

/-- Two bytes cost one gas together, and one gas comes back for each. -/
theorem ram_gas_minted :
    ∃ db' traces, GasUnlimited { unitRates with gasPerRamKb := 1 } smallDb ∧
      LimitedAccount smallDb 1 ∧ smallDb.ramBytes 1 = 0 ∧
      ramCalls { unitRates with gasPerRamKb := 1 } 1 smallDb [2, -1, -1] = .ok (db', traces) ∧
      totalCharged traces = 1 ∧ totalRefunded traces = 2 ∧ db'.ramBytes 1 = 0 ∧
      smallDb.wealth 1 = 105 ∧ db'.wealth 1 = 106 :=
  ⟨_, _, ⟨⟨0, true⟩, rfl, rfl⟩, ⟨⟨5, false⟩, rfl, rfl⟩, rfl, rfl, rfl, rfl, rfl, rfl, rfl⟩

end FlonCore
