import FlonCore.GasTraces
import FlonCore.RamPrice

/-!
# Gas for RAM over a whole run

A run is a sequence of `add_ram_usage` calls for one limited account. Each call
counts its bytes for the account and for the total, and is priced on its own
delta. Where prices are linear the net charge of a run is the price of the
bytes it leaves behind.
-/

namespace FlonCore
open Library UInt64
open ResourceDb
variable {cfg : ResourceConfig} {db db' : ResourceDb} {account : AccountName} {ramDelta : Int64}

theorem toInt_eq_toNat (d : Int64) :
    d.toInt = if 2 * d.toUInt64.toNat < 2 ^ 64 then (d.toUInt64.toNat : ℤ)
      else d.toUInt64.toNat - 2 ^ 64 := by
  rfl

theorem toNat_toUInt64_of_pos (h : 0 < ramDelta) :
    (ramDelta.toUInt64.toNat : ℤ) = ramDelta.toInt := by
  have hlt := ramDelta.toUInt64.toNat_lt
  rw [Int64.lt_iff_toInt_lt, Int64.toInt_zero] at h
  rw [toInt_eq_toNat] at h ⊢
  split_ifs at h ⊢ <;> omega

theorem toNat_toUInt64_neg (h : ramDelta < 0) :
    ((-ramDelta).toUInt64.toNat : ℤ) = -ramDelta.toInt := by
  rw [Int64.lt_iff_toInt_lt, Int64.toInt_zero] at h
  rw [toInt_eq_toNat] at h ⊢
  rw [Int64.toUInt64_neg, toNat_neg, UInt64.size]
  split_ifs at h ⊢ <;> omega

variable {description insufficient : String}

theorem toNat_add_of_checkDelta {bytes : UInt64} (hzero : ramDelta ≠ 0)
    (h : checkDelta bytes ramDelta description insufficient = .ok ()) :
    ((bytes + ramDelta.toUInt64).toNat : ℤ) = bytes.toNat + ramDelta.toInt := by
  unfold checkDelta at h
  split_ifs at h with hpos
  · rw [toNat_add_of_verifyAdd h, Nat.cast_add, toNat_toUInt64_of_pos hpos]
  · have hneg : ramDelta < 0 := Int64.lt_of_le_of_ne (Int64.not_lt.mp hpos) hzero
    have hsum : bytes + ramDelta.toUInt64 = bytes - (-ramDelta).toUInt64 := by
      simp
    rw [eosAssert_eq_ok, decide_eq_true_eq] at h
    rw [hsum, UInt64.toNat_sub_of_le _ _ h, Nat.cast_sub (le_iff_toNat_le.mp h),
      toNat_toUInt64_neg hneg, sub_neg_eq_add]

def ResourceDb.ramBytes (db : ResourceDb) (a : AccountName) : ℕ :=
  ((db.usage a).map fun u => u.ramUsage.toNat).getD 0

structure Counted (cfg : ResourceConfig) (db db' : ResourceDb) (account : AccountName)
    (ramDelta : Int64) : Prop where
  bytes_eq : (db'.ramBytes account : ℤ) = db.ramBytes account + ramDelta.toInt
  total_eq : (db'.state.totalRamUsage.toNat : ℤ) = db.state.totalRamUsage.toNat + ramDelta.toInt
  total_le : db'.state.totalRamUsage.toNat ≤ cfg.maxTotalRamUsage.toNat

theorem countRam_counted {usage : ResourceUsage} (hzero : ramDelta ≠ 0)
    (hcheck : checkDelta usage.ramUsage ramDelta description insufficient = .ok ())
    (h : countRam cfg db account usage ramDelta = .ok db') :
    (db'.ramBytes account : ℤ) = usage.ramUsage.toNat + ramDelta.toInt ∧
      (db'.state.totalRamUsage.toNat : ℤ) = db.state.totalRamUsage.toNat + ramDelta.toInt ∧
      db'.state.totalRamUsage.toNat ≤ cfg.maxTotalRamUsage.toNat := by
  unfold countRam at h
  rw [seq_eq_ok, seq_eq_ok, eosAssert_eq_ok, decide_eq_true_eq] at h
  obtain ⟨htotal, hle, h⟩ := h
  cases h
  refine ⟨?_, toNat_add_of_checkDelta hzero htotal, le_iff_toNat_le.mp hle⟩
  rw [← toNat_add_of_checkDelta hzero hcheck]
  simp [ramBytes]

def ResourceDb.wealth (db : ResourceDb) (a : AccountName) : ℤ :=
  db.reservedGas a + db.coreBalance a

def LimitedAccount (db : ResourceDb) (account : AccountName) : Prop :=
  ∃ l, db.limits account = some l ∧ l.isUnlimited = false

structure RamStep (cfg : ResourceConfig) (db db' : ResourceDb) (account : AccountName)
    (ramDelta : Int64) (t : AccountGasTrace) : Prop where
  counted : Counted cfg db db' account ramDelta
  gas : GasUnlimited cfg db'
  limited : LimitedAccount db' account
  wealth : db'.wealth account = db.wealth account - t.usedGas.toNat + t.refund
  priced : (0 < ramDelta ∧ t.refund = 0 ∧
      t.usedGas.toNat = ramGas cfg.gasPerRamKb.toNat ramDelta.toInt.toNat) ∨
    (ramDelta < 0 ∧ t.usedGas.toNat = 0 ∧
      t.refund = ramGas cfg.gasPerRamKb.toNat (-ramDelta.toInt).toNat)

variable {trx : Option AccountGasTrace}

theorem addRamUsage_counted (hgas : GasUnlimited cfg db)
    (hzero : ramDelta ≠ 0) (h : addRamUsage cfg db account ramDelta = .ok (db', trx)) :
    Counted cfg db db' account ramDelta := by
  rw [addRamUsage, if_neg hzero, bind_eq_ok] at h
  obtain ⟨usage, husage, h⟩ := h
  rw [getRow_eq_ok] at husage
  rw [seq_eq_ok, bind_eq_ok] at h
  obtain ⟨hcheck, limits, hl, h⟩ := h
  rw [getRow_eq_ok] at hl
  have hbytes : db.ramBytes account = usage.ramUsage.toNat := by
    simp [ramBytes, husage]
  split_ifs at h with hunlimited
  · obtain ⟨counted, hcount, h⟩ := bind_eq_ok.mp h
    cases h
    obtain ⟨hb, htotal, hle⟩ := countRam_counted hzero hcheck hcount
    exact ⟨by rw [hb, hbytes], htotal, hle⟩
  · rw [Bool.not_eq_true] at hunlimited
    obtain ⟨⟨charged, t⟩, hchange, h⟩ := bind_eq_ok.mp h
    obtain ⟨counted, hcount, h⟩ := bind_eq_ok.mp h
    cases h
    obtain ⟨hb, htotal, hle⟩ := countRam_counted hzero hcheck hcount
    have hsame : charged.state.totalRamUsage = db.state.totalRamUsage := by
      unfold changeRamGas at hchange
      split_ifs at hchange with hpos
      · obtain ⟨_, _, _, _, -, -, -, -, -, hconsumed, -⟩ :=
          chargeRam_moved hl (hgas.ne hl hunlimited) hchange
        exact hconsumed.ram
      · obtain ⟨refund, hrefund⟩ := refundRam_refunded hl hchange
        exact congrArg ResourceState.totalRamUsage hrefund.state_eq
    exact ⟨by rw [hb, hbytes], by rw [htotal, hsame], hle⟩

theorem addRamUsage_step (hgas : GasUnlimited cfg db)
    (hlimited : LimitedAccount db account) (hzero : ramDelta ≠ 0)
    (h : addRamUsage cfg db account ramDelta = .ok (db', trx)) :
    ∃ t, trx = some t ∧ RamStep cfg db db' account ramDelta t := by
  have hcounted := addRamUsage_counted hgas hzero h
  rcases addRamUsage_cases hgas h with ⟨-, -, -, hzero' | ⟨l, hl, hunlimited⟩⟩ |
    ⟨limits, t, hl, hunlimited, rfl, haccount, hdelta, hlimits, hkind⟩
  · exact absurd hzero' hzero
  · obtain ⟨l', hl', hlimited'⟩ := hlimited
    cases hl.symm.trans hl'
    rw [hunlimited] at hlimited'
    cases hlimited'
  · have hlimited' : LimitedAccount db' account :=
      ⟨{ limits with gas := t.reservedGasAfter }, by rw [hlimits, Function.update_self],
        hunlimited⟩
    have hgas' := hgas.addRamUsage h
    rcases hkind with ⟨hpos, hused, hc⟩ | ⟨hneg, haccounts, refund, charged, hr⟩
    · have hrefund : t.refund = 0 := AccountGasTrace.refund_of_pos (hdelta ▸ hpos)
      refine ⟨t, rfl, hcounted, hgas', hlimited', ?_, .inl ⟨hpos, hrefund, ?_⟩⟩
      · rw [wealth, wealth, hc.payer_total, hrefund, add_zero]
      · rw [toNat_of_convertRamToGas hused, ← toNat_toUInt64_of_pos hpos, Int.toNat_natCast]
    · have hused : t.usedGas.toNat = 0 := by rw [hr.trace_eq]; rfl
      refine ⟨t, rfl, hcounted, hgas', hlimited', ?_, .inr ⟨hneg, hused, ?_⟩⟩
      · have hcore : db'.coreBalance account = db.coreBalance account := by
          rw [coreBalance, coreBalance, haccounts]
        have hbalanced := (addRamUsage_reports hgas h).2
        have hconverted : t.convertedGas.toNat = 0 := by rw [hr.trace_eq]; rfl
        have hsplit := hbalanced.balanced
        rw [AccountGasTrace.Balanced, hbalanced.before_eq, hbalanced.after_eq, haccount] at hsplit
        rw [wealth, wealth, hcore]
        omega
      · rw [hr.refund_eq hneg, toNat_of_convertRamToGas hr.convert_eq, ← toNat_toUInt64_neg hneg,
          Int.toNat_natCast]

def ramCalls (cfg : ResourceConfig) (account : AccountName) (db : ResourceDb) :
    List Int64 → Except Failure (ResourceDb × List AccountGasTrace)
  | [] => .ok (db, [])
  | ramDelta :: deltas => do
    let (db₁, trace) ← addRamUsage cfg db account ramDelta
    let (db₂, traces) ← ramCalls cfg account db₁ deltas
    return (db₂, trace.toList ++ traces)

def totalCharged (traces : List AccountGasTrace) : ℤ :=
  (traces.map fun t => (t.usedGas.toNat : ℤ)).sum

def totalRefunded (traces : List AccountGasTrace) : ℤ :=
  (traces.map AccountGasTrace.refund).sum

structure RamBound (cfg : ResourceConfig) (db : ResourceDb) (account : AccountName) : Prop where
  total : db.ramBytes account ≤ db.state.totalRamUsage.toNat
  limit : db.ramBytes account ≤ cfg.maxTotalRamUsage.toNat

theorem RamBound.step {t : AccountGasTrace} (h : RamBound cfg db account)
    (hstep : RamStep cfg db db' account ramDelta t) : RamBound cfg db' account := by
  have hbytes := hstep.counted.bytes_eq
  have htotal := hstep.counted.total_eq
  have hle := hstep.counted.total_le
  have hin := h.total
  constructor <;> omega

theorem RamStep.net {t : AccountGasTrace} (hstep : RamStep cfg db db' account ramDelta t)
    (hbound : RamBound cfg db account)
    (hexact : ExactUpTo cfg.gasPerRamKb.toNat cfg.maxTotalRamUsage.toNat) :
    (t.usedGas.toNat : ℤ) - t.refund = ramDelta.toInt * bytePrice cfg.gasPerRamKb.toNat := by
  have hbytes := hstep.counted.bytes_eq
  have htotal := hstep.counted.total_eq
  have hle := hstep.counted.total_le
  have hlimit := hbound.limit
  rcases hstep.priced with ⟨hpos, hrefund, hused⟩ | ⟨hneg, hused, hrefund⟩
  · rw [Int64.lt_iff_toInt_lt, Int64.toInt_zero] at hpos
    rw [hused, hrefund, hexact.ramGas_eq (by omega), Nat.cast_mul, Int.toNat_of_nonneg hpos.le,
      sub_zero]
  · rw [Int64.lt_iff_toInt_lt, Int64.toInt_zero] at hneg
    rw [hused, hrefund, hexact.ramGas_eq (by omega), Nat.cast_mul, Int.toNat_of_nonneg (by omega)]
    ring

structure RamRun (cfg : ResourceConfig) (db db' : ResourceDb) (account : AccountName)
    (traces : List AccountGasTrace) : Prop where
  wealth : db'.wealth account = db.wealth account - totalCharged traces + totalRefunded traces
  net : ExactUpTo cfg.gasPerRamKb.toNat cfg.maxTotalRamUsage.toNat →
    totalCharged traces - totalRefunded traces =
      ((db'.ramBytes account : ℤ) - db.ramBytes account) * bytePrice cfg.gasPerRamKb.toNat

theorem ramCalls_run {deltas : List Int64} {traces : List AccountGasTrace}
    (hgas : GasUnlimited cfg db) (hlimited : LimitedAccount db account)
    (hbound : RamBound cfg db account) (hzero : ∀ d ∈ deltas, d ≠ 0)
    (h : ramCalls cfg account db deltas = .ok (db', traces)) :
    RamRun cfg db db' account traces := by
  induction deltas generalizing db traces with
  | nil =>
    cases h
    exact ⟨by simp [totalCharged, totalRefunded], fun _ => by simp [totalCharged, totalRefunded]⟩
  | cons ramDelta deltas ih =>
    rw [ramCalls, bind_eq_ok] at h
    obtain ⟨⟨db₁, trx⟩, hcall, h⟩ := h
    obtain ⟨⟨db₂, traces'⟩, hrest, h⟩ := bind_eq_ok.mp h
    cases h
    obtain ⟨t, rfl, hstep⟩ :=
      addRamUsage_step hgas hlimited (hzero _ List.mem_cons_self) hcall
    have hrun := ih hstep.gas hstep.limited (hbound.step hstep)
      (fun d hd => hzero d (List.mem_cons_of_mem _ hd)) hrest
    have hcharged : totalCharged (t :: traces') = t.usedGas.toNat + totalCharged traces' := by
      simp [totalCharged]
    have hrefunded : totalRefunded (t :: traces') = t.refund + totalRefunded traces' := by
      simp [totalRefunded]
    constructor
    · change _ = _ - totalCharged (t :: traces') + totalRefunded (t :: traces')
      rw [hrun.wealth, hstep.wealth, hcharged, hrefunded]
      ring
    · intro hexact
      change totalCharged (t :: traces') - totalRefunded (t :: traces') = _
      have hnet := hstep.net hbound hexact
      have hnet' := hrun.net hexact
      have hbytes := hstep.counted.bytes_eq
      rw [hcharged, hrefunded, add_sub_add_comm, hnet, hnet', hbytes]
      ring

end FlonCore
