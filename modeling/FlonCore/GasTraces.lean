import FlonCore.GasConservation

/-!
# The gas traces of a transaction

A transaction first settles the RAM deltas of all accounts and then its own
usage. The payer may get a trace from both; the two are merged. Each trace of
the result accounts for the reserved gas of its account from the start of the
settlement to its end.
-/

namespace FlonCore
open Library List Function
variable {cfg : ResourceConfig} {db db' : ResourceDb} {account : AccountName} {ramDelta : Int64}

def AccountGasTrace.refund (t : AccountGasTrace) : ℤ :=
  if t.ramGasDelta.ramDelta < 0 then t.ramGasDelta.gasDelta.toInt else 0

def AccountGasTrace.Balanced (t : AccountGasTrace) : Prop :=
  (t.reservedGasAfter.toNat : ℤ) =
    t.reservedGasBefore.toNat + t.convertedGas.toNat - t.usedGas.toNat + t.refund

structure Reports (db db' : ResourceDb) (t : AccountGasTrace) : Prop where
  before_eq : t.reservedGasBefore.toNat = db.reservedGas t.account
  after_eq : t.reservedGasAfter.toNat = db'.reservedGas t.account
  balanced : t.Balanced

def GasUnlimited (cfg : ResourceConfig) (db : ResourceDb) : Prop :=
  ∃ l, db.limits cfg.gasAccountName = some l ∧ l.isUnlimited = true

variable {limits : AccountLimits}

theorem GasUnlimited.ne (h : GasUnlimited cfg db)
    (hl : db.limits account = some limits) (hlimited : limits.isUnlimited = false) :
    account ≠ cfg.gasAccountName := by
  rintro rfl
  obtain ⟨l, hl', hunlimited⟩ := h
  cases Option.some.inj (hl.symm.trans hl')
  rw [hunlimited] at hlimited
  cases hlimited

theorem toInt_toInt64 {x : UInt64} (h : x.toNat ≤ 2 ^ 63 - 1) : x.toInt64.toInt = x.toNat := by
  rw [← Int64.toInt_toBitVec, UInt64.toBitVec_toInt64, BitVec.toInt_eq_toNat_of_lt]
  · rfl
  · simp
    omega

structure Refunded (cfg : ResourceConfig) (db db' : ResourceDb) (account : AccountName)
    (limits : AccountLimits) (ramDelta : Int64) (refund : UInt64) (t : AccountGasTrace) : Prop where
  convert_eq : convertRamToGas cfg (-ramDelta).toUInt64 = .ok refund
  toNat_add : (limits.gas + refund).toNat = limits.gas.toNat + refund.toNat
  refund_le : refund.toNat ≤ 2 ^ 63 - 1
  limits_eq : db'.limits = update db.limits account
    (some { limits with gas := limits.gas + refund })
  accounts_eq : db'.accounts = db.accounts
  usage_eq : db'.usage = db.usage
  state_eq : db'.state = db.state
  trace_eq : t = ⟨account, limits.gas, limits.gas + refund, 0, 0, ⟨ramDelta, refund.toInt64⟩⟩

variable {t : AccountGasTrace}

theorem AccountGasTrace.refund_of_pos (h : 0 < t.ramGasDelta.ramDelta) : t.refund = 0 :=
  if_neg fun hlt => Int64.lt_irrefl (Int64.lt_trans h hlt)

theorem Refunded.refund_eq {refund : UInt64}
    (h : Refunded cfg db db' account limits ramDelta refund t) (hneg : ramDelta < 0) :
    t.refund = refund.toNat := by
  rw [h.trace_eq, AccountGasTrace.refund, if_pos hneg, toInt_toInt64 h.refund_le]

theorem refundRam_refunded (hl : db.limits account = some limits)
    (h : refundRam cfg db account limits ramDelta = .ok (db', t)) :
    ∃ refund, Refunded cfg db db' account limits ramDelta refund t := by
  unfold refundRam at h
  obtain ⟨refund, hrefund, h⟩ := bind_eq_ok.mp h
  rw [seq_eq_ok, seq_eq_ok, verifyDeltaConverting, eosAssert_eq_ok, decide_eq_true_eq] at h
  obtain ⟨hadd, hle, h⟩ := h
  cases h
  rw [setAccountReservedGas_eq hl]
  exact ⟨refund, hrefund, toNat_add_of_verifyAdd hadd, hle, rfl, rfl, rfl, rfl, rfl⟩

theorem addRamUsage_cases {trx : Option AccountGasTrace} (hgas : GasUnlimited cfg db)
    (h : addRamUsage cfg db account ramDelta = .ok (db', trx)) :
    (trx = none ∧ db'.limits = db.limits ∧ db'.accounts = db.accounts ∧
      (ramDelta = 0 ∨ ∃ l, db.limits account = some l ∧ l.isUnlimited = true)) ∨
    ∃ limits t, db.limits account = some limits ∧ limits.isUnlimited = false ∧ trx = some t ∧
      t.account = account ∧ t.ramGasDelta.ramDelta = ramDelta ∧
      db'.limits = update db.limits account
        (some { limits with gas := t.reservedGasAfter }) ∧
      ((0 < ramDelta ∧ convertRamToGas cfg ramDelta.toUInt64 = .ok t.usedGas ∧
          Conserved cfg db db' account t) ∨
        (ramDelta < 0 ∧ db'.accounts = db.accounts ∧
          ∃ refund charged, Refunded cfg db charged account limits ramDelta refund t)) := by
  by_cases hzero : ramDelta = 0
  · rw [addRamUsage, if_pos hzero] at h
    cases h
    exact .inl ⟨rfl, rfl, rfl, .inl hzero⟩
  · have h' := h
    rw [addRamUsage, if_neg hzero, bind_eq_ok] at h
    obtain ⟨usage, -, h⟩ := h
    rw [seq_eq_ok, bind_eq_ok] at h
    obtain ⟨-, limits, hl, h⟩ := h
    rw [getRow_eq_ok] at hl
    split_ifs at h with hunlimited
    · obtain ⟨counted, hcount, h⟩ := bind_eq_ok.mp h
      cases h
      obtain ⟨hlimits, haccounts, -⟩ := countRam_frame hcount
      exact .inl ⟨rfl, hlimits, haccounts, .inr ⟨limits, hl, hunlimited⟩⟩
    · rw [Bool.not_eq_true] at hunlimited
      have hne := hgas.ne hl hunlimited
      obtain ⟨⟨charged, t⟩, hchange, h⟩ := bind_eq_ok.mp h
      obtain ⟨counted, hcount, h⟩ := bind_eq_ok.mp h
      cases h
      obtain ⟨hlimits, haccounts, -⟩ := countRam_frame hcount
      refine .inr ⟨limits, t, hl, hunlimited, rfl, ?_⟩
      unfold changeRamGas at hchange
      split_ifs at hchange with hpos
      · obtain ⟨t', ht, hused, hdelta, hconserved⟩ :=
          addRamUsage_conserved hl hne hunlimited hpos h'
        cases ht
        obtain ⟨used, reserved, converted, charged', -, hmoved, hlimits', -, -, -, rfl⟩ :=
          chargeRam_moved hl hne hchange
        refine ⟨rfl, rfl, ?_, .inl ⟨hpos, hused, hconserved⟩⟩
        rw [hlimits, hlimits', hmoved.limits_eq]
      · obtain ⟨refund, hrefund⟩ := refundRam_refunded hl hchange
        have hneg : ramDelta < 0 := Int64.lt_of_le_of_ne (Int64.not_lt.mp hpos) hzero
        have htrace := hrefund.trace_eq
        subst htrace
        exact ⟨rfl, rfl, hlimits.trans hrefund.limits_eq, .inr ⟨hneg,
          haccounts.trans hrefund.accounts_eq, refund, charged, hrefund⟩⟩

variable {trx : Option AccountGasTrace}

section
variable (hgas : GasUnlimited cfg db) (h : addRamUsage cfg db account ramDelta = .ok (db', trx))
include hgas h

theorem addRamUsage_other {a : AccountName} (ha : a ≠ account) : db'.limits a = db.limits a := by
  rcases addRamUsage_cases hgas h with ⟨-, hlimits, -⟩ | ⟨limits, t, -, -, -, -, -, hlimits, -⟩
  · rw [hlimits]
  · rw [hlimits, Function.update_of_ne ha]

theorem GasUnlimited.addRamUsage : GasUnlimited cfg db' := by
  rcases addRamUsage_cases hgas h with ⟨-, hlimits, -⟩ |
    ⟨limits, t, hl, hlimited, -, -, -, hlimits, -⟩
  · obtain ⟨l, hl, hunlimited⟩ := hgas
    exact ⟨l, by rw [hlimits, hl], hunlimited⟩
  · have hne := hgas.ne hl hlimited
    obtain ⟨l, hl', hunlimited⟩ := hgas
    exact ⟨l, by rw [hlimits, Function.update_of_ne hne.symm, hl'], hunlimited⟩

end

theorem addRamUsage_reports (hgas : GasUnlimited cfg db)
    (h : addRamUsage cfg db account ramDelta = .ok (db', some t)) :
    t.account = account ∧ Reports db db' t := by
  rcases addRamUsage_cases hgas h with ⟨ht, -⟩ |
    ⟨limits, t', hl, -, ht, haccount, hdelta, hlimits, hkind⟩
  · cases ht
  · cases ht
    refine ⟨haccount, ?_⟩
    rcases hkind with ⟨hpos, -, hc⟩ | ⟨hneg, -, refund, charged, hr⟩
    · refine ⟨?_, ?_, ?_⟩
      · rw [haccount, hc.before_eq]
      · rw [haccount, hc.after_eq]
      · rw [AccountGasTrace.Balanced, AccountGasTrace.refund_of_pos (hdelta ▸ hpos), hc.split,
          add_zero]
    · have hrefund := hr.refund_eq hneg
      have htrace := hr.trace_eq
      subst htrace
      refine ⟨?_, ?_, ?_⟩
      · simp [ResourceDb.reservedGas, hl]
      · simp [ResourceDb.reservedGas, hlimits]
      · rw [AccountGasTrace.Balanced, hrefund]
        simp [hr.toNat_add]

structure Settled (cfg : ResourceConfig) (db db' : ResourceDb) (done : List AccountName)
    (traces : List AccountGasTrace) : Prop where
  gas : GasUnlimited cfg db'
  accounts : ∀ t ∈ traces, t.account ∈ done
  nodup : (traces.map AccountGasTrace.account).Nodup
  untouched : ∀ a, a ∉ traces.map AccountGasTrace.account → db'.limits a = db.limits a
  reports : ∀ t ∈ traces, Reports db db' t

theorem reservedGas_congr {a : AccountName} (h : db'.limits a = db.limits a) :
    db'.reservedGas a = db.reservedGas a := by
  rw [ResourceDb.reservedGas, ResourceDb.reservedGas, h]

theorem emplaceTrace_of_new {traces : List AccountGasTrace}
    (h : t.account ∉ traces.map AccountGasTrace.account) :
    emplaceTrace traces t = traces ++ [t] := by
  unfold emplaceTrace
  simpa using h

variable {db₀ : ResourceDb}

theorem Reports.of_limits (h : Reports db₀ db t)
    (hlimits : db'.limits t.account = db.limits t.account) : Reports db₀ db' t :=
  ⟨h.before_eq, h.after_eq.trans (reservedGas_congr hlimits).symm, h.balanced⟩

variable {traces traces' : List AccountGasTrace}

theorem Settled.step {done : List AccountName}
    (h : Settled cfg db₀ db done traces)
    {delta : AccountName × Int64} (hnew : delta.1 ∉ done)
    (hstep : addRamDelta cfg (db, traces) delta = .ok (db', traces')) :
    Settled cfg db₀ db' (delta.1 :: done) traces' := by
  unfold addRamDelta at hstep
  obtain ⟨⟨db₁, trx⟩, hadd, hstep⟩ := bind_eq_ok.mp hstep
  cases hstep
  have hgas := h.gas.addRamUsage hadd
  have hkeep : ∀ t ∈ traces, Reports db₀ db' t := by
    intro t ht
    have hne : t.account ≠ delta.1 := fun he => hnew (he ▸ h.accounts t ht)
    exact (h.reports t ht).of_limits (addRamUsage_other h.gas hadd hne)
  have hdone : ∀ t ∈ traces, t.account ∈ delta.1 :: done :=
    fun t ht => mem_cons_of_mem _ (h.accounts t ht)
  cases trx with
  | none =>
    refine ⟨hgas, hdone, h.nodup, fun a ha => ?_, hkeep⟩
    rcases addRamUsage_cases h.gas hadd with ⟨-, hlimits, -⟩ | ⟨_, _, -, -, ht, -⟩
    · rw [hlimits]
      exact h.untouched a ha
    · cases ht
  | some t =>
    obtain ⟨haccount, hreport⟩ := addRamUsage_reports h.gas hadd
    have hfresh : t.account ∉ traces.map AccountGasTrace.account := by
      rw [haccount, mem_map]
      rintro ⟨u, hu, he⟩
      exact hnew (he ▸ h.accounts u hu)
    change Settled cfg db₀ db' _ (emplaceTrace traces t)
    rw [emplaceTrace_of_new hfresh]
    refine ⟨hgas, ?_, ?_, ?_, ?_⟩
    · exact forall_mem_append.mpr ⟨hdone, forall_mem_singleton.mpr (haccount ▸ mem_cons_self)⟩
    · rw [map_append]
      exact List.Nodup.append h.nodup (nodup_singleton _) (by simpa using hfresh)
    · intro a ha
      rw [map_append, mem_append, not_or] at ha
      have hne : a ≠ delta.1 := by
        rintro rfl
        exact ha.2 (by simp [haccount])
      rw [addRamUsage_other h.gas hadd hne]
      exact h.untouched a ha.1
    · exact forall_mem_append.mpr ⟨hkeep, forall_mem_singleton.mpr
        ⟨hreport.before_eq.trans (reservedGas_congr (h.untouched _ hfresh)),
          hreport.after_eq, hreport.balanced⟩⟩

theorem Settled.run {entries : List (AccountName × Int64)}
    {done : List AccountName}
    (h : Settled cfg db₀ db done traces) (hnodup : (keysOf entries).Nodup)
    (hnew : ∀ a ∈ keysOf entries, a ∉ done)
    (hrun : entries.foldlM (addRamDelta cfg) (db, traces) = .ok (db', traces')) :
    ∃ done', Settled cfg db₀ db' done' traces' := by
  induction entries generalizing db done traces with
  | nil =>
    cases hrun
    exact ⟨done, h⟩
  | cons delta entries ih =>
    rw [foldlM_cons, bind_eq_ok] at hrun
    obtain ⟨⟨db₁, traces₁⟩, hstep, hrun⟩ := hrun
    rw [keysOf, map_cons, nodup_cons] at hnodup
    refine ih (h.step (hnew _ mem_cons_self) hstep) hnodup.2 ?_ hrun
    intro a ha
    rw [mem_cons, not_or]
    exact ⟨fun he => hnodup.1 (he ▸ ha), hnew a (mem_cons_of_mem _ ha)⟩

variable {res res' : TransactionResUsage}

theorem addTransactionUsage_cases
    (hgas : GasUnlimited cfg db) (h : addTransactionUsage cfg db res = .ok (db', res', trx)) :
    (trx = none ∧ db'.limits = db.limits) ∨
      ∃ t, trx = some t ∧ Conserved cfg db db' res.payer t ∧ t.ramGasDelta = ⟨0, 0⟩ := by
  have h' := h
  unfold addTransactionUsage at h
  obtain ⟨usage, -, h⟩ := bind_eq_ok.mp h
  obtain ⟨limits, hl, h⟩ := bind_eq_ok.mp h
  rw [getRow_eq_ok] at hl
  split_ifs at h with hunlimited
  · obtain ⟨counted, hcount, h⟩ := bind_eq_ok.mp h
    cases h
    exact .inl ⟨rfl, (countTransaction_frame hcount).1⟩
  · rw [Bool.not_eq_true] at hunlimited
    have hne := hgas.ne hl hunlimited
    obtain ⟨t, ht, -, hdelta, hconserved⟩ := addTransactionUsage_conserved hl hunlimited hne h'
    exact .inr ⟨t, ht, hconserved, hdelta⟩

theorem mergeTrace_reports {t trx : AccountGasTrace} (h : Reports db₀ db t)
    (htrx : Conserved cfg db db' t.account trx) {description description' : String}
    (hused : verifyAdd t.usedGas trx.usedGas description = .ok ())
    (hconverted : verifyAdd t.convertedGas trx.convertedGas description' = .ok ()) :
    Reports db₀ db' (mergeTrace t trx) := by
  refine ⟨h.before_eq, htrx.after_eq, ?_⟩
  have hfirst := h.balanced
  have hsecond := htrx.split
  have hmiddle : t.reservedGasAfter.toNat = trx.reservedGasBefore.toNat :=
    h.after_eq.trans htrx.before_eq.symm
  unfold AccountGasTrace.Balanced at hfirst ⊢
  have hrefund : (mergeTrace t trx).refund = t.refund := rfl
  rw [hrefund]
  simp only [mergeTrace, toNat_add_of_verifyAdd hused, toNat_add_of_verifyAdd hconverted]
  omega

variable {done : List AccountName} {payer : AccountName} {trx : AccountGasTrace}

section
variable (h : Settled cfg db₀ db done traces) (hc : Conserved cfg db db' payer trx)
  (hdelta : trx.ramGasDelta = ⟨0, 0⟩)
include h hc hdelta

theorem Settled.emplaceTrace (hfresh : payer ∉ traces.map AccountGasTrace.account) :
    ∀ u ∈ emplaceTrace traces trx, Reports db₀ db' u := by
  rw [emplaceTrace_of_new (hc.account_eq ▸ hfresh)]
  intro u hu
  rcases mem_append.mp hu with hu | hu
  · have hne : u.account ≠ payer := fun he => hfresh (mem_map.mpr ⟨u, hu, he⟩)
    exact (h.reports u hu).of_limits (hc.other_limits _ hne)
  · cases mem_singleton.mp hu
    refine ⟨?_, ?_, ?_⟩
    · rw [hc.before_eq, hc.account_eq]
      exact reservedGas_congr (h.untouched _ hfresh)
    · rw [hc.after_eq, hc.account_eq]
    · rw [AccountGasTrace.Balanced, AccountGasTrace.refund, hdelta, hc.split]
      simp

theorem Settled.addTransactionTrace (hmerge : addTransactionTrace traces payer trx = .ok traces') :
    ∀ u ∈ traces', Reports db₀ db' u := by
  unfold FlonCore.addTransactionTrace at hmerge
  split at hmerge
  · rename_i hnone
    cases hmerge
    exact h.emplaceTrace hc hdelta (by simpa using hnone)
  · rename_i t hfind
    rw [seq_eq_ok, seq_eq_ok] at hmerge
    obtain ⟨hused, hconverted, hmerge⟩ := hmerge
    cases hmerge
    intro u hu
    obtain ⟨w, hw, rfl⟩ := mem_map.mp hu
    by_cases hpayer : w.account = payer
    · have hsame : w = t := by
        have ht := mem_of_find?_eq_some hfind
        have hkey : t.account = payer := by simpa using find?_some hfind
        exact inj_on_of_nodup_map h.nodup hw ht (hpayer.trans hkey.symm)
      rw [if_pos (by simpa using hpayer)]
      subst hsame
      exact mergeTrace_reports (h.reports w hw) (hpayer ▸ hc) hused hconverted
    · rw [if_neg (by simpa using hpayer)]
      exact (h.reports w hw).of_limits (hc.other_limits _ hpayer)

end

theorem finalizeGas_reports {ramDeltas : RamDeltas} (hgas : GasUnlimited cfg db)
    (h : finalizeGas cfg db ramDeltas res = .ok (db', res', traces)) :
    ∀ t ∈ traces, Reports db db' t := by
  unfold finalizeGas at h
  obtain ⟨⟨db₁, traces₁⟩, hfold, h⟩ := bind_eq_ok.mp h
  have hstart : Settled cfg db db [] [] :=
    ⟨hgas, nofun, nodup_nil, fun _ _ => rfl, nofun⟩
  obtain ⟨done, hsettled⟩ := hstart.run ramDeltas.nodup (fun _ _ => not_mem_nil) hfold
  obtain ⟨⟨db₂, res₂, trx⟩, hadd, h⟩ := bind_eq_ok.mp h
  rcases addTransactionUsage_cases hsettled.gas hadd with ⟨rfl, hlimits⟩ | ⟨t, rfl, hc, hdelta⟩
  · cases h
    exact fun t ht => (hsettled.reports t ht).of_limits (by rw [hlimits])
  · dsimp only at h
    obtain ⟨traces₂, hmerge, h⟩ := bind_eq_ok.mp h
    cases h
    exact hsettled.addTransactionTrace hc hdelta hmerge

/-- Gas and tokens are conserved by both charging routines, and by the traces of a whole
transaction. -/
theorem gas_conserved (hgas : GasUnlimited cfg db) :
    (∀ res limits db' res' trx, db.limits res.payer = some limits → limits.isUnlimited = false →
      addTransactionUsage cfg db res = .ok (db', res', trx) →
      ∃ trace, trx = some trace ∧ calcTransactionGasUsage cfg res = .ok (res', trace.usedGas) ∧
        Conserved cfg db db' res.payer trace) ∧
    (∀ payer ramDelta limits db' trx, db.limits payer = some limits →
      limits.isUnlimited = false → 0 < ramDelta →
      addRamUsage cfg db payer ramDelta = .ok (db', trx) →
      ∃ trace, trx = some trace ∧ convertRamToGas cfg ramDelta.toUInt64 = .ok trace.usedGas ∧
        Conserved cfg db db' payer trace) ∧
    (∀ ramDeltas res db' res' traces,
      finalizeGas cfg db ramDeltas res = .ok (db', res', traces) →
      ∀ t ∈ traces, Reports db db' t) := by
  refine ⟨?_, ?_, ?_⟩
  · intro res limits db' res' trx hl hlimited h
    obtain ⟨trace, htrace, hcalc, -, hconserved⟩ :=
      addTransactionUsage_conserved hl hlimited (hgas.ne hl hlimited) h
    exact ⟨trace, htrace, hcalc, hconserved⟩
  · intro payer ramDelta limits db' trx hl hlimited hpos h
    obtain ⟨trace, htrace, hused, -, hconserved⟩ :=
      addRamUsage_conserved hl (hgas.ne hl hlimited) hlimited hpos h
    exact ⟨trace, htrace, hused, hconserved⟩
  · intro ramDeltas res db' res' traces h
    exact finalizeGas_reports hgas h

def unitRates : ResourceConfig :=
  ⟨1000, 1000, 1000, 100, 100, 100, 2, 0⟩

/-- A limited account 1 with 5 reserved gas and 100 tokens, and the gas account 2. -/
def smallDb : ResourceDb where
  limits a := if a = 1 then some ⟨5, false⟩ else if a = 2 then some ⟨0, true⟩ else none
  usage a := if a = 1 then some ⟨0, 0, 0⟩ else none
  state := ⟨0, 0, 0, 0, 0, 0, 0⟩
  accounts a :=
    if a = 1 then some (.account ⟨100, 0⟩ [])
    else if a = 2 then some (.account ⟨0, 0⟩ [])
    else none

theorem smallDb_gasUnlimited : GasUnlimited unitRates smallDb :=
  ⟨⟨0, true⟩, rfl, rfl⟩

theorem gas_conserved_smallDb :
    GasUnlimited unitRates smallDb ∧
    (∃ db' res' trace, addTransactionUsage unitRates smallDb ⟨1, 3, 0, 4, 0⟩ =
        .ok (db', res', some trace) ∧ trace.convertedGas = 2 ∧
      Conserved unitRates smallDb db' 1 trace) ∧
    (∃ db' trace, addRamUsage unitRates smallDb 1 7 = .ok (db', some trace) ∧
      trace.convertedGas = 2 ∧ Conserved unitRates smallDb db' 1 trace) ∧
    (∃ db' res', finalizeGas unitRates smallDb ⟨[(1, 3)], by decide⟩ ⟨1, 1, 0, 4, 0⟩ =
        .ok (db', res', [⟨1, 5, 0, 8, 3, ⟨3, -3⟩⟩]) ∧
      Reports smallDb db' ⟨1, 5, 0, 8, 3, ⟨3, -3⟩⟩) := by
  obtain ⟨htrx, hram, htraces⟩ := gas_conserved smallDb_gasUnlimited
  refine ⟨smallDb_gasUnlimited, ?_, ?_, ?_⟩
  · obtain ⟨trace, ht, -, hc⟩ := htrx ⟨1, 3, 0, 4, 0⟩ ⟨5, false⟩ _ _ _ rfl rfl rfl
    cases ht
    exact ⟨_, _, _, rfl, rfl, hc⟩
  · obtain ⟨trace, ht, -, hc⟩ := hram 1 7 ⟨5, false⟩ _ _ rfl rfl (by decide) rfl
    cases ht
    exact ⟨_, _, rfl, rfl, hc⟩
  · exact ⟨_, _, rfl, htraces ⟨[(1, 3)], by decide⟩ ⟨1, 1, 0, 4, 0⟩ _ _ _ rfl _ mem_cons_self⟩

end FlonCore
