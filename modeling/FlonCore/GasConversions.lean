import FlonCore.RamPrice
import Mathlib.Algebra.Order.Floor.Div

/-!
# Converting between resources and gas

A rate says how many thousandths of gas a unit of a resource costs. Gas for a resource
is rounded up, the resource for an amount of gas is rounded down, so the two directions
form a Galois connection. The program names a type of 128 bits for the products and
checks the quotients against 64 bits, but the products are taken of 64-bit words: they
wrap before they are widened and the checks never fail.
-/

namespace FlonCore
open Library UInt32

theorem mod_div_eq_div_iff {m d x : ℕ} (hd : 0 < d) (hdm : d ≤ m) : x % m / d = x / d ↔ x < m := by
  constructor
  · intro heq
    by_contra hle
    have hquotient : 1 ≤ x / m := (Nat.one_le_div_iff (by omega)).mpr (by omega)
    have hsplit := Nat.mod_add_div x m
    have hlarge : x % m + d ≤ x := by
      have := Nat.mul_le_mul_left m hquotient
      omega
    have hdiv := Nat.div_le_div_right (c := d) hlarge
    rw [Nat.add_div_right _ hd] at hdiv
    omega
  · intro hlt
    rw [Nat.mod_eq_of_lt hlt]

variable {rate : UInt32}

theorem divideDecimal_eq {b : UInt64} (hb : b ≠ 0) (a : UInt64) (description : String) :
    divideDecimal a b gasRatePrecision description = .ok (a * gasRatePrecision / b) := by
  have hprecision : gasRatePrecision ≠ 0 := by decide
  rw [divideDecimal]
  by_cases ha : a = 0
  · simp [ha]
  · rw [if_neg (by simp [ha, hb, hprecision])]
    exact seq_eq_ok.mpr ⟨eosAssert_eq_ok.mpr (decide_eq_true (le_maxU64 _)), rfl⟩

theorem exists_convertGasToRes (hrate : 0 < rate) (gas : UInt64) (description : String) :
    ∃ amount, convertGasToRes gas rate.toUInt64 description = .ok amount ∧
      amount.toNat = gas.toNat * 1000 % 2 ^ 64 / rate.toNat := by
  have hpos : 0 < rate.toNat := lt_iff_toNat_lt.mp hrate
  have hne : rate.toUInt64 ≠ 0 := by
    rw [ne_eq, ← UInt64.toNat_inj, toNat_toUInt64]
    exact hpos.ne'
  rw [convertGasToRes, if_neg (by simpa using hne), divideDecimal_eq hne]
  refine ⟨_, rfl, ?_⟩
  rfl

theorem le_floor_iff_ceil_le {r precision : ℕ} (hr : 0 < r) (hprecision : 0 < precision)
    (u g : ℕ) : u ≤ g * precision / r ↔ u * r ⌈/⌉ precision ≤ g := by
  rw [Nat.le_div_iff_mul_le hr, ceilDiv_le_iff_le_mul hprecision, Nat.mul_comm g]

structure ExactConversions (toGas fromGas : UInt64 → Except Failure UInt64) (rate : UInt32)
    (u g : UInt64) : Prop where
  ceil : ∀ gas, toGas u = .ok gas →
    gas.toNat = u.toNat * rate.toNat ⌈/⌉ gasRatePrecision.toNat
  floor : ∀ amount, fromGas g = .ok amount →
    amount.toNat = g.toNat * gasRatePrecision.toNat / rate.toNat
  consistent : ∀ gas amount, toGas u = .ok gas → fromGas g = .ok amount → (u ≤ amount ↔ gas ≤ g)

theorem exactConversions_iff (hrate : 0 < rate) (toDescription fromDescription : String)
    (u g : UInt64) :
    ExactConversions
        (fun value => multiplyDecimalCeil value rate.toUInt64 gasRatePrecision toDescription)
        (fun gas => convertGasToRes gas rate.toUInt64 fromDescription) rate u g ↔
      u.toNat * rate.toNat + 999 < 2 ^ 64 ∧ g.toNat * 1000 < 2 ^ 64 := by
  have hpos : 0 < rate.toNat := lt_iff_toNat_lt.mp hrate
  have hlt := rate.toNat_lt
  obtain ⟨gas, hgas, hgasNat⟩ := exists_multiplyDecimalCeil u rate toDescription
  obtain ⟨amount, hamount, hamountNat⟩ := exists_convertGasToRes hrate g fromDescription
  have hceil : gas.toNat = u.toNat * rate.toNat ⌈/⌉ gasRatePrecision.toNat ↔
      u.toNat * rate.toNat + 999 < 2 ^ 64 := by
    rw [hgasNat, ramGas, Nat.ceilDiv_eq_add_pred_div]
    exact mod_div_eq_div_iff (by decide) (by decide)
  have hfloor : amount.toNat = g.toNat * gasRatePrecision.toNat / rate.toNat ↔
      g.toNat * 1000 < 2 ^ 64 := by
    rw [hamountNat]
    exact mod_div_eq_div_iff hpos (by omega)
  constructor
  · intro hexact
    exact ⟨hceil.mp (hexact.ceil gas hgas), hfloor.mp (hexact.floor amount hamount)⟩
  · rintro ⟨hu, hg⟩
    refine ⟨fun gas' hgas' => ?_, fun amount' hamount' => ?_, fun gas' amount' hgas' hamount' => ?_⟩
    · cases hgas.symm.trans hgas'
      exact hceil.mpr hu
    · cases hamount.symm.trans hamount'
      exact hfloor.mpr hg
    · cases hgas.symm.trans hgas'
      cases hamount.symm.trans hamount'
      rw [UInt64.le_iff_toNat_le, UInt64.le_iff_toNat_le, hceil.mpr hu, hfloor.mpr hg]
      exact le_floor_iff_ceil_le hpos (by decide) _ _

/-- The conversions of CPU, net and RAM are exact and consistent at an amount and at gas
exactly if neither product leaves 64 bits. -/
theorem gas_conversions_exact_iff {cfg : ResourceConfig} (hcpu : 0 < cfg.gasPerCpuMs)
    (hnet : 0 < cfg.gasPerNetKb) (hram : 0 < cfg.gasPerRamKb) (u g : UInt64) :
    (ExactConversions (convertCpuToGas cfg) (convertGasToCpu cfg) cfg.gasPerCpuMs u g ↔
        u.toNat * cfg.gasPerCpuMs.toNat + 999 < 2 ^ 64 ∧ g.toNat * 1000 < 2 ^ 64) ∧
      (ExactConversions (convertNetToGas cfg) (convertGasToNet cfg) cfg.gasPerNetKb u g ↔
        u.toNat * cfg.gasPerNetKb.toNat + 999 < 2 ^ 64 ∧ g.toNat * 1000 < 2 ^ 64) ∧
      (ExactConversions (convertRamToGas cfg) (convertGasToRam cfg) cfg.gasPerRamKb u g ↔
        u.toNat * cfg.gasPerRamKb.toNat + 999 < 2 ^ 64 ∧ g.toNat * 1000 < 2 ^ 64) :=
  ⟨exactConversions_iff hcpu "converting cpu us to gas" "converting gas to cpu us" u g,
    exactConversions_iff hnet "converting net bytes to gas" "converting gas to net bytes" u g,
    exactConversions_iff hram "converting ram bytes to gas" "converting gas to ram bytes" u g⟩

def defaultRates : ResourceConfig where
  gasPerCpuMs := 10000
  gasPerNetKb := 50000
  gasPerRamKb := 50000
  cpuLimitMax := 200000
  netLimitMax := 1048576
  maxTotalRamUsage := 68719476736
  gasAccountName := 0
  coreSymbol := 0

theorem gas_conversions_exact_default :
    ExactConversions (convertCpuToGas defaultRates) (convertGasToCpu defaultRates)
      10000 1000 10000 :=
  (gas_conversions_exact_iff (by decide) (by decide) (by decide) 1000 10000).1.mpr
    ⟨by decide, by decide⟩

/-- At the default rates an amount of CPU beyond all limits costs nine gas, which buys none of
it, and more gas than the rates can multiply buys no CPU at all. Nothing throws. -/
theorem gas_conversions_wrap :
    convertCpuToGas defaultRates 1844674407370956 = .ok 9 ∧
      1844674407370956 * 10000 ⌈/⌉ 1000 = 18446744073709560 ∧
      convertGasToCpu defaultRates 9 = .ok 0 ∧
      convertGasToCpu defaultRates 18446744073709552 = .ok 0 ∧
      18446744073709552 * 1000 / 10000 = 1844674407370955 ∧
      ¬ ExactConversions (convertCpuToGas defaultRates) (convertGasToCpu defaultRates)
        10000 1844674407370956 9 := by
  refine ⟨by decide +kernel, by decide +kernel, by decide +kernel, by decide +kernel, by decide,
    fun hexact => ?_⟩
  have hiff := hexact.consistent 9 0 (by decide +kernel) (by decide +kernel)
  revert hiff
  decide

end FlonCore
