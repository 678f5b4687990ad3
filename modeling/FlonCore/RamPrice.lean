import FlonCore.GasConservation

/-!
# The price of RAM

The gas for a number of bytes is rounded up from thousandths, and the product
before the division wraps at 64 bits. Up to a limit the price is linear exactly
when neither shows, and then exactly when every further byte costs at least as
much as the first.
-/

namespace FlonCore
open Library UInt32
variable {cfg : ResourceConfig}

def ramGas (rate bytes : ℕ) : ℕ :=
  (bytes * rate + 999) % 2 ^ 64 / 1000

theorem exists_multiplyDecimalCeil (v : UInt64) (rate : UInt32) (description : String) :
    ∃ gas, multiplyDecimalCeil v rate.toUInt64 gasRatePrecision description = .ok gas ∧
      gas.toNat = ramGas rate.toNat v.toNat := by
  have hrate := rate.toNat_lt
  have hprecision : (gasRatePrecision - 1).toNat = 999 := rfl
  unfold multiplyDecimalCeil
  split_ifs with hzero
  · refine ⟨0, rfl, ?_⟩
    have hprod : v.toNat * rate.toNat = 0 := by
      simp only [Bool.or_eq_true, beq_iff_eq] at hzero
      rcases hzero with (h | h) | h
      · simp [h]
      · rw [← toNat_toUInt64, h]
        rfl
      · exact absurd h (by decide)
    simp [ramGas, hprod]
  · refine ⟨_, seq_eq_ok.mpr ⟨eosAssert_eq_ok.mpr ?_, rfl⟩, ?_⟩
    · -- the rate has 32 bits, so the second comparison always holds
      have hroom : gasRatePrecision - 1 < maxU64 - rate.toUInt64 := by
        rw [UInt64.lt_iff_toNat_lt, hprecision, UInt64.toNat_sub_of_le _ _ (le_maxU64 _),
          toNat_maxU64, toNat_toUInt64]
        omega
      simp [hroom, le_maxU64]
    · rw [UInt64.toNat_div, UInt64.toNat_add, UInt64.toNat_mul, hprecision, Nat.mod_add_mod,
        toNat_toUInt64]
      rfl

theorem exists_convertRamToGas (cfg : ResourceConfig) (v : UInt64) :
    ∃ gas, convertRamToGas cfg v = .ok gas ∧
      gas.toNat = ramGas cfg.gasPerRamKb.toNat v.toNat :=
  exists_multiplyDecimalCeil v cfg.gasPerRamKb "converting ram bytes to gas"

theorem toNat_of_convertRamToGas {v gas : UInt64} (h : convertRamToGas cfg v = .ok gas) :
    gas.toNat = ramGas cfg.gasPerRamKb.toNat v.toNat := by
  obtain ⟨gas', hgas, heq⟩ := exists_convertRamToGas cfg v
  cases hgas.symm.trans h
  exact heq

def bytePrice (rate : ℕ) : ℕ :=
  (rate + 999) / 1000

def roundingGap (rate : ℕ) : ℕ :=
  1000 * bytePrice rate - rate

theorem mul_roundingGap (rate n : ℕ) :
    n * rate + n * roundingGap rate = 1000 * (n * bytePrice rate) := by
  have hle : rate ≤ 1000 * bytePrice rate := by
    unfold bytePrice
    omega
  rw [roundingGap, ← Nat.mul_add, Nat.add_sub_cancel' hle, Nat.mul_left_comm]

theorem roundingGap_lt (rate : ℕ) : roundingGap rate < 1000 := by
  unfold roundingGap bytePrice
  omega

/-- Up to the limit the rounding never shows and the product never wraps. -/
structure ExactUpTo (rate limit : ℕ) : Prop where
  hidden : limit * roundingGap rate < 1000
  fits : limit * rate + 999 < 2 ^ 64

theorem ExactUpTo.ramGas_eq {rate limit bytes : ℕ} (h : ExactUpTo rate limit)
    (hle : bytes ≤ limit) : ramGas rate bytes = bytes * bytePrice rate := by
  have hfits := h.fits
  have hhidden := h.hidden
  have hprod : bytes * rate ≤ limit * rate := Nat.mul_le_mul_right _ hle
  have hgap : bytes * roundingGap rate ≤ limit * roundingGap rate := Nat.mul_le_mul_right _ hle
  have hsplit := mul_roundingGap rate bytes
  rw [ramGas, Nat.mod_eq_of_lt (by omega)]
  omega

theorem exists_first_multiple {k x : ℕ} (hk : 0 < k) (hx : k < x) :
    ∃ n, 2 ≤ n ∧ x ≤ n * k ∧ (n - 1) * k < x := by
  have hlt := Nat.lt_mul_div_succ (x - 1) hk
  have hle := Nat.div_mul_le_self (x - 1) k
  have hpos : 1 ≤ (x - 1) / k := (Nat.one_le_div_iff hk).mpr (by omega)
  refine ⟨(x - 1) / k + 1, by omega, ?_, ?_⟩
  · rw [Nat.mul_comm]
    omega
  · rw [Nat.add_sub_cancel]
    omega

theorem le_of_first_multiple {k n x limit : ℕ} (hfirst : (n - 1) * k < x) (h : x ≤ limit * k) :
    n ≤ limit := by
  by_contra hlt
  have hmul : limit * k ≤ (n - 1) * k := Nat.mul_le_mul_right _ (by omega)
  omega

variable {rate limit : ℕ}

def StepsUpTo (rate limit : ℕ) : Prop :=
  ∀ n, 2 ≤ n → n ≤ limit → n < 2 ^ 63 → ramGas rate (n - 1) + ramGas rate 1 ≤ ramGas rate n

theorem ramGas_one (hrate : rate < 2 ^ 32) : ramGas rate 1 = bytePrice rate := by
  have hgap := roundingGap_lt rate
  have hone : ExactUpTo rate 1 := by
    constructor <;> omega
  rw [hone.ramGas_eq le_rfl, Nat.one_mul]

theorem StepsUpTo.hidden (h : StepsUpTo rate limit) (hrate : rate < 2 ^ 32) :
    limit * roundingGap rate < 1000 := by
  by_contra hle
  rw [not_lt] at hle
  have hpos : 0 < roundingGap rate := Nat.pos_of_mul_pos_left (lt_of_lt_of_le (by omega) hle)
  obtain ⟨n, htwo, hreach, hfirst⟩ := exists_first_multiple hpos (roundingGap_lt rate)
  have hsmall : n ≤ 1000 := le_of_first_multiple hfirst (by omega)
  have hprod : n * rate ≤ 1000 * rate := Nat.mul_le_mul_right _ hsmall
  have hpred : (n - 1) * rate ≤ n * rate := Nat.mul_le_mul_right _ (by omega)
  have hexact : ExactUpTo rate (n - 1) := ⟨hfirst, by omega⟩
  have hstep := h n htwo (le_of_first_multiple hfirst hle) (by omega)
  rw [hexact.ramGas_eq le_rfl, ramGas_one hrate, ← Nat.succ_mul, Nat.succ_eq_add_one,
    Nat.sub_add_cancel (by omega), ramGas, Nat.mod_eq_of_lt (by omega)] at hstep
  have hsplit := mul_roundingGap rate n
  omega

theorem StepsUpTo.fits (h : StepsUpTo rate limit) (hrate : rate < 2 ^ 32) :
    limit * rate + 999 < 2 ^ 64 := by
  have hhidden := h.hidden hrate
  by_contra hle
  have htwo : 2 ≤ rate := by
    by_contra hlt
    have hcases : rate = 0 ∨ rate = 1 := by omega
    rcases hcases with rfl | rfl
    · omega
    · have hgap : roundingGap 1 = 999 := rfl
      rw [hgap] at hhidden
      omega
  obtain ⟨n, hn, hreach, hfirst⟩ :=
    exists_first_multiple (by omega : 0 < rate) (by omega : rate < 2 ^ 64 - 999)
  have hlimit : n ≤ limit := le_of_first_multiple hfirst (by omega)
  have hhalf : (n - 1) * 2 ≤ (n - 1) * rate := Nat.mul_le_mul_left _ htwo
  have hgap : (n - 1) * roundingGap rate ≤ limit * roundingGap rate :=
    Nat.mul_le_mul_right _ (by omega)
  have hexact : ExactUpTo rate (n - 1) := ⟨by omega, by omega⟩
  have hstep := h n hn hlimit (by omega)
  have hpred : n * rate = (n - 1) * rate + rate := by
    rw [← Nat.succ_mul, Nat.succ_eq_add_one, Nat.sub_add_cancel (by omega)]
  rw [hexact.ramGas_eq le_rfl, ramGas_one hrate, ramGas, Nat.mod_eq_sub_mod (by omega),
    Nat.mod_eq_of_lt (by omega)] at hstep
  have hceil : rate ≤ 1000 * bytePrice rate := by
    unfold bytePrice
    omega
  omega

end FlonCore
