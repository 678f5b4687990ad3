import FlonCore.ElasticLimits

/-!
# The moving average of the usage

The accumulator is a template over its precision, and `UsageAccumulator.add` is its
instance for the rate limits. One call decays the average and rounds it down, then adds
the contribution of the period rounded up. The two roundings keep the average below its
largest input by a fixed-point argument, however long the chain runs.
-/

namespace FlonCore
open Library UInt64 List

theorem le_maxU64_sub {x y : UInt64} : x ≤ maxU64 - y ↔ y.toNat + x.toNat < 2 ^ 64 := by
  have hy := y.toNat_lt
  rw [le_iff_toNat_le, UInt64.toNat_sub_of_le _ _ (le_maxU64 y), toNat_maxU64]
  omega

theorem Ratio.mul_eq_ok {value x : UInt64} {r : Ratio} :
    Ratio.mul value r = .ok x ↔ value.toNat * r.numerator.toNat < 2 ^ 64 ∧
      x = value * r.numerator / r.denominator := by
  unfold Ratio.mul
  rw [seq_eq_ok, eosAssert_eq_ok]
  have hcheck : (r.numerator == 0 || decide (value ≤ maxU64 / r.numerator)) = true ↔
      value.toNat * r.numerator.toNat < 2 ^ 64 := by
    rw [Bool.or_eq_true, beq_iff_eq, decide_eq_true_eq, le_iff_toNat_le, UInt64.toNat_div,
      toNat_maxU64]
    rcases Nat.eq_zero_or_pos r.numerator.toNat with hzero | hpos
    · have hnum : r.numerator = 0 := UInt64.toNat_inj.mp hzero
      simp [hnum]
    · have hne : r.numerator ≠ 0 := fun h => by simp [h] at hpos
      rw [Nat.le_div_iff_mul_le hpos]
      constructor
      · rintro (h | h)
        · exact absurd h hne
        · omega
      · exact fun h => .inr (by omega)
  rw [hcheck]
  refine and_congr_right fun _ => ?_
  exact ⟨fun h => (Except.ok.inj h).symm, fun h => by rw [h]; rfl⟩

theorem downgradeCast_eq_ok {val : ℕ} {x : UInt64} :
    downgradeCast val = .ok x ↔ val < 2 ^ 64 ∧ x = UInt64.ofNat val := by
  unfold downgradeCast
  rw [seq_eq_ok, eosAssert_eq_ok, decide_eq_true_eq]
  refine and_congr (by omega) ⟨fun h => (Except.ok.inj h).symm, fun h => by rw [h]; rfl⟩

theorem mul_le_integerDivideCeil (num : ℕ) {den : ℕ} (hden : 0 < den) :
    num ≤ den * integerDivideCeil num den ∧ den * integerDivideCeil num den < num + den := by
  have hdiv := Nat.div_add_mod num den
  have hmod := Nat.mod_lt num hden
  unfold integerDivideCeil
  split_ifs with h
  · rw [Nat.mul_add, Nat.mul_one]
    omega
  · rw [Nat.add_zero]
    omega

namespace UsageAccumulator

variable {precision : ℕ} {a a' : UsageAccumulator} {units : UInt64} {ordinal windowSize : UInt32}

def kept (a : UsageAccumulator) (ordinal windowSize : UInt32) : ℕ :=
  windowSize.toNat - (ordinal.toNat - a.lastOrdinal.toNat)

def contribAt (precision : ℕ) (units : UInt64) (windowSize : UInt32) : ℕ :=
  integerDivideCeil (units.toNat * precision) windowSize.toNat

structure FitsAt (precision : ℕ) (a : UsageAccumulator) (units : UInt64)
    (ordinal windowSize : UInt32) : Prop where
  units_le : units.toNat ≤ (2 ^ 64 - 1) / precision
  consumed_lt : a.consumed.toNat + units.toNat < 2 ^ 64
  contrib_lt : contribAt precision units windowSize < 2 ^ 64
  value_lt : a.valueEx.toNat + contribAt precision units windowSize < 2 ^ 64
  decay_lt : a.valueEx.toNat * a.kept ordinal windowSize < 2 ^ 64

theorem decayed_eq_ok (hlt : a.lastOrdinal < ordinal) {x : UInt64} :
    a.decayed ordinal windowSize = .ok x ↔ a.valueEx.toNat * a.kept ordinal windowSize < 2 ^ 64 ∧
      x.toNat = a.valueEx.toNat * a.kept ordinal windowSize / windowSize.toNat := by
  have hdelta : (ordinal - a.lastOrdinal).toNat = ordinal.toNat - a.lastOrdinal.toNat :=
    UInt32.toNat_sub_of_le _ _ (UInt32.le_of_lt hlt)
  unfold decayed
  split_ifs with hwindow
  · have hle : (ordinal - a.lastOrdinal).toUInt64 ≤ windowSize.toUInt64 := by
      rw [le_iff_toNat_le, UInt32.toNat_toUInt64, UInt32.toNat_toUInt64, hdelta]
      omega
    have hkept : (windowSize.toUInt64 - (ordinal - a.lastOrdinal).toUInt64).toNat =
        a.kept ordinal windowSize := by
      rw [UInt64.toNat_sub_of_le _ _ hle, UInt32.toNat_toUInt64, UInt32.toNat_toUInt64, hdelta]
      rfl
    rw [Ratio.mul_eq_ok, hkept]
    refine and_congr_right fun h => ?_
    rw [← UInt64.toNat_inj, UInt64.toNat_div, UInt64.toNat_mul, hkept, Nat.mod_eq_of_lt h,
      UInt32.toNat_toUInt64]
  · have hzero : a.kept ordinal windowSize = 0 := by
      unfold kept
      omega
    rw [hzero, Nat.mul_zero, Nat.zero_div, Except.ok.injEq]
    constructor
    · rintro rfl
      exact ⟨by decide, rfl⟩
    · exact fun h => (UInt64.toNat_inj.mp h.2).symm

theorem advanceAt_eq_ok (hlt : a.lastOrdinal < ordinal) :
    a.advanceAt precision ordinal windowSize = .ok a' ↔ ∃ x, a.decayed ordinal windowSize = .ok x ∧
      a' = ⟨ordinal, x, averageAt precision ⟨ordinal, x, 0⟩⟩ := by
  unfold advanceAt
  rw [if_neg fun h => UInt32.lt_irrefl _ (h ▸ hlt), seq_eq_ok, eosAssert_eq_ok, bind_eq_ok]
  simp only [hlt, decide_true, true_and]
  exact exists_congr fun x => and_congr_right fun _ =>
    ⟨fun h => (Except.ok.inj h).symm, fun h => by rw [h]; rfl⟩

theorem addAt_eq_ok : a.addAt precision units ordinal windowSize = .ok a' ↔
    units.toNat ≤ (2 ^ 64 - 1) / precision ∧
      a.consumed.toNat + units.toNat < 2 ^ 64 ∧ contribAt precision units windowSize < 2 ^ 64 ∧
      a.valueEx.toNat + contribAt precision units windowSize < 2 ^ 64 ∧
      ∃ b, a.advanceAt precision ordinal windowSize = .ok b ∧ a' = ⟨b.lastOrdinal,
        b.valueEx + UInt64.ofNat (contribAt precision units windowSize), b.consumed + units⟩ := by
  unfold addAt
  rw [seq_eq_ok, seq_eq_ok, bind_eq_ok]
  simp only [eosAssert_eq_ok, decide_eq_true_eq, downgradeCast_eq_ok, bind_eq_ok, le_maxU64_sub]
  have hraw : units ≤ maxRawValueAt precision ↔ units.toNat ≤ (2 ^ 64 - 1) / precision := by
    rw [le_iff_toNat_le, maxRawValueAt, toNat_ofNat_of_lt']
    exact (Nat.div_le_self _ _).trans_lt (by norm_num)
  rw [hraw]
  refine and_congr_right fun _ => and_congr_right fun _ => ?_
  constructor
  · rintro ⟨_, ⟨hcontrib, rfl⟩, ⟨⟩, hvalue, b, hb, h⟩
    rw [toNat_ofNat_of_lt' hcontrib] at hvalue
    exact ⟨hcontrib, hvalue, b, hb, (Except.ok.inj h).symm⟩
  · rintro ⟨hcontrib, hvalue, b, hb, rfl⟩
    refine ⟨UInt64.ofNat (contribAt precision units windowSize), ⟨hcontrib, rfl⟩, (), ?_, b, hb,
      rfl⟩
    rwa [toNat_ofNat_of_lt' hcontrib]

theorem FitsAt.addAt (h : FitsAt precision a units ordinal windowSize)
    (hlt : a.lastOrdinal < ordinal) :
    ∃ a', a.addAt precision units ordinal windowSize = .ok a' := by
  have hdecayed : a.decayed ordinal windowSize = .ok
      (UInt64.ofNat (a.valueEx.toNat * a.kept ordinal windowSize / windowSize.toNat)) := by
    refine (decayed_eq_ok hlt).mpr ⟨h.decay_lt, toNat_ofNat_of_lt' ?_⟩
    exact (Nat.div_le_self _ _).trans_lt h.decay_lt
  exact ⟨_, addAt_eq_ok.mpr ⟨h.units_le, h.consumed_lt, h.contrib_lt, h.value_lt, _,
    (advanceAt_eq_ok hlt).mpr ⟨_, hdecayed, rfl⟩, rfl⟩⟩

theorem fitsAt_of_addAt (hlt : a.lastOrdinal < ordinal) (hw : 0 < windowSize)
    (h : a.addAt precision units ordinal windowSize = .ok a') :
    FitsAt precision a units ordinal windowSize ∧ a'.lastOrdinal = ordinal ∧
      a'.valueEx.toNat = a.valueEx.toNat * a.kept ordinal windowSize / windowSize.toNat +
        contribAt precision units windowSize ∧
      a'.consumed.toNat ≤ integerDivideCeil
        (a.valueEx.toNat * a.kept ordinal windowSize / windowSize.toNat) precision +
          units.toNat := by
  obtain ⟨hunits, hconsumed, hcontrib, hvalue, b, hb, rfl⟩ := addAt_eq_ok.mp h
  obtain ⟨x, hx, rfl⟩ := (advanceAt_eq_ok hlt).mp hb
  obtain ⟨hdecay, hx⟩ := (decayed_eq_ok hlt).mp hx
  have hkept : a.kept ordinal windowSize ≤ windowSize.toNat := Nat.sub_le _ _
  have hwin : 0 < windowSize.toNat := UInt32.lt_iff_toNat_lt.mp hw
  have hle : x.toNat ≤ a.valueEx.toNat := by
    rw [hx]
    exact Nat.div_le_of_le_mul (by rw [Nat.mul_comm]; exact Nat.mul_le_mul_right _ hkept)
  refine ⟨⟨hunits, hconsumed, hcontrib, hvalue, hdecay⟩, rfl, ?_, ?_⟩
  · rw [← hx]
    change (x + UInt64.ofNat _).toNat = _
    rw [UInt64.toNat_add, toNat_ofNat_of_lt' hcontrib, Nat.mod_eq_of_lt (by omega)]
  · rw [← hx]
    exact (Nat.mod_le _ _).trans (Nat.add_le_add_right (Nat.mod_le _ _) _)

structure SafeWindow (precision M windowSize : ℕ) : Prop where
  pos : 0 < windowSize
  le_precision : windowSize ≤ precision
  decay_lt : (M * precision + windowSize - 1) * (windowSize - 1) < 2 ^ 64
  value_lt : M * precision + windowSize - 1 + integerDivideCeil (M * precision) windowSize < 2 ^ 64
  consumed_lt : (windowSize = 1 ∧ 2 * M < 2 ^ 64) ∨ 3 * M + 1 < 2 ^ 64

structure Bounded (precision M : ℕ) (windowSize : UInt32) (a : UsageAccumulator) : Prop where
  value_le : a.valueEx.toNat ≤ M * precision + windowSize.toNat - 1
  consumed_lt : a.consumed.toNat + M < 2 ^ 64

variable {M : ℕ}

theorem integerDivideCeil_mono {m n : ℕ} (h : m ≤ n) {d : ℕ} (hd : 0 < d) :
    integerDivideCeil m d ≤ integerDivideCeil n d := by
  have hm := (mul_le_integerDivideCeil m hd).2
  have hn := (mul_le_integerDivideCeil n hd).1
  by_contra hlt
  have hmul : d * (integerDivideCeil n d + 1) ≤ d * integerDivideCeil m d :=
    Nat.mul_le_mul_left _ (by omega)
  rw [Nat.mul_succ] at hmul
  omega

theorem integerDivideCeil_le_of_bound {w x : ℕ} (hw : 0 < w) (hle : w ≤ precision)
    (hx : x ≤ M * precision + w - 1) : integerDivideCeil x precision ≤ M + 1 := by
  have hceil := (mul_le_integerDivideCeil x (show 0 < precision by omega)).2
  by_contra hlt
  have hmul : precision * (M + 2) ≤ precision * integerDivideCeil x precision :=
    Nat.mul_le_mul_left _ (by omega)
  have hexpand : precision * (M + 2) = M * precision + 2 * precision := by ring
  omega

theorem SafeWindow.fitsAt (hsafe : SafeWindow precision M windowSize.toNat)
    (h : Bounded precision M windowSize a) (hunits : units.toNat ≤ M)
    (hkept : a.kept ordinal windowSize ≤ windowSize.toNat - 1) :
    FitsAt precision a units ordinal windowSize := by
  have hpos : 0 < precision := hsafe.pos.trans_le hsafe.le_precision
  have hproduct : units.toNat * precision ≤ M * precision := Nat.mul_le_mul_right _ hunits
  have hcontrib : contribAt precision units windowSize ≤
      integerDivideCeil (M * precision) windowSize.toNat :=
    integerDivideCeil_mono hproduct hsafe.pos
  have hvalue := h.value_le
  have hconsumed := h.consumed_lt
  have hsum := hsafe.value_lt
  refine ⟨?_, by omega, by omega, by omega, ?_⟩
  · rw [Nat.le_div_iff_mul_le hpos]
    have hw := hsafe.pos
    omega
  · exact (Nat.mul_le_mul hvalue hkept).trans_lt hsafe.decay_lt

theorem decay_add_contrib_le {v kept w : ℕ} (hw : 0 < w) (hv : v ≤ M * precision + w - 1)
    (hkept : kept ≤ w - 1) {n : ℕ} (hn : n ≤ M * precision) :
    v * kept / w + integerDivideCeil n w ≤ M * precision + w - 1 := by
  set bound := M * precision + w - 1 with hbound
  have hceil := (mul_le_integerDivideCeil n hw).2
  have hfloor : w * (v * kept / w) ≤ bound * (w - 1) :=
    (Nat.mul_div_le _ _).trans (Nat.mul_le_mul hv hkept)
  refine Nat.le_of_mul_le_mul_left ?_ hw
  calc w * (v * kept / w + integerDivideCeil n w)
      = w * (v * kept / w) + w * integerDivideCeil n w := Nat.mul_add _ _ _
    _ ≤ bound * (w - 1) + bound := by omega
    _ = bound * (w - 1 + 1) := (Nat.mul_succ _ _).symm
    _ = w * bound := by rw [Nat.sub_add_cancel hw, Nat.mul_comm]

theorem SafeWindow.consumed_add_lt {w x : ℕ} (hsafe : SafeWindow precision M w)
    (hx : w * x ≤ (M * precision + w - 1) * (w - 1)) :
    integerDivideCeil x precision + 2 * M < 2 ^ 64 := by
  have hw := hsafe.pos
  rcases hsafe.consumed_lt with ⟨rfl, hM⟩ | hM
  · obtain rfl : x = 0 := by omega
    simpa [integerDivideCeil] using hM
  · have hle : x ≤ M * precision + w - 1 := by
      refine Nat.le_of_mul_le_mul_left (hx.trans ?_) hw
      rw [Nat.mul_comm w]
      exact Nat.mul_le_mul_left _ (Nat.sub_le _ _)
    have haverage := integerDivideCeil_le_of_bound hw hsafe.le_precision hle
    omega

section
variable (hsafe : SafeWindow precision M windowSize.toNat)
include hsafe

theorem SafeWindow.later (h : Bounded precision M windowSize a) (hunits : units.toNat ≤ M)
    (hlt : a.lastOrdinal < ordinal) :
    ∃ a', a.addAt precision units ordinal windowSize = .ok a' ∧ a'.lastOrdinal = ordinal ∧
      Bounded precision M windowSize a' := by
  have hlt' : a.lastOrdinal.toNat < ordinal.toNat := UInt32.lt_iff_toNat_lt.mp hlt
  have hw : 0 < windowSize := UInt32.lt_iff_toNat_lt.mpr hsafe.pos
  have hkept : a.kept ordinal windowSize ≤ windowSize.toNat - 1 := by
    unfold kept
    omega
  obtain ⟨a', ha'⟩ := (hsafe.fitsAt h hunits hkept).addAt hlt
  obtain ⟨-, hord, hvalue, hconsumed⟩ := fitsAt_of_addAt hlt hw ha'
  refine ⟨a', ha', hord, ?_, ?_⟩
  · rw [hvalue]
    exact decay_add_contrib_le hsafe.pos h.value_le hkept (Nat.mul_le_mul_right _ hunits)
  · have hleft := hsafe.consumed_add_lt ((Nat.mul_div_le _ windowSize.toNat).trans
      (Nat.mul_le_mul h.value_le hkept))
    omega

theorem SafeWindow.start : Bounded precision M windowSize ⟨0, 0, 0⟩ := by
  refine ⟨Nat.zero_le _, ?_⟩
  have hleft := hsafe.consumed_add_lt (x := 0) (Nat.zero_le _)
  change 0 + M < 2 ^ 64
  omega

theorem SafeWindow.first (hunits : units.toNat ≤ M) :
    ∃ a', addAt precision ⟨0, 0, 0⟩ units ordinal windowSize = .ok a' ∧
      a'.lastOrdinal = ordinal ∧ Bounded precision M windowSize a' := by
  by_cases hzero : ordinal = 0
  · subst hzero
    -- the fields of the checks do not depend on the ordinal that they are made for
    have hfits : FitsAt precision ⟨0, 0, 0⟩ units windowSize windowSize :=
      hsafe.fitsAt hsafe.start hunits (by simp [kept])
    refine ⟨_, addAt_eq_ok.mpr ⟨hfits.units_le, hfits.consumed_lt, hfits.contrib_lt,
      hfits.value_lt, ⟨0, 0, 0⟩, if_pos rfl, rfl⟩, rfl, ?_, ?_⟩
    · change (0 + UInt64.ofNat (contribAt precision units windowSize)).toNat ≤ _
      rw [UInt64.zero_add, toNat_ofNat_of_lt' hfits.contrib_lt]
      have hbound := decay_add_contrib_le hsafe.pos (Nat.zero_le _) (Nat.zero_le _)
        (Nat.mul_le_mul_right precision hunits)
      rwa [Nat.zero_mul, Nat.zero_div, Nat.zero_add] at hbound
    · change (0 + units).toNat + M < 2 ^ 64
      have hleft := hsafe.consumed_add_lt (x := 0) (Nat.zero_le _)
      rw [UInt64.zero_add]
      omega
  · refine hsafe.later hsafe.start hunits ?_
    exact UInt32.lt_of_le_of_ne (UInt32.le_iff_toNat_le.mpr (Nat.zero_le _)) (Ne.symm hzero)

end

def addCalls (precision : ℕ) (windowSize : UInt32) (calls : List (UInt64 × UInt32))
    (a : UsageAccumulator) : Except Failure UsageAccumulator :=
  calls.foldlM (fun a call => a.addAt precision call.1 call.2 windowSize) a

theorem SafeWindow.addCalls (hsafe : SafeWindow precision M windowSize.toNat)
    {calls : List (UInt64 × UInt32)} (h : Bounded precision M windowSize a)
    (hunits : ∀ call ∈ calls, call.1.toNat ≤ M) (hlater : ∀ call ∈ calls, a.lastOrdinal < call.2)
    (hsorted : calls.Pairwise fun call later => call.2 < later.2) :
    ∃ a', addCalls precision windowSize calls a = .ok a' ∧ Bounded precision M windowSize a' := by
  induction calls generalizing a with
  | nil => exact ⟨a, rfl, h⟩
  | cons call calls ih =>
    obtain ⟨hfirst, hrest⟩ := pairwise_cons.mp hsorted
    rw [forall_mem_cons] at hunits hlater
    obtain ⟨mid, hmid, hord, hbounded⟩ := hsafe.later h hunits.1 hlater.1
    obtain ⟨a', hrun, ha'⟩ := ih hbounded hunits.2 (hord ▸ hfirst) hrest
    refine ⟨a', ?_, ha'⟩
    rw [UsageAccumulator.addCalls, foldlM_cons, hmid]
    exact hrun

theorem safeWindow_of_mul_lt {precision M w : ℕ} (hw : 1 ≤ w) (hle : w ≤ precision)
    (hM : (M * precision + w) * (w + 1) < 2 ^ 64) : SafeWindow precision M w := by
  have hexpand : (M * precision + w) * (w + 1) = (M * precision + w) * w + (M * precision + w) :=
    Nat.mul_succ _ _
  have hmulM : M ≤ M * precision := Nat.le_mul_of_pos_right _ (by omega)
  have hceil := (mul_le_integerDivideCeil (M * precision) hw).2
  have hsmall : integerDivideCeil (M * precision) w ≤ M * precision + w :=
    Nat.le_of_lt ((Nat.le_mul_of_pos_left _ hw).trans_lt hceil)
  have hwide : (M * precision + w) * 1 ≤ (M * precision + w) * w := Nat.mul_le_mul_left _ hw
  refine ⟨hw, hle, ?_, by omega, ?_⟩
  · exact (Nat.mul_le_mul (Nat.sub_le _ _) (by omega : w - 1 ≤ w + 1)).trans_lt hM
  · rcases Nat.eq_or_lt_of_le hw with hone | htwo
    · exact .inl ⟨hone.symm, by omega⟩
    · have hdouble : (M * precision + w) * 2 ≤ (M * precision + w) * w :=
        Nat.mul_le_mul_left _ htwo
      exact .inr (by omega)

/-- While each period uses at most `M`, no call throws, the stored value stays below
`M * precision + windowSize`, and the average is at most `M + 1`. -/
theorem moving_average_bounded {precision M : ℕ} {windowSize : UInt32}
    (hw : 1 ≤ windowSize.toNat) (hle : windowSize.toNat ≤ precision)
    (hM : (M * precision + windowSize.toNat) * (windowSize.toNat + 1) < 2 ^ 64)
    {calls : List (UInt64 × UInt32)} (hunits : ∀ call ∈ calls, call.1.toNat ≤ M)
    (hsorted : calls.Pairwise fun call later => call.2 < later.2) :
    ∃ a, addCalls precision windowSize calls ⟨0, 0, 0⟩ = .ok a ∧
      a.valueEx.toNat ≤ M * precision + windowSize.toNat - 1 ∧
      (a.averageAt precision).toNat ≤ M + 1 := by
  have hsafe := safeWindow_of_mul_lt hw hle hM
  have hrun : ∃ a, addCalls precision windowSize calls ⟨0, 0, 0⟩ = .ok a ∧
      Bounded precision M windowSize a := by
    cases calls with
    | nil => exact ⟨_, rfl, hsafe.start⟩
    | cons call calls =>
      obtain ⟨hlater, hrest⟩ := pairwise_cons.mp hsorted
      rw [forall_mem_cons] at hunits
      obtain ⟨mid, hmid, hord, hbounded⟩ : ∃ mid,
          addAt precision ⟨0, 0, 0⟩ call.1 call.2 windowSize = .ok mid ∧
            mid.lastOrdinal = call.2 ∧ Bounded precision M windowSize mid :=
        hsafe.first hunits.1
      obtain ⟨a, hrun, ha⟩ := hsafe.addCalls hbounded hunits.2 (hord ▸ hlater) hrest
      refine ⟨a, ?_, ha⟩
      rw [addCalls, foldlM_cons, hmid]
      exact hrun
  obtain ⟨a, hok, hbounded⟩ := hrun
  refine ⟨a, hok, hbounded.value_le, ?_⟩
  have haverage := integerDivideCeil_le_of_bound hw hle hbounded.value_le
  exact (Nat.mod_le _ _).trans haverage

theorem moving_average_bounded_120 : ∃ a,
    addCalls rateLimitingPrecision 120 [(500, 0), (1000, 1), (7, 200)] ⟨0, 0, 0⟩ = .ok a ∧
      a.valueEx.toNat ≤ 1000 * rateLimitingPrecision + 119 ∧
      (a.averageAt rateLimitingPrecision).toNat ≤ 1001 :=
  moving_average_bounded (by decide) (by decide) (by decide) (by simp) (by decide)

end UsageAccumulator
end FlonCore
