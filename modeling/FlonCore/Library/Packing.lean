import Mathlib.Tactic

/-!
# Integers in byte streams

Integers of a fixed width are packed in little-endian order. A variable-length
integer has seven bits in each byte, the lowest first, and the high bit of a
byte says that another follows. The reader of a 32-bit integer stops after five
bytes and drops the bits beyond the width.
-/

namespace FlonCore.Library

open Option
def packLE : ℕ → ℕ → List UInt8
  | 0, _ => []
  | width + 1, n => UInt8.ofNat (n % 256) :: packLE width (n / 256)

def readLE : ℕ → List UInt8 → Option (ℕ × List UInt8)
  | 0, s => some (0, s)
  | _ + 1, [] => none
  | width + 1, b :: s => (readLE width s).map fun r => (b.toNat + 256 * r.1, r.2)

theorem readLE_packLE {width n : ℕ} (h : n < 256 ^ width) (s : List UInt8) :
    readLE width (packLE width n ++ s) = some (n, s) := by
  induction width generalizing n with
  | zero =>
    obtain rfl : n = 0 := by simpa using h
    rfl
  | succ width ih =>
    have hdiv : n / 256 < 256 ^ width := by
      rw [Nat.div_lt_iff_lt_mul (by decide)]
      rwa [pow_succ] at h
    have hbyte : (UInt8.ofNat (n % 256)).toNat = n % 256 :=
      UInt8.toNat_ofNat_of_lt' (Nat.mod_lt n (by decide))
    rw [packLE, List.cons_append, readLE, ih hdiv, map_some, hbyte, Nat.mod_add_div]

theorem readLE_lt {width n : ℕ} {s rest : List UInt8} (h : readLE width s = some (n, rest)) :
    n < 256 ^ width := by
  induction width generalizing n s rest with
  | zero =>
    obtain ⟨rfl, -⟩ : 0 = n ∧ s = rest := by simpa [readLE] using h
    simp
  | succ width ih =>
    cases s with
    | nil => simp [readLE] at h
    | cons b s =>
      rw [readLE, map_eq_some_iff] at h
      obtain ⟨⟨m, r⟩, hread, heq⟩ := h
      cases heq
      have hm := ih hread
      have hb := b.toNat_lt
      omega

/-- The packed form of a number of at most `7 * fuel` bits. -/
def packVarint : ℕ → ℕ → List UInt8
  | 0, _ => []
  | fuel + 1, n =>
    if n / 128 = 0 then [UInt8.ofNat (n % 128)]
    else UInt8.ofNat (n % 128 + 128) :: packVarint fuel (n / 128)

/-- Reads at most `rounds` bytes, the first of them shifted by `shift` bits. -/
def readVarint : ℕ → ℕ → List UInt8 → Option (ℕ × List UInt8)
  | 0, _, s => some (0, s)
  | _ + 1, _, [] => none
  | rounds + 1, shift, b :: s =>
    let bits := (b.toNat % 128) <<< shift % 2 ^ 32
    if 128 ≤ b.toNat then
      (readVarint rounds (shift + 7) s).map fun r => (bits ||| r.1, r.2)
    else some (bits, s)

theorem toNat_lastByte (n : ℕ) : (UInt8.ofNat (n % 128)).toNat = n % 128 :=
  UInt8.toNat_ofNat_of_lt' (by simp only [UInt8.size]; omega)

theorem toNat_innerByte (n : ℕ) : (UInt8.ofNat (n % 128 + 128)).toNat = n % 128 + 128 :=
  UInt8.toNat_ofNat_of_lt' (by simp only [UInt8.size]; omega)

theorem fuel_of_innerByte {fuel n : ℕ} (hfuel : n < 128 ^ (fuel + 1)) (hinner : n / 128 ≠ 0) :
    n / 128 < 128 ^ fuel ∧ 0 < fuel := by
  have hdiv : n / 128 < 128 ^ fuel := by
    rw [Nat.div_lt_iff_lt_mul (by decide)]
    rwa [pow_succ] at hfuel
  refine ⟨hdiv, Nat.pos_of_ne_zero ?_⟩
  rintro rfl
  exact hinner (Nat.lt_one_iff.mp (by simpa using hdiv))

theorem readVarint_packVarint {fuel rounds n : ℕ} (shift : ℕ) (hfuel : n < 128 ^ fuel)
    (hpos : 0 < fuel) (hrounds : fuel ≤ rounds) (hn : n * 2 ^ shift < 2 ^ 32) (s : List UInt8) :
    readVarint rounds shift (packVarint fuel n ++ s) = some (n * 2 ^ shift, s) := by
  induction fuel generalizing rounds shift n with
  | zero => exact absurd hpos (lt_irrefl 0)
  | succ fuel ih =>
    obtain ⟨rounds, rfl⟩ : ∃ r, rounds = r + 1 := ⟨rounds - 1, by omega⟩
    have hlow : (n % 128) <<< shift % 2 ^ 32 = n % 128 * 2 ^ shift := by
      rw [Nat.shiftLeft_eq]
      exact Nat.mod_eq_of_lt (lt_of_le_of_lt (Nat.mul_le_mul_right _ (Nat.mod_le n 128)) hn)
    rw [packVarint]
    split_ifs with hlast
    · have hsmall : n % 128 = n := Nat.mod_eq_of_lt (by omega)
      rw [List.singleton_append, readVarint, toNat_lastByte, if_neg (by omega), Nat.mod_mod, hlow,
        hsmall]
    · obtain ⟨hdiv, hfuel'⟩ := fuel_of_innerByte hfuel hlast
      have hhigh : n / 128 * 2 ^ (shift + 7) ≤ n * 2 ^ shift := by
        rw [pow_add, Nat.mul_comm (2 ^ shift), ← Nat.mul_assoc]
        exact Nat.mul_le_mul_right _ (Nat.div_mul_le_self n 128)
      have hrest := ih (shift + 7) hdiv hfuel' (Nat.le_of_succ_le_succ hrounds) (hhigh.trans_lt hn)
      have hmod : (n % 128 + 128) % 128 = n % 128 := by omega
      rw [List.cons_append, readVarint, toNat_innerByte, if_pos (by omega), hrest, map_some,
        hmod, hlow]
      -- the bits of this byte lie below those of the bytes after it
      have hbelow : n % 128 * 2 ^ shift < 2 ^ (shift + 7) := by
        rw [pow_add, Nat.mul_comm (2 ^ shift)]
        exact Nat.mul_lt_mul_of_pos_right (Nat.mod_lt n (by decide)) (by positivity)
      have hsum : n / 128 * 2 ^ (shift + 7) + n % 128 * 2 ^ shift = n * 2 ^ shift :=
        calc n / 128 * 2 ^ (shift + 7) + n % 128 * 2 ^ shift
            = (128 * (n / 128) + n % 128) * 2 ^ shift := by ring
          _ = n * 2 ^ shift := by rw [Nat.div_add_mod]
      rw [Nat.or_comm, Nat.mul_comm (n / 128), ← Nat.two_pow_add_eq_or_of_lt hbelow,
        Nat.mul_comm (2 ^ (shift + 7)), hsum]

/-- A reader takes at most one byte a round, and fails only where the stream ends. -/
theorem readVarint_consumes (rounds shift : ℕ) (s : List UInt8) :
    match readVarint rounds shift s with
    | none => s.length < rounds
    | some (_, rest) => ∃ used, s = used ++ rest ∧ used.length ≤ rounds := by
  induction rounds generalizing shift s with
  | zero => exact ⟨[], rfl, le_rfl⟩
  | succ rounds ih =>
    cases s with
    | nil => exact Nat.succ_pos rounds
    | cons b s =>
      rw [readVarint]
      split_ifs
      · have hrest := ih (shift + 7) s
        cases hread : readVarint rounds (shift + 7) s with
        | none =>
          rw [hread] at hrest
          exact Nat.succ_lt_succ hrest
        | some r =>
          rw [hread] at hrest
          obtain ⟨used, hs, hlength⟩ := hrest
          exact ⟨b :: used, congrArg (b :: ·) hs, Nat.succ_le_succ hlength⟩
      · exact ⟨[b], rfl, Nat.succ_le_succ (Nat.zero_le _)⟩

def packUnsigned (n : ℕ) : List UInt8 := packVarint 5 n

def readUnsigned (s : List UInt8) : Option (ℕ × List UInt8) := readVarint 5 0 s

theorem readUnsigned_packUnsigned {n : ℕ} (h : n < 2 ^ 32) (s : List UInt8) :
    readUnsigned (packUnsigned n ++ s) = some (n, s) := by
  have hfuel : n < 128 ^ 5 := by omega
  have hread := readVarint_packVarint 0 hfuel (by decide) le_rfl (by simpa using h) s
  rwa [pow_zero, Nat.mul_one] at hread

end FlonCore.Library
