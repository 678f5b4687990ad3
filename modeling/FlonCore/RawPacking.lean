import FlonCore.ConfigParameters
import FlonCore.Library.Outcome

/-!
# Variable-length integers and bitsets in a stream

An `unsigned_int` is packed as a variable-length integer and its reader stops after five bytes.
A `signed_int` is folded so that its sign is the lowest bit, and its reader goes on as long as
bytes say that another follows. A bitset is packed as its size and its blocks of eight bits.
-/

namespace FlonCore.RawPacking
open Library List Option

def zigzag (v : BitVec 32) : BitVec 32 := v <<< 1 ^^^ v.sshiftRight 31

/-- The sum is formed in 64 bits and cut to 32 bits by the assignment. -/
def unzigzag (v : BitVec 32) : BitVec 32 :=
  ((v >>> 1).setWidth 64 ^^^ ((~~~(v &&& 1)).setWidth 64 + 1)).setWidth 32

def packSigned (v : Int32) : List UInt8 := packVarint 5 (zigzag v.toBitVec).toNat

/-- The loop over the bytes; a shift by the width of the word or more is undefined. -/
def readSigned : ℕ → List UInt8 → Outcome Failure (ℕ × List UInt8)
  | _, [] => .ofExcept (orRangeError none)
  | shift, b :: s =>
    if 32 ≤ shift then .undefined
    else
      let bits := (b.toNat % 128) <<< shift % 2 ^ 32
      if 128 ≤ b.toNat then do
        let (v, s) ← readSigned (shift + 7) s
        return (bits ||| v, s)
      else .returns (bits, s)

def unpackSigned (s : List UInt8) : Outcome Failure (Int32 × List UInt8) := do
  let (v, s) ← readSigned 0 s
  return (⟨⟨unzigzag (BitVec.ofNat 32 v)⟩⟩, s)

/-- The bits of a `dynamic_bitset`, the lowest first. -/
abbrev DynamicBitset := List Bool

def numBlocks (size : ℕ) : ℕ := (size + 8 - 1) / 8

def maxNumArrayElements : ℕ := 1024 * 1024

def toBlockRange (value : DynamicBitset) : List UInt8 :=
  (List.range (numBlocks value.length)).map fun k =>
    ⟨BitVec.ofNat 8 (Nat.ofBits fun i : Fin 8 => value.getD (8 * k + i) false)⟩

def ofBlocks (blocks : List UInt8) : DynamicBitset :=
  (List.range (8 * blocks.length)).map fun i => (blocks.getD (i / 8) 0).toBitVec.getLsbD (i % 8)

def resize (value : DynamicBitset) (size : ℕ) : DynamicBitset :=
  value.take size ++ List.replicate (size - value.length) false

def checkBlocks (n : ℕ) : Except Failure Unit :=
  eosAssert (n ≤ maxNumArrayElements) .assertException "num_blocks <= MAX_NUM_ARRAY_ELEMENTS: "

def packBitset (value : DynamicBitset) : Except Failure (List UInt8) := do
  checkBlocks (numBlocks value.length)
  return packUnsigned (u32 value.length) ++ toBlockRange value

def readBlocks : ℕ → List UInt8 → Except Failure (List UInt8 × List UInt8)
  | 0, s => .ok ([], s)
  | _ + 1, [] => orRangeError none
  | n + 1, b :: s => do
    let (blocks, s) ← readBlocks n s
    return (b :: blocks, s)

def unpackBitset (s : List UInt8) : Except Failure (DynamicBitset × List UInt8) := do
  let (size, s) ← orRangeError (readUnsigned s)
  checkBlocks (numBlocks size)
  let (blocks, s) ← readBlocks (numBlocks size) s
  return (resize (ofBlocks blocks) size, s)

theorem sshiftRight_sign (v : BitVec 32) : v.sshiftRight 31 = BitVec.fill 32 v.msb := by
  ext i hi
  rw [BitVec.getElem_sshiftRight, BitVec.getElem_fill]
  split_ifs with hlast
  · obtain rfl : i = 0 := by omega
    simp [BitVec.msb_eq_getLsbD_last]
  · rfl

theorem unzigzag_zigzag (v : BitVec 32) : unzigzag (zigzag v) = v := by
  have hlow : zigzag v &&& 1 = if v.msb then 1 else 0 := by
    rw [zigzag, sshiftRight_sign]
    ext i hi
    cases v.msb <;> cases i <;> simp
  have hsum : ((~~~(zigzag v &&& 1)).setWidth 64 + 1).setWidth 32 = BitVec.fill 32 v.msb := by
    rw [hlow]
    cases v.msb <;> decide
  rw [unzigzag, BitVec.setWidth_xor, hsum, zigzag, sshiftRight_sign]
  ext i hi
  by_cases hlast : i = 31
  · subst hlast
    simp [BitVec.msb_eq_getLsbD_last]
  · have hbound : 1 + i < 32 := by omega
    have hwide : 1 + i < 64 := by omega
    simp [BitVec.getLsbD_eq_getElem, hbound, hwide]

theorem readSigned_packVarint {fuel n shift : ℕ} {s : List UInt8} {r : ℕ × List UInt8}
    (hfuel : n < 128 ^ fuel) (hshift : shift + 7 * fuel ≤ 35)
    (hread : readVarint fuel shift (packVarint fuel n ++ s) = some r) (hpos : 0 < fuel) :
    readSigned shift (packVarint fuel n ++ s) = .returns r := by
  induction fuel generalizing n shift r with
  | zero => exact absurd hpos (lt_irrefl 0)
  | succ fuel ih =>
    have hdefined : ¬ 32 ≤ shift := by omega
    rw [packVarint] at hread ⊢
    split_ifs at hread ⊢ with hlast
    · have hbyte : ¬ 128 ≤ n % 128 := by omega
      rw [singleton_append, readVarint, toNat_lastByte, if_neg hbyte] at hread
      rw [singleton_append, readSigned, toNat_lastByte, if_neg hdefined, if_neg hbyte,
        Option.some.inj hread]
    · have hbyte : 128 ≤ n % 128 + 128 := by omega
      rw [cons_append, readVarint, toNat_innerByte, if_pos hbyte, map_eq_some_iff] at hread
      obtain ⟨r', hread, rfl⟩ := hread
      obtain ⟨hdiv, hfuel'⟩ := fuel_of_innerByte hfuel hlast
      rw [cons_append, readSigned, toNat_innerByte, if_neg hdefined, if_pos hbyte,
        ih hdiv (by omega) hread hfuel']
      rfl

theorem unpackSigned_packSigned (v : Int32) (s : List UInt8) :
    unpackSigned (packSigned v ++ s) = .returns (v, s) := by
  have hlt := (zigzag v.toBitVec).isLt
  have hfuel : (zigzag v.toBitVec).toNat < 128 ^ 5 := by omega
  have hread := readUnsigned_packUnsigned hlt s
  rw [unpackSigned, packSigned, readSigned_packVarint hfuel (by decide) hread (by decide),
    Outcome.returns_bind]
  simp [unzigzag_zigzag]
  rfl

theorem readBlocks_append (blocks s : List UInt8) :
    readBlocks blocks.length (blocks ++ s) = .ok (blocks, s) := by
  induction blocks with
  | nil => rfl
  | cons b blocks ih =>
    rw [length_cons, cons_append, readBlocks, ih]
    rfl

theorem resize_ofBlocks (value : DynamicBitset) :
    resize (ofBlocks (toBlockRange value)) value.length = value := by
  have hlength : (toBlockRange value).length = numBlocks value.length := by simp [toBlockRange]
  have hfits : value.length ≤ 8 * numBlocks value.length := by
    unfold numBlocks
    omega
  refine ext_getElem (by simp [resize, ofBlocks, hlength]; omega) fun i hi hi' => ?_
  have hblock : i / 8 < numBlocks value.length := by omega
  have hbit : i % 8 < 8 := Nat.mod_lt i (by decide)
  simp only [resize]
  rw [getElem_append_left (by simp [ofBlocks, hlength]; omega)]
  simp only [ofBlocks, toBlockRange, getElem_take, getElem_map, getElem_range,
    getD_eq_getElem?_getD, getElem?_map, getElem?_range hblock, map_some,
    getD_some, BitVec.getLsbD_ofNat, Nat.testBit_ofBits_lt _ _ hbit, Nat.div_add_mod,
    getElem?_eq_getElem hi', hbit, decide_true, Bool.true_and]

theorem raw_round_trips :
    (∀ (v : UInt32) s, readUnsigned (packUnsigned v.toNat ++ s) = some (v.toNat, s)) ∧
      (∀ v s, unpackSigned (packSigned v ++ s) = .returns (v, s)) ∧
      (∀ (value : DynamicBitset) s, numBlocks value.length ≤ maxNumArrayElements → ∃ packed,
        packBitset value = .ok packed ∧ unpackBitset (packed ++ s) = .ok (value, s)) ∧
      ∀ s, match readUnsigned s with
        | none => s.length < 5
        | some (_, rest) => ∃ used, s = used ++ rest ∧ used.length ≤ 5 := by
  refine ⟨fun v s => readUnsigned_packUnsigned v.toNat_lt s, unpackSigned_packSigned,
    fun value s hfits => ?_, readVarint_consumes 5 0⟩
  have hsize : value.length < 2 ^ 32 := by
    unfold numBlocks maxNumArrayElements at hfits
    omega
  have hcheck : checkBlocks (numBlocks value.length) = .ok () := if_pos (decide_eq_true hfits)
  have hblocks := readBlocks_append (toBlockRange value) s
  rw [toBlockRange, length_map, length_range, ← toBlockRange] at hblocks
  rw [packBitset, hcheck]
  refine ⟨_, rfl, ?_⟩
  rw [unpackBitset, append_assoc, u32_of_lt hsize, readUnsigned_packUnsigned hsize]
  simp only [orRangeError, bind, Except.bind, hcheck, hblocks, resize_ofBlocks]
  rfl

end FlonCore.RawPacking
