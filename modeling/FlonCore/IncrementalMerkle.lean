import FlonCore.Library.Peaks

/-!
# Merkle roots, at once and incrementally

`calculate_merkle` splits a sequence at the largest power of two; the incremental
tree keeps the roots of its complete subtrees and a mask of their sizes, and folds
two levels in each step of an append. Both compute with the peaks of the sequence.
An access outside the vector, a shift by 64 or more and a failed `assert` are
undefined: the functions then give `none`.
-/

namespace FlonCore
open Library BitVec List
variable {D : Type} (hashCombine : D → D → D)

section Full

def bitFloor (x : ℕ) : ℕ := if x = 0 then 0 else 2 ^ Nat.log 2 x

def calculateMerklePow2 (ids : List D) : Option D :=
  if ids.length < 2 ∨ bitFloor ids.length ≠ ids.length then none
  else if ids.length = 2 then do
    let first ← ids[0]?
    let second ← ids[1]?
    return hashCombine first second
  else do
    let left ← calculateMerklePow2 (ids.take (ids.length / 2))
    let right ← calculateMerklePow2 (ids.drop (ids.length / 2))
    return hashCombine left right
termination_by ids.length
decreasing_by
  all_goals simp only [length_take, length_drop]
  all_goals omega

variable (empty : D)

theorem bitFloor_pos {x : ℕ} (h : x ≠ 0) : 0 < bitFloor x := by
  rw [bitFloor, if_neg h]
  exact Nat.two_pow_pos _

def calculateMerkle (ids : List D) : Option D :=
  if ids.length ≤ 1 then some (ids.headD empty)
  else
    let midpoint := bitFloor ids.length
    if ids.length = midpoint then calculateMerklePow2 hashCombine ids
    else do
      let left ← calculateMerklePow2 hashCombine (ids.take midpoint)
      let right ← calculateMerkle (ids.drop midpoint)
      return hashCombine left right
termination_by ids.length
decreasing_by
  have hpos := bitFloor_pos (x := ids.length) (by omega)
  simp only [length_drop]
  omega

end Full

structure IncrementalMerkleTree (D : Type) where
  /-- The bits say which sizes of complete subtrees there are. -/
  mask : BitVec 64
  /-- The roots of these subtrees, the smallest last. -/
  trees : List D

namespace IncrementalMerkleTree

def empty : IncrementalMerkleTree D := ⟨0, []⟩

def setBit (mask : BitVec 64) (idx : ℕ) : BitVec 64 := mask ||| 1#64 <<< idx

def clearBit (mask : BitVec 64) (idx : ℕ) : BitVec 64 := mask &&& ~~~(1#64 <<< idx)

def popcount (mask : BitVec 64) : ℕ := (List.range 64).countP mask.getLsbD

/-- `_append`; the iterator `slot` is an index into the vector. -/
def appendAt (digest : D) (slot idx : ℕ) (t : IncrementalMerkleTree D) :
    Option (IncrementalMerkleTree D) :=
  if 64 ≤ idx then none
  else if t.mask.getLsbD idx then
    if 64 ≤ idx + 1 then none
    else if !t.mask.getLsbD (idx + 1) then
      if slot = 0 then none
      else do
        let last ← t.trees[slot - 1]?
        return ⟨setBit (clearBit t.mask idx) (idx + 1),
          t.trees.set (slot - 1) (hashCombine last digest)⟩
    else if slot < 2 then none
    else do
      let right ← t.trees[slot - 1]?
      let left ← t.trees[slot - 2]?
      appendAt (hashCombine left (hashCombine right digest)) (slot - 2) (idx + 2)
        ⟨clearBit (clearBit t.mask idx) (idx + 1), t.trees.take (slot - 2) ++ t.trees.drop slot⟩
  else if slot ≤ t.trees.length then some ⟨setBit t.mask idx, t.trees.insertIdx slot digest⟩
  else none
termination_by 64 - idx
decreasing_by omega

def append (t : IncrementalMerkleTree D) (digest : D) : Option (IncrementalMerkleTree D) :=
  if t.trees.length ≠ popcount t.mask then none
  else do
    let t ← appendAt hashCombine digest t.trees.length 0 t
    if t.trees.length ≠ popcount t.mask then none else return t

/-- `_get_root`, on the trees from an index on. -/
def getRootFrom : List D → Option D
  | [] => none
  | [root] => some root
  | tree :: rest => do
    let root ← getRootFrom rest
    return hashCombine tree root

def getRoot (emptyDigest : D) (t : IncrementalMerkleTree D) : Option D :=
  if t.mask = 0 then some emptyDigest else getRootFrom hashCombine t.trees

def numDigestsAppended (t : IncrementalMerkleTree D) : ℕ := t.mask.toNat

end IncrementalMerkleTree

variable {ids : List D}

theorem bitFloor_two_pow (k : ℕ) : bitFloor (2 ^ k) = 2 ^ k := by
  rw [bitFloor, if_neg (Nat.two_pow_pos k).ne', Nat.log_pow (by norm_num)]

theorem calculateMerklePow2_eq {k : ℕ} (h : ids.length = 2 ^ (k + 1)) :
    ∃ root, calculateMerklePow2 hashCombine ids = some root ∧ peaks hashCombine ids = [root] := by
  induction k generalizing ids with
  | zero =>
    obtain ⟨a, b, rfl⟩ := length_eq_two.mp h
    refine ⟨hashCombine a b, ?_, ?_⟩
    · have htwo : bitFloor 2 = 2 := bitFloor_two_pow 1
      rw [calculateMerklePow2]
      simp [htwo]
    · rw [peaks_of_even hashCombine (by simp)]
      simp [pairs, peaks_singleton]
  | succ k ih =>
    have hpos := Nat.two_pow_pos k
    have hleft : (ids.take (ids.length / 2)).length = 2 ^ (k + 1) := by
      rw [length_take]
      omega
    have hright : (ids.drop (ids.length / 2)).length = 2 ^ (k + 1) := by
      rw [length_drop]
      omega
    obtain ⟨left, hleft', hleftPeaks⟩ := ih hleft
    obtain ⟨right, hright', hrightPeaks⟩ := ih hright
    obtain ⟨a, b, ha, hb, hab⟩ := peaks_append_self hashCombine hleft hright
    obtain rfl : left = a := by simpa [hleftPeaks] using ha
    obtain rfl : right = b := by simpa [hrightPeaks] using hb
    rw [take_append_drop] at hab
    refine ⟨hashCombine left right, ?_, hab⟩
    have hfloor : ¬ (ids.length < 2 ∨ bitFloor ids.length ≠ ids.length) := by
      rw [h, bitFloor_two_pow]
      omega
    rw [calculateMerklePow2, if_neg hfloor, if_neg (by omega), hleft', hright']
    rfl

theorem calculateMerkle_eq (empty : D) (h : ids ≠ []) :
    calculateMerkle hashCombine empty ids =
      IncrementalMerkleTree.getRootFrom hashCombine (peaks hashCombine ids) := by
  induction hn : ids.length using Nat.strong_induction_on generalizing ids with
  | _ n ih =>
    have hpos := length_pos_iff.mpr h
    rw [calculateMerkle]
    by_cases hone : ids.length ≤ 1
    · obtain ⟨a, rfl⟩ := length_eq_one_iff.mp (by omega : ids.length = 1)
      simp [peaks_singleton, IncrementalMerkleTree.getRootFrom]
    · rw [if_neg hone]
      obtain ⟨k, hk⟩ : ∃ k, Nat.log 2 ids.length = k + 1 :=
        Nat.exists_eq_succ_of_ne_zero (Nat.log_pos (by norm_num) (by omega)).ne'
      have hfloor : bitFloor ids.length = 2 ^ (k + 1) := by
        rw [bitFloor, if_neg hpos.ne', hk]
      have hle : 2 ^ (k + 1) ≤ ids.length := hk ▸ Nat.pow_log_le_self 2 hpos.ne'
      have hlt : ids.length < 2 ^ (k + 1 + 1) := hk ▸ Nat.lt_pow_succ_log_self (by norm_num) _
      simp only [hfloor]
      by_cases hpow : ids.length = 2 ^ (k + 1)
      · obtain ⟨root, hroot, hpeaks⟩ := calculateMerklePow2_eq hashCombine hpow
        rw [if_pos hpow, hroot, hpeaks]
        rfl
      · have hleft : (ids.take (2 ^ (k + 1))).length = 2 ^ (k + 1) := by
          rw [length_take]
          omega
        have hright : (ids.drop (2 ^ (k + 1))).length = ids.length - 2 ^ (k + 1) :=
          length_drop
        have hrest : ids.drop (2 ^ (k + 1)) ≠ [] := by
          rw [← length_pos_iff]
          omega
        obtain ⟨root, hroot, hpeaks⟩ := calculateMerklePow2_eq hashCombine hleft
        have hsplit := peaks_append hashCombine hleft (by rw [pow_succ] at hlt; omega :
          (ids.drop (2 ^ (k + 1))).length < 2 ^ (k + 1))
        rw [take_append_drop, hpeaks] at hsplit
        rw [if_neg hpow, hroot, ih _ (by omega) hrest rfl, hsplit]
        obtain ⟨t, ts, hts⟩ := exists_cons_of_ne_nil (peaks_ne_nil hashCombine hrest)
        rw [hts]
        rfl

namespace IncrementalMerkleTree

def maskOf (a idx : ℕ) : BitVec 64 := BitVec.ofNat 64 (a * 2 ^ idx)

theorem getLsbD_maskOf (a idx j : ℕ) :
    (maskOf a idx).getLsbD j = (decide (j < 64) && (decide (idx ≤ j) && a.testBit (j - idx))) := by
  rw [maskOf, getLsbD_ofNat, Nat.testBit_mul_two_pow]

theorem getLsbD_one_shiftLeft (idx j : ℕ) :
    (1#64 <<< idx).getLsbD j = (decide (j < 64) && decide (j = idx)) := by
  by_cases hlt : j < idx
  · simp [hlt, show j ≠ idx by omega]
  · have hsub : j - idx = 0 ↔ j = idx := by omega
    simp [hlt, hsub]

theorem clearBit_maskOf (a idx : ℕ) : clearBit (maskOf a idx) idx = maskOf (a / 2) (idx + 1) := by
  apply eq_of_getLsbD_eq
  intro j hj
  rw [clearBit, getLsbD_and, getLsbD_not, getLsbD_one_shiftLeft, getLsbD_maskOf, getLsbD_maskOf]
  by_cases hlt : j < idx
  · simp [hj, show ¬ idx ≤ j by omega, show ¬ idx + 1 ≤ j by omega]
  · by_cases heq : j = idx
    · simp [heq]
    · obtain ⟨d, rfl⟩ : ∃ d, j = idx + 1 + d := ⟨j - (idx + 1), by omega⟩
      simp [hj, show idx ≤ idx + 1 + d by omega, show idx + 1 + d - idx = d + 1 by omega,
        show idx + 1 + d ≠ idx by omega, Nat.testBit_succ]

theorem setBit_maskOf {a : ℕ} (h : a % 2 = 0) (idx : ℕ) :
    setBit (maskOf a idx) idx = maskOf (a + 1) idx := by
  apply eq_of_getLsbD_eq
  intro j hj
  rw [setBit, getLsbD_or, getLsbD_one_shiftLeft, getLsbD_maskOf, getLsbD_maskOf]
  by_cases hlt : j < idx
  · simp [hj, show ¬ idx ≤ j by omega, show j ≠ idx by omega]
  · obtain ⟨d, rfl⟩ : ∃ d, j = idx + d := ⟨j - idx, by omega⟩
    cases d with
    | zero =>
      have hidx : idx < 64 := hj
      simp [hidx, Nat.testBit_zero, show (a + 1) % 2 = 1 by omega]
    | succ d =>
      simp [hj, show idx + (d + 1) - idx = d + 1 by omega, Nat.testBit_succ,
        show (a + 1) / 2 = a / 2 by omega]

theorem getLsbD_maskOf_self (a : ℕ) {idx : ℕ} (h : idx < 64) :
    (maskOf a idx).getLsbD idx = decide (a % 2 = 1) := by
  rw [getLsbD_maskOf]
  simp [h, Nat.testBit_zero]

theorem getLsbD_maskOf_succ (a : ℕ) {idx : ℕ} (h : idx + 1 < 64) :
    (maskOf a idx).getLsbD (idx + 1) = decide (a / 2 % 2 = 1) := by
  rw [getLsbD_maskOf]
  simp [h, Nat.testBit_succ, Nat.testBit_zero]

theorem maskOf_carry {a : ℕ} (h : a % 2 = 1) (idx : ℕ) :
    maskOf (a / 2 + 1) (idx + 1) = maskOf (a + 1) idx := by
  have hdouble : a + 1 = (a / 2 + 1) * 2 := by omega
  rw [maskOf, maskOf, hdouble, pow_succ]
  congr 1
  ring

theorem popcount_maskOf (a : ℕ) : popcount (maskOf a 0) = (List.range 64).countP a.testBit := by
  apply countP_congr
  intro j hj
  have hj : j < 64 := by simpa using hj
  rw [getLsbD_maskOf]
  simp [hj]

theorem level_lt {k idx : ℕ} (hk : 0 < k) (h : k * 2 ^ idx ≤ 2 ^ 63) : idx < 64 := by
  have hpow : 2 ^ idx ≤ 2 ^ 63 := le_trans (Nat.le_mul_of_pos_left _ hk) h
  have hle := (Nat.pow_le_pow_iff_right (by norm_num)).mp hpow
  omega

section Carry

variable {hashCombine : D → D → D} {l l' m : List D} {d t u : D} {idx : ℕ}

theorem appendAt_of_even (heven : l.length % 2 = 0) (hidx : idx < 64) :
    appendAt hashCombine d (peaks hashCombine l).length idx
        ⟨maskOf l.length idx, peaks hashCombine l⟩ =
      some ⟨maskOf (l.length + 1) idx, peaks hashCombine (l ++ [d])⟩ := by
  rw [appendAt, if_neg (by omega)]
  simp only [getLsbD_maskOf_self _ hidx, heven, setBit_maskOf heven, peaks_concat_of_even heven]
  simp

theorem appendAt_of_carry (heven : l'.length % 2 = 0) (hfree : l'.length / 2 % 2 = 0)
    (hidx : idx + 1 < 64) :
    appendAt hashCombine d (peaks hashCombine (l' ++ [t])).length idx
        ⟨maskOf (l'.length + 1) idx, peaks hashCombine (l' ++ [t])⟩ =
      some ⟨maskOf (l'.length + 2) idx, peaks hashCombine (l' ++ [t, d])⟩ := by
  have hodd : (l'.length + 1) % 2 = 1 := by omega
  have hbit : (l'.length + 1) / 2 % 2 = 0 := by omega
  have hhalf : (pairs hashCombine l').length % 2 = 0 := by rwa [length_pairs]
  rw [appendAt, if_neg (by omega), getLsbD_maskOf_self _ (by omega), getLsbD_maskOf_succ _ hidx,
    if_pos (by simpa using hodd), if_neg (by omega), if_pos (by simpa using hbit),
    peaks_concat_of_even heven, peaks_concat_concat heven, clearBit_maskOf, setBit_maskOf hbit,
    maskOf_carry hodd, peaks_concat_of_even hhalf, ← peaks_of_even hashCombine heven]
  simp

theorem appendAt_of_two_carries (heven : l'.length % 2 = 0)
    (hpairs : pairs hashCombine l' = m ++ [u]) (hmeven : m.length % 2 = 0)
    (hidx : idx + 1 < 64) :
    appendAt hashCombine d (peaks hashCombine (l' ++ [t])).length idx
        ⟨maskOf (l'.length + 1) idx, peaks hashCombine (l' ++ [t])⟩ =
      appendAt hashCombine (hashCombine u (hashCombine t d))
        (peaks hashCombine (pairs hashCombine m)).length (idx + 2)
        ⟨maskOf (pairs hashCombine m).length (idx + 2),
          peaks hashCombine (pairs hashCombine m)⟩ := by
  have hlength : m.length + 1 = l'.length / 2 := by
    rw [← length_pairs hashCombine l', hpairs]
    simp
  have hodd : (l'.length + 1) % 2 = 1 := by omega
  have hbit : (l'.length + 1) / 2 % 2 = 1 := by omega
  have hpeaks : peaks hashCombine l' = peaks hashCombine m ++ [u] := by
    rw [peaks_of_even hashCombine heven, hpairs, peaks_concat_of_even hmeven]
  have hquarter : (pairs hashCombine m).length = (l'.length + 1) / 2 / 2 := by
    rw [length_pairs]
    omega
  rw [appendAt, if_neg (by omega), getLsbD_maskOf_self _ (by omega),
    getLsbD_maskOf_succ _ hidx, if_pos (by simpa using hodd), if_neg (by omega),
    if_neg (by simpa using hbit), peaks_concat_of_even heven, hpeaks, clearBit_maskOf,
    clearBit_maskOf, hquarter, ← peaks_of_even hashCombine hmeven]
  simp

/-- `l` are the roots of the blocks of `2 ^ idx` digests. The induction is on their number, and
its cases are the last two bits of it. -/
theorem appendAt_eq (h : (l.length + 1) * 2 ^ idx ≤ 2 ^ 63) :
    appendAt hashCombine d (peaks hashCombine l).length idx
        ⟨maskOf l.length idx, peaks hashCombine l⟩ =
      some ⟨maskOf (l.length + 1) idx, peaks hashCombine (l ++ [d])⟩ := by
  induction hn : l.length using Nat.strong_induction_on generalizing l d idx with
  | _ n ih =>
    subst hn
    by_cases heven : l.length % 2 = 0
    · exact appendAt_of_even heven (level_lt (Nat.succ_pos _) h)
    · obtain ⟨l', t, rfl, heven'⟩ := exists_concat_of_odd (by omega : l.length % 2 = 1)
      rw [List.length_append, List.length_singleton] at h ih ⊢
      have hhalves : (l'.length / 2 + 1) * 2 ^ (idx + 1) ≤ 2 ^ 63 := by
        have hdouble : l'.length + 1 + 1 = (l'.length / 2 + 1) * 2 := by omega
        rwa [pow_succ', ← Nat.mul_assoc, ← hdouble]
      have hidx := level_lt (Nat.succ_pos _) hhalves
      rw [List.append_assoc, List.singleton_append]
      by_cases hfree : l'.length / 2 % 2 = 0
      · exact appendAt_of_carry heven' hfree hidx
      · have hhalf : (pairs hashCombine l').length % 2 = 1 := by
          rw [length_pairs]
          omega
        obtain ⟨m, u, hpairs, hmeven⟩ := exists_concat_of_odd hhalf
        have hlength : l'.length / 2 = m.length + 1 := by
          rw [← length_pairs hashCombine l', hpairs]
          simp
        have hquarter : (pairs hashCombine m).length + 1 = (l'.length + 2) / 4 := by
          rw [length_pairs]
          omega
        have hquarters : ((pairs hashCombine m).length + 1) * 2 ^ (idx + 2) ≤ 2 ^ 63 := by
          have hdouble : l'.length / 2 + 1 = ((pairs hashCombine m).length + 1) * 2 := by omega
          rwa [pow_succ', ← Nat.mul_assoc, ← hdouble]
        rw [appendAt_of_two_carries heven' hpairs hmeven hidx,
          ih (pairs hashCombine m).length (by omega) hquarters rfl, peaks_concat_concat heven',
          hpairs, List.append_assoc, List.singleton_append, peaks_concat_concat hmeven,
          ← maskOf_carry (by omega : (l'.length + 1) % 2 = 1),
          ← maskOf_carry (by omega : (l'.length + 1) / 2 % 2 = 1)]
        congr 3
        omega

end Carry

theorem append_eq {l : List D} (h : l.length + 1 ≤ 2 ^ 63) (d : D) :
    append hashCombine ⟨maskOf l.length 0, peaks hashCombine l⟩ d =
      some ⟨maskOf (l.length + 1) 0, peaks hashCombine (l ++ [d])⟩ := by
  have hcount := length_peaks hashCombine (by omega : l.length < 2 ^ 64)
  have hcount' := length_peaks hashCombine (l := l ++ [d]) (k := 64) (by simp; omega)
  have hstep : appendAt hashCombine d (peaks hashCombine l).length 0
      ⟨maskOf l.length 0, peaks hashCombine l⟩ =
      some ⟨maskOf (l.length + 1) 0, peaks hashCombine (l ++ [d])⟩ :=
    appendAt_eq (by simpa using h)
  simp [append, popcount_maskOf, hcount', hstep, ← hcount]

theorem foldlM_append_empty {digests : List D} (h : digests.length ≤ 2 ^ 63) :
    digests.foldlM (append hashCombine) empty =
      some ⟨maskOf digests.length 0, peaks hashCombine digests⟩ := by
  induction digests using List.reverseRecOn with
  | nil => simp [empty, maskOf, peaks_nil]
  | append_singleton l d ih =>
    rw [length_append, length_singleton] at h ⊢
    rw [foldlM_append, ih (by omega)]
    simpa using append_eq hashCombine h d

theorem maskOf_ne_zero {n : ℕ} (hpos : 0 < n) (h : n < 2 ^ 64) : maskOf n 0 ≠ 0 := by
  intro hzero
  have hnat := congrArg BitVec.toNat hzero
  simp [maskOf] at hnat
  omega

theorem getRootFrom_isSome {l : List D} (h : l ≠ []) : (getRootFrom hashCombine l).isSome := by
  induction l with
  | nil => simp at h
  | cons tree rest ih =>
    cases rest with
    | nil => simp [getRootFrom]
    | cons next rest =>
      obtain ⟨root, hroot⟩ := Option.isSome_iff_exists.mp (ih (by simp))
      simp [getRootFrom, hroot]

theorem getRoot_peaks (emptyDigest : D) {l : List D} (h : l.length < 2 ^ 64) :
    getRoot hashCombine emptyDigest ⟨maskOf l.length 0, peaks hashCombine l⟩ =
      calculateMerkle hashCombine emptyDigest l := by
  cases l with
  | nil => simp [getRoot, maskOf, calculateMerkle]
  | cons d rest =>
    rw [getRoot, if_neg (maskOf_ne_zero (by simp) h),
      calculateMerkle_eq hashCombine emptyDigest (by simp)]

theorem exists_calculateMerkle (emptyDigest : D) (l : List D) :
    ∃ root, calculateMerkle hashCombine emptyDigest l = some root := by
  cases l with
  | nil => exact ⟨emptyDigest, by simp [calculateMerkle]⟩
  | cons d rest =>
    rw [calculateMerkle_eq hashCombine emptyDigest (by simp)]
    exact Option.isSome_iff_exists.mp
      (getRootFrom_isSome hashCombine (peaks_ne_nil hashCombine (by simp)))

theorem incremental_root_eq_calculate_merkle (emptyDigest : D) (digests : List D)
    (h : digests.length < 2 ^ 63) :
    ∃ tree root, digests.foldlM (append hashCombine) empty = some tree ∧
      getRoot hashCombine emptyDigest tree = some root ∧
      calculateMerkle hashCombine emptyDigest digests = some root ∧
      tree.numDigestsAppended = digests.length ∧
      tree.trees.length = (List.range 64).countP digests.length.testBit := by
  obtain ⟨root, hroot⟩ := exists_calculateMerkle hashCombine emptyDigest digests
  refine ⟨_, root, foldlM_append_empty hashCombine (Nat.le_of_lt h), ?_, hroot, ?_,
    length_peaks hashCombine (by omega : digests.length < 2 ^ 64)⟩
  · rw [getRoot_peaks hashCombine emptyDigest (by omega), hroot]
  · simp [numDigestsAppended, maskOf]
    omega

theorem incremental_root_of_five :
    ∃ tree root, [1, 2, 3, 4, 5].foldlM (append (fun a b : ℕ => 3 * a + b)) empty = some tree ∧
      getRoot (fun a b : ℕ => 3 * a + b) 0 tree = some root ∧
      calculateMerkle (fun a b : ℕ => 3 * a + b) 0 [1, 2, 3, 4, 5] = some root ∧
      tree.numDigestsAppended = 5 ∧
      tree.trees.length = (List.range 64).countP (5 : ℕ).testBit :=
  incremental_root_eq_calculate_merkle _ 0 [1, 2, 3, 4, 5] (by decide)

end IncrementalMerkleTree
end FlonCore
