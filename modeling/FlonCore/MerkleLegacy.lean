import FlonCore.Library.Peaks
import FlonCore.Types

/-!
# The legacy merkle tree

`calculate_merkle_legacy` pairs a row off in place until one digest is left, and
doubles the last digest of an odd row. The incremental tree keeps the complete
nodes the next append needs, the smallest first, with the root behind them.
Reading outside a container gives `none`. Counts are naturals: a deque holds far
fewer than `2 ^ 63` digests, the range of `bit_ceil`.
-/

namespace FlonCore
open Library List

def makeLegacyLeftDigest (val : Digest) : Digest := val &&& ~~~(1#256 <<< 255)

def makeLegacyRightDigest (val : Digest) : Digest := val ||| 1#256 <<< 255

def makeLegacyDigestPair (l r : Digest) : Digest × Digest :=
  (makeLegacyLeftDigest l, makeLegacyRightDigest r)

variable (hash : Digest × Digest → Digest)

def hashLegacyPair (l r : Digest) : Digest := hash (makeLegacyDigestPair l r)

variable (ids : List Digest)

def hashPairAt (i : ℕ) : Option (List Digest) := do
  let l ← ids[2 * i]?
  let r ← ids[2 * i + 1]?
  return ids.set i (hashLegacyPair hash l r)

def duplicateLast : List Digest :=
  if ids.length % 2 = 1 then ids ++ ids.getLast?.toList else ids

theorem length_duplicateLast : (duplicateLast ids).length = 2 * ((ids.length + 1) / 2) := by
  cases ids using List.reverseRecOn with
  | nil => rfl
  | append_singleton ids d =>
    simp only [duplicateLast, getLast?_concat, Option.toList_some]
    split_ifs with hodd
    all_goals simp only [length_append, length_singleton] at hodd ⊢
    all_goals omega

/-- The `while` loop. -/
def reduceLegacy (ids : List Digest) : Option Digest :=
  if ids.length ≤ 1 then ids.head?
  else do
    let row := duplicateLast ids
    let row' ← (List.range (row.length / 2)).foldlM (hashPairAt hash) row
    reduceLegacy (row'.take (row.length / 2))
termination_by ids.length
decreasing_by
  have hlength := length_duplicateLast ids
  rw [length_take]
  omega

def calculateMerkleLegacy : Option Digest :=
  if ids.length = 0 then some 0 else reduceLegacy hash ids

def bitCeil (x : ℕ) : ℕ := 2 ^ Nat.clog 2 x

def bitWidth (x : ℕ) : ℕ := if x = 0 then 0 else Nat.log 2 x + 1

def calculateMaxDepth (nodeCount : ℕ) : ℕ :=
  if nodeCount = 0 then 0 else bitWidth (bitCeil nodeCount)

structure IncrementalMerkleLegacy where
  nodeCount : ℕ
  activeNodes : List Digest

structure CollapseState where
  isPartial : Bool
  top : Digest
  /-- What the iterator into the active nodes has not read. -/
  (active updated : List Digest)

namespace IncrementalMerkleLegacy

def empty : IncrementalMerkleLegacy := ⟨0, []⟩

def collapse : ℕ → ℕ → CollapseState → Option CollapseState
  | 0, _, s => some s
  | depth + 1, index, s =>
    if index % 2 = 0 then
      collapse depth (index / 2) { s with
          isPartial := true
          top := hashLegacyPair hash s.top s.top
          updated := if s.isPartial then s.updated else s.updated ++ [s.top] }
    else do
      let left ← s.active.head?
      collapse depth (index / 2) { s with
          top := hashLegacyPair hash left s.top
          active := s.active.tail
          updated := if s.isPartial then s.updated ++ [left] else s.updated }

/-- The new tree and the root that `append` returns. -/
def append (t : IncrementalMerkleLegacy) (digest : Digest) :
    Option (IncrementalMerkleLegacy × Digest) := do
  let maxDepth := calculateMaxDepth (t.nodeCount + 1)
  let s ← collapse hash (maxDepth - 1) t.nodeCount ⟨false, digest, t.activeNodes, []⟩
  let activeNodes := s.updated ++ [s.top]
  let root ← activeNodes.getLast?
  return (⟨t.nodeCount + 1, activeNodes⟩, root)

def getRoot (t : IncrementalMerkleLegacy) : Option Digest :=
  if 0 < t.nodeCount then t.activeNodes.getLast? else some 0

end IncrementalMerkleLegacy

theorem getElem?_pairs (combine : Digest → Digest → Digest) (ids : List Digest) (i : ℕ) :
    (pairs combine ids)[i]? = (do return combine (← ids[2 * i]?) (← ids[2 * i + 1]?)) := by
  induction ids using lastOdd.induct generalizing i with
  | case1 => simp [pairs]
  | case2 a => simp [pairs]
  | case3 a b rest ih =>
    cases i with
    | zero => simp [pairs]
    | succ i => simpa [pairs, Nat.mul_add] using ih i

variable {ids : List Digest}

theorem hashPairAt_take_append {i : ℕ} (h : i < ids.length / 2) :
    hashPairAt hash ((pairs (hashLegacyPair hash) ids).take i ++ ids.drop i) i =
      some ((pairs (hashLegacyPair hash) ids).take (i + 1) ++ ids.drop (i + 1)) := by
  have hlength : ((pairs (hashLegacyPair hash) ids).take i).length = i := by
    rw [length_take, length_pairs]
    omega
  have hread : ∀ j, i ≤ j →
      ((pairs (hashLegacyPair hash) ids).take i ++ ids.drop i)[j]? = ids[j]? := by
    intro j hj
    rw [getElem?_append_right (by omega), hlength, getElem?_drop]
    congr 1
    omega
  have hl := getElem?_eq_getElem (by omega : 2 * i < ids.length)
  have hr := getElem?_eq_getElem (by omega : 2 * i + 1 < ids.length)
  have hdrop := drop_eq_getElem_cons (by omega : i < ids.length)
  have hset : ∀ d, ((pairs (hashLegacyPair hash) ids).take i ++ ids.drop i).set i d =
      (pairs (hashLegacyPair hash) ids).take i ++ d :: ids.drop (i + 1) := by
    intro d
    rw [set_append_right _ _ (by omega), hlength, Nat.sub_self, hdrop, set_cons_zero]
  rw [hashPairAt, hread _ (by omega), hread _ (by omega), take_add_one, getElem?_pairs, hl, hr]
  simp [hset]

theorem foldlM_hashPairAt {k : ℕ} (h : k ≤ ids.length / 2) :
    (List.range k).foldlM (hashPairAt hash) ids =
      some ((pairs (hashLegacyPair hash) ids).take k ++ ids.drop k) := by
  induction k with
  | zero => simp
  | succ k ih =>
    rw [range_succ, foldlM_append, ih (by omega)]
    simpa using hashPairAt_take_append hash (by omega : k < ids.length / 2)

theorem reduceLegacy_eq (h : 1 < ids.length) :
    reduceLegacy hash ids =
      reduceLegacy hash (pairs (hashLegacyPair hash) (duplicateLast ids)) := by
  conv_lhs => rw [reduceLegacy]
  have hlength := length_pairs (hashLegacyPair hash) (duplicateLast ids)
  simp [show ¬ ids.length ≤ 1 by omega, foldlM_hashPairAt hash le_rfl, take_of_length_le, hlength]

theorem reduceLegacy_singleton (d : Digest) : reduceLegacy hash [d] = some d := by
  simp [reduceLegacy]

variable {row : List Digest}

theorem reduceLegacy_concat_of_even (hne : row ≠ []) (h : row.length % 2 = 0) (d : Digest) :
    reduceLegacy hash (row ++ [d]) =
      reduceLegacy hash (pairs (hashLegacyPair hash) row ++ [hashLegacyPair hash d d]) := by
  have hpos := length_pos_iff.mpr hne
  have hrow : duplicateLast (row ++ [d]) = row ++ [d, d] := by
    simp [duplicateLast, show (row.length + 1) % 2 = 1 by omega]
  rw [reduceLegacy_eq hash (by simp; omega), hrow, pairs_append _ h]
  rfl

theorem reduceLegacy_concat_concat (h : row.length % 2 = 0) (t d : Digest) :
    reduceLegacy hash (row ++ [t, d]) =
      reduceLegacy hash (pairs (hashLegacyPair hash) row ++ [hashLegacyPair hash t d]) := by
  have hrow : duplicateLast (row ++ [t, d]) = row ++ [t, d] := by
    simp [duplicateLast, h]
  rw [reduceLegacy_eq hash (by simp), hrow, pairs_append _ h]
  rfl

theorem calculateMaxDepth_succ (n : ℕ) : calculateMaxDepth (n + 1) = Nat.clog 2 (n + 1) + 1 := by
  simp [calculateMaxDepth, bitWidth, bitCeil, Nat.log_pow]

theorem eq_nil_of_clog (h : Nat.clog 2 (row.length + 1) = 0) : row = [] := by
  have hle := Nat.le_pow_clog (by norm_num : 1 < 2) (row.length + 1)
  rw [h] at hle
  exact length_eq_zero_iff.mp (by omega)

theorem ne_nil_of_clog {depth : ℕ} (h : Nat.clog 2 (row.length + 1) = depth + 1) : row ≠ [] := by
  intro hnil
  simp [hnil] at h

theorem clog_succ_eq {n depth : ℕ} (h : Nat.clog 2 (n + 1) = depth + 1) :
    Nat.clog 2 (n / 2 + 1) = depth := by
  have htwo : 2 ≤ n + 1 := by
    by_contra hlt
    obtain rfl : n = 0 := by omega
    simp at h
  rw [Nat.clog_of_two_le (by norm_num) htwo] at h
  have hhalf : (n + 1 + 2 - 1) / 2 = n / 2 + 1 := by omega
  rw [hhalf] at h
  omega

namespace IncrementalMerkleLegacy

section Collapse
variable {extra : List Digest} (updated : List Digest) {top : Digest} {depth : ℕ}

theorem collapse_eq_some (isPartial : Bool) (h : Nat.clog 2 (row.length + 1) = depth) :
    ∃ s rest, reduceLegacy hash (row ++ [top]) = some s.top ∧
      collapse hash depth row.length
        ⟨isPartial, top, (peaks (hashLegacyPair hash) row).reverse ++ extra, updated⟩ = some s ∧
      if isPartial then s.updated = updated ++ (peaks (hashLegacyPair hash) row).reverse
      else s.updated ++ [s.top] =
        updated ++ (peaks (hashLegacyPair hash) (row ++ [top])).reverse ++ rest := by
  induction depth generalizing row top updated isPartial with
  | zero =>
    obtain rfl : row = [] := eq_nil_of_clog h
    refine ⟨⟨isPartial, top, extra, updated⟩, [], reduceLegacy_singleton hash top, ?_, ?_⟩
    · simp [collapse, peaks_nil]
    · cases isPartial <;> simp [peaks_nil, peaks_singleton]
  | succ depth ih =>
    have hhalf := clog_succ_eq h
    by_cases heven : row.length % 2 = 0
    · have hne := ne_nil_of_clog h
      rw [← length_pairs (hashLegacyPair hash)] at hhalf
      obtain ⟨s, _, hroot, hrun, hs⟩ :=
        ih (if isPartial then updated else updated ++ [top]) true hhalf
      rw [← peaks_of_even _ heven, length_pairs] at hrun
      rw [← peaks_of_even _ heven, if_pos rfl] at hs
      refine ⟨s, [s.top], (reduceLegacy_concat_of_even hash hne heven top).trans hroot, ?_, ?_⟩
      · simpa [collapse, heven] using hrun
      · cases isPartial <;> simp [hs, peaks_concat_of_even heven]
    · obtain ⟨row', left, rfl, heven'⟩ := exists_concat_of_odd (by omega : row.length % 2 = 1)
      have hlength : (row' ++ [left]).length / 2 = row'.length / 2 := by
        rw [length_append, length_singleton]
        omega
      rw [hlength, ← length_pairs (hashLegacyPair hash)] at hhalf
      obtain ⟨s, rest, hroot, hrun, hs⟩ :=
        ih (if isPartial then updated ++ [left] else updated) isPartial hhalf
      refine ⟨s, rest, ?_, ?_, ?_⟩
      · rw [append_assoc]
        exact (reduceLegacy_concat_concat hash heven' left top).trans hroot
      · rw [← peaks_of_even _ heven', length_pairs, ← hlength] at hrun
        rw [collapse, if_neg heven, peaks_concat_of_even heven']
        simpa using hrun
      · rw [← peaks_of_even _ heven'] at hs
        rw [append_assoc row', singleton_append, peaks_concat_concat heven',
          peaks_concat_of_even heven']
        cases isPartial <;> simpa using hs

end Collapse

structure Covers (t : IncrementalMerkleLegacy) (digests : List Digest) : Prop where
  count : t.nodeCount = digests.length
  active : ∃ rest, t.activeNodes = (peaks (hashLegacyPair hash) digests).reverse ++ rest

theorem covers_empty : Covers hash empty [] := ⟨rfl, [], by simp [empty, peaks_nil]⟩

variable {hash} in
theorem Covers.append {t : IncrementalMerkleLegacy} {digests : List Digest}
    (h : Covers hash t digests) (d : Digest) :
    ∃ t' root, append hash t d = some (t', root) ∧ Covers hash t' (digests ++ [d]) ∧
      calculateMerkleLegacy hash (digests ++ [d]) = some root ∧ t'.getRoot = some root := by
  obtain ⟨extra, hactive⟩ := h.active
  obtain ⟨s, rest, hroot, hrun, hupdated⟩ :=
    @collapse_eq_some hash digests extra [] d _ false rfl
  refine ⟨⟨t.nodeCount + 1, s.updated ++ [s.top]⟩, s.top, ?_, ⟨?_, rest, ?_⟩, ?_, ?_⟩
  · rw [IncrementalMerkleLegacy.append, calculateMaxDepth_succ, Nat.add_sub_cancel, h.count,
      hactive, hrun]
    simp
  · simp [h.count]
  · simpa using hupdated
  · simpa [calculateMerkleLegacy] using hroot
  · simp [getRoot]

def appendAll (digests : List Digest) : Option IncrementalMerkleLegacy :=
  digests.foldlM (fun t d => (append hash t d).map Prod.fst) empty

theorem covers_appendAll (digests : List Digest) :
    ∃ t, appendAll hash digests = some t ∧ Covers hash t digests := by
  induction digests using List.reverseRecOn with
  | nil => exact ⟨empty, rfl, covers_empty hash⟩
  | append_singleton digests d ih =>
    obtain ⟨t, hrun, hcovers⟩ := ih
    obtain ⟨t', root, happend, hcovers', -⟩ := hcovers.append d
    refine ⟨t', ?_, hcovers'⟩
    rw [appendAll] at hrun ⊢
    simp [foldlM_append, hrun, happend]

/-- Every append of the run reads inside the active nodes, and the last returns the root. -/
theorem last_append_root_eq_calculate_merkle_legacy (earlier : List Digest) (last : Digest) :
    ∃ t t' root, appendAll hash earlier = some t ∧ append hash t last = some (t', root) ∧
      calculateMerkleLegacy hash (earlier ++ [last]) = some root ∧ t'.getRoot = some root := by
  obtain ⟨t, hrun, hcovers⟩ := covers_appendAll hash earlier
  obtain ⟨t', root, happend, -, hroot, hget⟩ := hcovers.append last
  exact ⟨t, t', root, hrun, happend, hroot, hget⟩

end IncrementalMerkleLegacy
end FlonCore
