import FlonCore.BlockHeader

/-!
# Signatures of a block

A block is signed by the keys of its producer's signing authority. The check
counts the signatures, collects the recovered keys in a set, counts the keys of
the authority among them and adds their weights until the threshold is met.
Recovery of a key from a signature is a parameter and may throw.
-/

namespace FlonCore

open KeyWeight List UInt32

namespace BlockSigningAuthority
variable (a : BlockSigningAuthority)

def addWeight (totalWeight : UInt32) (weight : UInt16) : UInt32 :=
  if totalWeight < a.threshold then
    let room := 4294967295 - totalWeight
    totalWeight + if weight.toUInt32 < room then weight.toUInt32 else room
  else totalWeight

/-- One round of the loop over the keys of the authority, on the number of relevant keys and
the total weight. -/
def countKey (presented : List String) (acc : ℕ × UInt32) (kw : KeyWeight String) : ℕ × UInt32 :=
  if kw.key ∈ presented then
    (acc.1 + 1, a.addWeight acc.2 kw.weight)
  else acc

def keysSatisfyAndRelevant (presented : List String) : Bool × ℕ :=
  let (numRelevantKeys, totalWeight) := a.keys.foldl (a.countKey presented) (0, 0)
  (a.threshold ≤ totalWeight, numRelevantKeys)

def weightOf (key : String) : ℕ :=
  ((a.keys.find? fun kw => kw.key = key).map fun kw => kw.weight.toNat).getD 0

end BlockSigningAuthority

section Verify
variable (recover : String → BlockId → Except Failure String) (blockId : BlockId)

def emplaceKey (keys : List String) (signature : String) : Except Failure (List String) := do
  let key ← recover signature blockId
  eosAssert (key ∉ keys) .wrongSigningKey "block signed by same key twice: ${key}"
  return keys ++ [key]

def verifySignee (producerSignature : String) (additionalSignatures : List String)
    (authority : BlockSigningAuthority) : Except Failure Unit := do
  eosAssert (1 + additionalSignatures.length ≤ authority.keys.length) .wrongSigningKey
    ("number of block signatures (${num_block_signatures}) exceeds number of keys " ++
      "(${num_keys}) in block signing authority: ${authority}")
  let key ← recover producerSignature blockId
  let keys ← additionalSignatures.foldlM (emplaceKey recover blockId) [key]
  eosAssert ((authority.keysSatisfyAndRelevant keys).2 = keys.length) .wrongSigningKey
    "block signed by unexpected key: ${signing_keys}, expected: ${authority}. ${c} != ${s}"
  eosAssert (authority.keysSatisfyAndRelevant keys).1 .wrongSigningKey
    ("block signatures ${signing_keys} do not satisfy the block signing authority: " ++
      "${authority}")

end Verify

namespace BlockSigningAuthority
variable {a : BlockSigningAuthority} {presented : List String}

def Tracks (a : BlockSigningAuthority) (total : UInt32) (sum : ℕ) : Prop :=
  (total < a.threshold ∧ total.toNat = sum) ∨ (a.threshold ≤ total ∧ a.threshold.toNat ≤ sum)

variable {total : UInt32}

theorem Tracks.threshold_le {sum : ℕ} (h : a.Tracks total sum) :
    a.threshold ≤ total ↔ a.threshold.toNat ≤ sum := by
  rw [Tracks, lt_iff_toNat_lt, le_iff_toNat_le] at h
  rw [le_iff_toNat_le]
  omega

theorem tracks_zero (a : BlockSigningAuthority) : a.Tracks 0 0 := by
  rw [Tracks, lt_iff_toNat_lt, le_iff_toNat_le]
  have hzero : (0 : UInt32).toNat = 0 := rfl
  omega

theorem Tracks.addWeight {sum : ℕ} (h : a.Tracks total sum) (w : UInt16) :
    a.Tracks (a.addWeight total w) (sum + w.toNat) := by
  have ht := a.threshold.toNat_lt
  have hroom : (4294967295 - total).toNat = 4294967295 - total.toNat := by
    have hle : total ≤ 4294967295 := le_iff_toNat_le.mpr (by
      have := total.toNat_lt
      change total.toNat ≤ 4294967295
      omega)
    rw [UInt32.toNat_sub_of_le _ _ hle]
    rfl
  unfold BlockSigningAuthority.addWeight
  rw [Tracks, lt_iff_toNat_lt, le_iff_toNat_le] at h ⊢
  simp only [lt_iff_toNat_lt]
  split_ifs with hbelow hfits
  · rw [UInt16.toNat_toUInt32, hroom] at hfits
    rw [UInt32.toNat_add, UInt16.toNat_toUInt32]
    omega
  · rw [UInt16.toNat_toUInt32, hroom] at hfits
    rw [UInt32.toNat_add, hroom]
    omega
  · omega

theorem foldl_countKey (presented : List String) (keys : List (KeyWeight String)) {n sum : ℕ}
    (h : a.Tracks total sum) :
    (keys.foldl (a.countKey presented) (n, total)).1 =
        n + (keys.filter fun kw => kw.key ∈ presented).length ∧
      a.Tracks (keys.foldl (a.countKey presented) (n, total)).2
        (sum + ((keys.filter fun kw => kw.key ∈ presented).map fun kw => kw.weight.toNat).sum) := by
  induction keys generalizing n total sum with
  | nil => exact ⟨rfl, h⟩
  | cons kw keys ih =>
    rw [foldl_cons, countKey]
    by_cases hmem : kw.key ∈ presented
    · rw [if_pos hmem, filter_cons_of_pos (by simpa using hmem)]
      obtain ⟨hcount, htracks⟩ := ih (h.addWeight kw.weight)
      refine ⟨hcount.trans ?_, ?_⟩
      · rw [length_cons]
        omega
      · rwa [map_cons, sum_cons, ← Nat.add_assoc]
    · rw [if_neg hmem, filter_cons_of_neg (by simpa using hmem)]
      exact ih h

def relevant (a : BlockSigningAuthority) (presented : List String) : List (KeyWeight String) :=
  a.keys.filter fun kw => kw.key ∈ presented

theorem keysSatisfyAndRelevant_eq (a : BlockSigningAuthority) (presented : List String) :
    a.keysSatisfyAndRelevant presented =
      (decide (a.threshold.toNat ≤
        ((a.relevant presented).map fun kw => kw.weight.toNat).sum),
      (a.relevant presented).length) := by
  obtain ⟨hcount, htracks⟩ := foldl_countKey presented a.keys a.tracks_zero
  rw [Nat.zero_add] at hcount htracks
  exact Prod.ext (decide_eq_decide.mpr htracks.threshold_le) hcount

section Distinct
variable (hkeys : (a.keys.map key).Nodup)
include hkeys

theorem nodup_relevant (presented : List String) : ((a.relevant presented).map key).Nodup :=
  hkeys.sublist (filter_sublist.map _)

theorem weightOf_key {kw : KeyWeight String} (hkw : kw ∈ a.keys) :
    a.weightOf kw.key = kw.weight.toNat := by
  have hsome : (a.keys.find? fun kw' => decide (kw'.key = kw.key)).isSome :=
    find?_isSome.mpr ⟨kw, hkw, by simp⟩
  obtain ⟨kw', hfind⟩ := Option.isSome_iff_exists.mp hsome
  have heq : kw' = kw := inj_on_of_nodup_map hkeys (mem_of_find?_eq_some hfind) hkw
    (by simpa using find?_some hfind)
  rw [weightOf, hfind, heq]
  rfl

theorem length_relevant_iff : (a.relevant presented).length = presented.length ↔
    ((a.relevant presented).map key).Perm presented := by
  have hsub : (a.relevant presented).map key ⊆ presented := by
    intro key hkey
    obtain ⟨kw, hkw, rfl⟩ := mem_map.mp hkey
    simpa using (mem_filter.mp hkw).2
  constructor
  · intro hlen
    refine (subperm_of_subset (nodup_relevant hkeys presented) hsub).perm_of_length_le ?_
    rw [length_map, hlen]
  · intro hperm
    simpa using hperm.length_eq

theorem relevant_perm_iff (hpresented : presented.Nodup) :
    ((a.relevant presented).map KeyWeight.key).Perm presented ↔
      ∀ key ∈ presented, key ∈ a.keys.map KeyWeight.key := by
  have hmem : ∀ key, key ∈ (a.relevant presented).map KeyWeight.key ↔
      key ∈ a.keys.map KeyWeight.key ∧ key ∈ presented := by
    intro key
    simp only [relevant, mem_map, mem_filter, decide_eq_true_eq]
    constructor
    · rintro ⟨kw, ⟨hkw, hp⟩, rfl⟩
      exact ⟨⟨kw, hkw, rfl⟩, hp⟩
    · rintro ⟨⟨kw, hkw, rfl⟩, hp⟩
      exact ⟨kw, ⟨hkw, hp⟩, rfl⟩
  rw [perm_ext_iff_of_nodup (nodup_relevant hkeys presented) hpresented]
  constructor
  · intro h key hkey
    exact ((hmem key).mp ((h key).mpr hkey)).1
  · intro h key
    rw [hmem]
    exact ⟨And.right, fun hkey => ⟨h key hkey, hkey⟩⟩

theorem sum_relevant (hperm : ((a.relevant presented).map key).Perm presented) :
    ((a.relevant presented).map fun kw => kw.weight.toNat).sum =
      (presented.map a.weightOf).sum := by
  rw [← (hperm.map a.weightOf).sum_eq, map_map]
  refine congrArg List.sum (map_congr_left fun kw hkw => ?_)
  exact (weightOf_key hkeys (mem_filter.mp hkw).1).symm

theorem keysSatisfyAndRelevant_iff (hpresented : presented.Nodup) :
    ((a.keysSatisfyAndRelevant presented).2 = presented.length ∧
      (a.keysSatisfyAndRelevant presented).1 = true) ↔
    (∀ key ∈ presented, key ∈ a.keys.map KeyWeight.key) ∧
      a.threshold.toNat ≤ (presented.map a.weightOf).sum := by
  rw [keysSatisfyAndRelevant_eq, length_relevant_iff hkeys, decide_eq_true_eq,
    ← relevant_perm_iff hkeys hpresented]
  refine and_congr_right fun hperm => ?_
  rw [sum_relevant hkeys hperm]

end Distinct
end BlockSigningAuthority

variable {recover : String → BlockId → Except Failure String} {blockId : BlockId}

theorem foldlM_emplaceKey {signatures keys seen : List String} (hseen : seen.Nodup) :
    signatures.foldlM (emplaceKey recover blockId) seen = .ok keys ↔
      ∃ new, signatures.mapM (recover · blockId) = .ok new ∧ keys = seen ++ new ∧
        keys.Nodup := by
  induction signatures generalizing seen with
  | nil =>
    simp only [foldlM_nil, mapM_nil, pure, Except.pure, Except.ok.injEq]
    constructor
    · rintro rfl
      exact ⟨[], rfl, by simp, hseen⟩
    · rintro ⟨new, rfl, rfl, -⟩
      simp
  | cons signature signatures ih =>
    simp only [foldlM_cons, mapM_cons, bind_eq_ok, emplaceKey, eosAssert_eq_ok,
      pure, Except.pure, Except.ok.injEq, decide_eq_true_eq]
    constructor
    · rintro ⟨-, ⟨key, hkey, -, hnew, rfl⟩, hrest⟩
      have hnodup : (seen ++ [key]).Nodup :=
        List.Nodup.append hseen (nodup_singleton key) (by simpa using hnew)
      obtain ⟨new, hmap, rfl, hall⟩ := (ih hnodup).mp hrest
      exact ⟨key :: new, ⟨key, hkey, new, hmap, rfl⟩, by simp, hall⟩
    · rintro ⟨-, ⟨key, hkey, new, hmap, rfl⟩, rfl, hall⟩
      rw [append_cons] at hall
      have hnodup : (seen ++ [key]).Nodup := hall.sublist (sublist_append_left _ _)
      have hnew : key ∉ seen := fun hmem =>
        (nodup_append.mp hnodup).2.2 key hmem key (by simp) rfl
      refine ⟨seen ++ [key], ⟨key, hkey, (), hnew, rfl⟩, (ih hnodup).mpr ⟨new, hmap, ?_⟩⟩
      rw [append_cons]
      exact ⟨rfl, hall⟩

/-- A block is accepted exactly if the keys recovered from its signatures are distinct keys of
the authority whose weights reach the threshold. -/
theorem verify_signee_iff {producerSignature : String} {additionalSignatures : List String}
    {authority : BlockSigningAuthority}
    (hkeys : (authority.keys.map KeyWeight.key).Nodup) :
    verifySignee recover blockId producerSignature additionalSignatures authority = .ok () ↔
      ∃ keys, (producerSignature :: additionalSignatures).mapM (recover · blockId) = .ok keys ∧
        keys.Nodup ∧ (∀ key ∈ keys, key ∈ authority.keys.map KeyWeight.key) ∧
        authority.threshold.toNat ≤ (keys.map authority.weightOf).sum := by
  constructor
  · intro h
    obtain ⟨-, h⟩ := seq_eq_ok.mp h
    obtain ⟨key, hkey, h⟩ := bind_eq_ok.mp h
    obtain ⟨keys, hloop, h⟩ := bind_eq_ok.mp h
    obtain ⟨new, hmap, rfl, hnodup⟩ := (foldlM_emplaceKey (nodup_singleton key)).mp hloop
    rw [seq_eq_ok, eosAssert_eq_ok, eosAssert_eq_ok, decide_eq_true_eq] at h
    refine ⟨key :: new, ?_, hnodup,
      (BlockSigningAuthority.keysSatisfyAndRelevant_iff hkeys hnodup).mp h⟩
    rw [mapM_cons, hkey, hmap]
    rfl
  · rintro ⟨keys, hmap, hnodup, hchecks⟩
    have hlen := length_of_mapM_eq_ok hmap
    rw [mapM_cons] at hmap
    obtain ⟨key, hkey, hrest⟩ := bind_eq_ok.mp hmap
    obtain ⟨new, hnew, hcons⟩ := bind_eq_ok.mp hrest
    cases hcons
    -- distinct keys of the authority are at most as many as it has
    have hle := (subperm_of_subset hnodup hchecks.1).length_le
    rw [hlen, length_map, length_cons, Nat.add_comm] at hle
    refine seq_eq_ok.mpr ⟨eosAssert_eq_ok.mpr (decide_eq_true hle), ?_⟩
    refine bind_eq_ok.mpr ⟨key, hkey, bind_eq_ok.mpr ⟨key :: new, ?_, ?_⟩⟩
    · exact (foldlM_emplaceKey (nodup_singleton key)).mpr ⟨new, hnew, rfl, hnodup⟩
    · rw [seq_eq_ok, eosAssert_eq_ok, eosAssert_eq_ok, decide_eq_true_eq]
      exact (BlockSigningAuthority.keysSatisfyAndRelevant_iff hkeys hnodup).mpr hchecks

theorem verify_signee_two_of_three :
    verifySignee (fun signature _ => .ok signature) 0 "b" ["a"]
      ⟨70000, [⟨"a", 65535⟩, ⟨"b", 65535⟩, ⟨"c", 1⟩]⟩ = .ok () :=
  (verify_signee_iff (by decide)).mpr ⟨["b", "a"], rfl, by decide, by decide, by decide⟩

end FlonCore
