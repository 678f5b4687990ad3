import FlonCore.ConfigParameters

/-!
# What packed parameters mean

A packed list of parameters has a meaning of its own, a list of parameters and
values. Unpacking into a configuration succeeds exactly on lists of distinct
allowed parameters, and then writes these values and no others; packing a list
of parameters gives bytes whose meaning is their values.
-/

namespace FlonCore
open Library List
open ChainConfigV1
open Parameter hiding id

/-- What a packed list of entries says, whatever the configuration. -/
def parseEntries : ℕ → List UInt8 → Option (List (Parameter × ℕ))
  | 0, _ => some []
  | length + 1, s => do
    let (id, s) ← readUnsigned s
    let p ← v1[id]?
    let (v, s) ← readLE p.width s
    let entries ← parseEntries length s
    return (p, v) :: entries

def parseParameters (s : List UInt8) : Option (List (Parameter × ℕ)) := do
  let (length, s) ← readUnsigned s
  parseEntries length s

def ChainConfigV1.writeAll (cfg : ChainConfigV1) (entries : List (Parameter × ℕ)) : ChainConfigV1 :=
  entries.foldl (fun cfg e => cfg.write e.2 e.1) cfg

variable {entries : List (Parameter × ℕ)} {p : Parameter}

theorem ChainConfigV1.read_writeAll_of_notMem (h : p ∉ entries.map Prod.fst) (cfg : ChainConfigV1) :
    (cfg.writeAll entries).read p = cfg.read p := by
  induction entries generalizing cfg with
  | nil => rfl
  | cons e entries ih =>
    rw [map_cons, mem_cons, not_or] at h
    exact (ih h.2 _).trans (cfg.read_write_ne e.2 h.1)

theorem ChainConfigV1.read_writeAll_of_mem
    {v : ℕ} (hnodup : (entries.map Prod.fst).Nodup) (hwidth : ∀ e ∈ entries, e.2 < 256 ^ e.1.width)
    (h : (p, v) ∈ entries) (cfg : ChainConfigV1) : (cfg.writeAll entries).read p = v := by
  induction entries generalizing cfg with
  | nil => cases h
  | cons e entries ih =>
    obtain ⟨hfirst, hrest⟩ := nodup_cons.mp hnodup
    obtain rfl | h := mem_cons.mp h
    · rw [writeAll, foldl_cons, ← writeAll, read_writeAll_of_notMem hfirst]
      exact cfg.read_write_self (hwidth _ mem_cons_self)
    · exact ih hrest (fun e he => hwidth e (mem_cons_of_mem _ he)) h _

-- one entry: the depth of inline actions is 4
example : parseParameters [1, 15, 4, 0] = some [(.maxInlineActionDepth, 4)] := by decide

theorem lt_of_parseEntries {length : ℕ} {s : List UInt8}
    (h : parseEntries length s = some entries) : ∀ e ∈ entries, e.2 < 256 ^ e.1.width := by
  induction length generalizing s entries with
  | zero =>
    cases h
    simp
  | succ length ih =>
    simp only [parseEntries, Option.bind_eq_bind, Option.bind_eq_some_iff, Option.pure_def,
      Option.some.injEq] at h
    obtain ⟨⟨id, s₁⟩, -, p, -, ⟨v, s₂⟩, hv, rest, hrest, rfl⟩ := h
    intro e he
    obtain rfl | he := mem_cons.mp he
    · exact readLE_lt hv
    · exact ih hrest e he

section Unpack
variable {allowed : ℕ → Bool} {cfg cfg' : ChainConfigV1}

theorem orRangeError_eq_ok {α : Type} {r : Option α} {a : α} :
    orRangeError r = .ok a ↔ r = some a := by
  cases r <;> simp [orRangeError]

theorem checkId_eq_ok {visited : List ℕ} {n : ℕ} :
    checkId visited n = .ok () ↔ n < v1.length ∧ n ∉ visited := by
  rw [checkId, seq_eq_ok, eosAssert_eq_ok, eosAssert_eq_ok, decide_eq_true_eq, decide_eq_true_eq]

theorem entry_eq_ok {n : ℕ} : entry allowed n = .ok p ↔ allowed n = true ∧ p.id = n := by
  rw [entry, seq_eq_ok, eosAssert_eq_ok, ← getElem?_v1]
  refine and_congr_right fun hallowed => ?_
  split_ifs with hlast
  · subst hlast
    rw [Except.ok.injEq, getElem?_v1]
    exact ⟨fun h => h ▸ rfl, fun h => (id_injective h).symm⟩
  · have hv1 : v1[n]? = v0[n]? := by
      rw [v1, getElem?_append]
      split_ifs with hn
      · rfl
      · have hlen : v0.length = maxActionReturnValueSize.id := rfl
        rw [getElem?_eq_none (by simp only [length_singleton]; omega), getElem?_eq_none (by omega)]
    rw [entryOf, seq_eq_ok, eosAssert_eq_ok, hv1]
    cases v0[n]? <;> simp [hallowed]

variable {s : List UInt8}

theorem unpackEntries_eq_ok {visited : List ℕ} {length : ℕ} :
    unpackEntries allowed visited length cfg s = .ok cfg' ↔
      ∃ entries, parseEntries length s = some entries ∧ (entries.map Prod.fst).Nodup ∧
        (∀ e ∈ entries, e.1.id ∉ visited ∧ allowed e.1.id = true) ∧
        cfg' = cfg.writeAll entries := by
  induction length generalizing visited cfg s with
  | zero =>
    constructor
    · intro h
      exact ⟨[], rfl, nodup_nil, by simp, (Except.ok.inj h).symm⟩
    · rintro ⟨entries, hparse, -, -, rfl⟩
      cases hparse
      rfl
  | succ length ih =>
    simp only [unpackEntries, bind_eq_ok, orRangeError_eq_ok, parseEntries, Option.bind_eq_bind,
      Option.bind_eq_some_iff, Option.pure_def, Option.some.injEq]
    constructor
    · rintro ⟨⟨n, s₁⟩, hid, _, hcheck, p, hp, ⟨v, s₂⟩, hv, hrest⟩
      obtain ⟨-, hnew⟩ := checkId_eq_ok.mp hcheck
      obtain ⟨hallowed, rfl⟩ := entry_eq_ok.mp hp
      obtain ⟨entries, hparse, hnodup, hall, rfl⟩ := ih.mp hrest
      refine ⟨(p, v) :: entries, ⟨(p.id, s₁), hid, p, getElem?_v1.mpr rfl, (v, s₂), hv,
        entries, hparse, rfl⟩, nodup_cons.mpr ⟨?_, hnodup⟩, ?_, rfl⟩
      · intro hmem
        obtain ⟨e, he, rfl⟩ := mem_map.mp hmem
        exact (hall e he).1 mem_cons_self
      · refine forall_mem_cons.mpr ⟨⟨hnew, hallowed⟩, fun e he => ?_⟩
        exact ⟨fun hmem => (hall e he).1 (mem_cons_of_mem _ hmem), (hall e he).2⟩
    · rintro ⟨-, ⟨⟨n, s₁⟩, hid, p, hp, ⟨v, s₂⟩, hv, entries, hparse, rfl⟩, hnodup, hall, rfl⟩
      obtain rfl := getElem?_v1.mp hp
      obtain ⟨⟨hnew, hallowed⟩, hrest⟩ := forall_mem_cons.mp hall
      obtain ⟨hfirst, hnodup⟩ := nodup_cons.mp hnodup
      refine ⟨(p.id, s₁), hid, (), checkId_eq_ok.mpr ⟨p.id_lt, hnew⟩, p,
        entry_eq_ok.mpr ⟨hallowed, rfl⟩, (v, s₂), hv, ih.mpr ⟨entries, hparse, hnodup, ?_, rfl⟩⟩
      intro e he
      refine ⟨fun hmem => ?_, (hrest e he).2⟩
      obtain heq | hmem := mem_cons.mp hmem
      · exact hfirst (mem_map.mpr ⟨e, he, id_injective heq⟩)
      · exact (hrest e he).1 hmem

theorem unpackRange_eq_ok : unpackRange allowed cfg s = .ok cfg' ↔
    ∃ entries, parseParameters s = some entries ∧ (entries.map Prod.fst).Nodup ∧
      (∀ e ∈ entries, allowed e.1.id = true) ∧ cfg' = cfg.writeAll entries := by
  simp only [unpackRange, bind_eq_ok, orRangeError_eq_ok, parseParameters, Option.bind_eq_bind,
    Option.bind_eq_some_iff, unpackEntries_eq_ok]
  constructor
  · rintro ⟨⟨length, s₁⟩, hlen, entries, hparse, hnodup, hall, rfl⟩
    exact ⟨entries, ⟨(length, s₁), hlen, hparse⟩, hnodup, fun e he => (hall e he).2, rfl⟩
  · rintro ⟨entries, ⟨⟨length, s₁⟩, hlen, hparse⟩, hnodup, hall, rfl⟩
    exact ⟨(length, s₁), hlen, entries, hparse, hnodup, fun e he => ⟨not_mem_nil, hall e he⟩, rfl⟩

theorem lt_of_parseParameters
    (h : parseParameters s = some entries) : ∀ e ∈ entries, e.2 < 256 ^ e.1.width := by
  obtain ⟨⟨length, s₁⟩, -, hparse⟩ := Option.bind_eq_some_iff.mp h
  exact lt_of_parseEntries hparse

theorem decodeParameters_eq_ok {readOnly : Bool} :
    decodeParameters allowed readOnly cfg s = .ok cfg' ↔
      readOnly = false ∧ unpackRange allowed cfg s = .ok cfg' ∧ cfg'.validate = .ok () := by
  rw [decodeParameters, seq_eq_ok, eosAssert_eq_ok, Bool.not_eq_true', bind_eq_ok]
  refine and_congr_right fun _ => ?_
  constructor
  · rintro ⟨c, hc, h⟩
    obtain ⟨hvalid, hcfg⟩ := seq_eq_ok.mp h
    cases hcfg
    exact ⟨hc, hvalid⟩
  · rintro ⟨hc, hvalid⟩
    exact ⟨cfg', hc, seq_eq_ok.mpr ⟨hvalid, rfl⟩⟩

end Unpack

section Pack
variable {allowed : ℕ → Bool} {ps : List Parameter}

theorem packEntries_of_nodup (cfg : ChainConfigV1) {visited : List ℕ}
    (hnodup : ps.Nodup) (hall : ∀ p ∈ ps, p.id ∉ visited ∧ allowed p.id = true) :
    packEntries allowed cfg visited (ps.map Parameter.id) =
      .ok (ps.flatMap fun p => packUnsigned p.id ++ packLE p.width (cfg.read p)) := by
  induction ps generalizing visited with
  | nil => rfl
  | cons p ps ih =>
    obtain ⟨hfirst, hnodup⟩ := nodup_cons.mp hnodup
    obtain ⟨⟨hnew, hallowed⟩, hrest⟩ := forall_mem_cons.mp hall
    have hps : ∀ q ∈ ps, q.id ∉ p.id :: visited ∧ allowed q.id = true := by
      intro q hq
      refine ⟨fun hmem => ?_, (hrest q hq).2⟩
      obtain heq | hmem := mem_cons.mp hmem
      · exact hfirst (id_injective heq ▸ hq)
      · exact (hrest q hq).1 hmem
    rw [map_cons, packEntries, checkId_eq_ok.mpr ⟨p.id_lt, hnew⟩,
      entry_eq_ok.mpr ⟨hallowed, rfl⟩, ih hnodup hps]
    rfl

theorem parseEntries_flatMap (cfg : ChainConfigV1) (ps : List Parameter) :
    parseEntries ps.length
      (ps.flatMap fun p => packUnsigned p.id ++ packLE p.width (cfg.read p)) =
      some (ps.map fun p => (p, cfg.read p)) := by
  induction ps with
  | nil => rfl
  | cons p ps ih =>
    have hid : p.id < 2 ^ 32 := p.id_lt.trans (by decide)
    rw [flatMap_cons, append_assoc, length_cons, parseEntries, readUnsigned_packUnsigned hid]
    simp only [Option.bind_eq_bind, Option.bind_some, getElem?_v1.mpr rfl,
      readLE_packLE (cfg.read_lt p), ih]
    rfl

theorem length_le_of_nodup (h : ps.Nodup) : ps.length ≤ 22 :=
  (subperm_of_subset h fun p _ => p.mem_v1).length_le

section
variable (cfg : ChainConfigV1) (hnodup : ps.Nodup) (hall : ∀ p ∈ ps, allowed p.id = true)
include cfg hnodup hall

theorem packRange_of_nodup :
    ∃ bytes, packRange allowed cfg (ps.map Parameter.id) = .ok bytes ∧
      parseParameters bytes = some (ps.map fun p => (p, cfg.read p)) := by
  have hlen : ps.length < 2 ^ 32 := (length_le_of_nodup hnodup).trans_lt (by decide)
  have hentries : packEntries allowed cfg [] (ps.map Parameter.id) =
      .ok (ps.flatMap fun p => packUnsigned p.id ++ packLE p.width (cfg.read p)) :=
    packEntries_of_nodup cfg hnodup fun p hp => ⟨not_mem_nil, hall p hp⟩
  refine ⟨packUnsigned (u32 (ps.map Parameter.id).length) ++
    ps.flatMap fun p => packUnsigned p.id ++ packLE p.width (cfg.read p), ?_, ?_⟩
  · rw [packRange, hentries]
    rfl
  · rw [parseParameters, length_map, u32_of_lt hlen, readUnsigned_packUnsigned hlen]
    exact parseEntries_flatMap cfg ps

theorem getParametersPacked_of_nodup {packedIds : List UInt8}
    (hids : unpackIdVector packedIds = .ok (ps.map Parameter.id)) :
    ∃ bytes, (∀ size, 0 < size → bytes.length ≤ size →
        getParametersPacked allowed cfg packedIds size = .ok (bytes.length, bytes)) ∧
      getParametersPacked allowed cfg packedIds 0 = .ok (bytes.length, []) ∧
      parseParameters bytes = some (ps.map fun p => (p, cfg.read p)) := by
  obtain ⟨bytes, hpack, hparse⟩ := packRange_of_nodup cfg hnodup hall
  refine ⟨bytes, fun size hpos hsize => ?_, ?_, hparse⟩
  · rw [getParametersPacked, hids]
    simp only [bind, Except.bind, hpack, hpos.ne', if_false, eosAssert, hsize, decide_true]
    rfl
  · rw [getParametersPacked, hids]
    simp only [bind, Except.bind, hpack, if_true]
    rfl

end

end Pack

section Set
variable {allowed : ℕ → Bool} {readOnly : Bool} {cfg cfg' : ChainConfigV1} {bytes : List UInt8}

theorem setParametersPacked_eq_ok :
    setParametersPacked allowed readOnly cfg bytes = (.ok (), cfg') ↔
      decodeParameters allowed readOnly cfg bytes = .ok cfg' := by
  unfold setParametersPacked
  cases decodeParameters allowed readOnly cfg bytes <;> simp

theorem setParametersPacked_error {e : Failure}
    (h : setParametersPacked allowed readOnly cfg bytes = (.error e, cfg')) : cfg' = cfg := by
  unfold setParametersPacked at h
  cases hdecode : decodeParameters allowed readOnly cfg bytes with
  | ok c => simp [hdecode] at h
  | error e' =>
    simp only [hdecode, Prod.mk.injEq] at h
    exact h.2.symm

theorem read_of_unpackRange
    (h : unpackRange allowed cfg bytes = .ok cfg') (hparse : parseParameters bytes = some entries) :
    (∀ p v, (p, v) ∈ entries → cfg'.read p = v) ∧
      ∀ p, p ∉ entries.map Prod.fst → cfg'.read p = cfg.read p := by
  obtain ⟨entries', hparse', hnodup, -, rfl⟩ := unpackRange_eq_ok.mp h
  rw [hparse, Option.some.injEq] at hparse'
  subst hparse'
  exact ⟨fun p v hmem => read_writeAll_of_mem hnodup (lt_of_parseParameters hparse) hmem cfg, fun p
      hnot => read_writeAll_of_notMem hnot cfg⟩

theorem unpackRange_packed (cfg other : ChainConfigV1) {ps : List Parameter} (hnodup : ps.Nodup)
    (hall : ∀ p ∈ ps, allowed p.id = true)
    (hparse : parseParameters bytes = some (ps.map fun p => (p, cfg.read p))) :
    ∃ decoded, unpackRange allowed other bytes = .ok decoded ∧
      (∀ p ∈ ps, decoded.read p = cfg.read p) ∧ ∀ p ∉ ps, decoded.read p = other.read p := by
  have hfst : (ps.map fun p => (p, cfg.read p)).map Prod.fst = ps := by
    rw [map_map]
    exact map_id ps
  have hrange : unpackRange allowed other bytes =
      .ok (other.writeAll (ps.map fun p => (p, cfg.read p))) := by
    refine unpackRange_eq_ok.mpr ⟨_, hparse, by rwa [hfst], fun e he => ?_, rfl⟩
    obtain ⟨p, hp, rfl⟩ := mem_map.mp he
    exact hall p hp
  obtain ⟨hlisted, hothers⟩ := read_of_unpackRange hrange hparse
  rw [hfst] at hothers
  exact ⟨_, hrange, fun p hp => hlisted p _ (mem_map.mpr ⟨p, hp, rfl⟩), hothers⟩

end Set

/-- Setting parameters writes the listed values and no others; what is got for a list of
allowed ids decodes to the values stored; and bytes that are not a list of distinct allowed
ids with values that validate leave the configuration as it was. -/
theorem set_parameters_packed_frame (actionReturnValue readOnly : Bool) (cfg : ChainConfigV1)
    (bytes : List UInt8) :
    let allowed := configEntryValidator actionReturnValue
    (∀ cfg', setParametersPacked allowed readOnly cfg bytes = (.ok (), cfg') ↔
      readOnly = false ∧ cfg'.validate = .ok () ∧
      ∃ entries, parseParameters bytes = some entries ∧ (entries.map Prod.fst).Nodup ∧
        (∀ e ∈ entries, allowed e.1.id = true) ∧ cfg' = cfg.writeAll entries) ∧
    (∀ cfg' entries, setParametersPacked allowed readOnly cfg bytes = (.ok (), cfg') →
      parseParameters bytes = some entries →
      (∀ p v, (p, v) ∈ entries → cfg'.read p = v) ∧
      ∀ p, p ∉ entries.map Prod.fst → cfg'.read p = cfg.read p) ∧
    (∀ ps : List Parameter, ps.Nodup → (∀ p ∈ ps, allowed p.id = true) →
      ∀ packedIds, unpackIdVector packedIds = .ok (ps.map Parameter.id) →
      ∃ packed, (∀ size, 0 < size → packed.length ≤ size →
          getParametersPacked allowed cfg packedIds size = .ok (packed.length, packed)) ∧
        getParametersPacked allowed cfg packedIds 0 = .ok (packed.length, []) ∧
        ∀ other, ∃ decoded, unpackRange allowed other packed = .ok decoded ∧
          (∀ p ∈ ps, decoded.read p = cfg.read p) ∧
          ∀ p ∉ ps, decoded.read p = other.read p) ∧
    ∀ e cfg', setParametersPacked allowed readOnly cfg bytes = (.error e, cfg') → cfg' = cfg := by
  intro allowed
  refine ⟨fun cfg' => ?_, fun cfg' entries hset hparse => ?_,
    fun ps hnodup hall packedIds hids => ?_, fun e cfg' => setParametersPacked_error⟩
  · rw [setParametersPacked_eq_ok, decodeParameters_eq_ok, unpackRange_eq_ok]
    exact and_congr_right fun _ => and_comm
  · rw [setParametersPacked_eq_ok, decodeParameters_eq_ok] at hset
    exact read_of_unpackRange hset.2.1 hparse
  · obtain ⟨packed, hget, hsize, hparse⟩ := getParametersPacked_of_nodup cfg hnodup hall hids
    exact ⟨packed, hget, hsize, fun other => unpackRange_packed cfg other hnodup hall hparse⟩

variable {cfg cfg' : ChainConfigV1}

theorem ChainConfigV1.operatorEq_iff : cfg.operatorEq cfg' = true ↔
    ∀ p, p ≠ .minTransactionCpuUsage → cfg.read p = cfg'.read p := by
  have htied : ∀ p : Parameter, p ∈ tiedV0 ↔
      p ≠ .minTransactionCpuUsage ∧ p ≠ .maxActionReturnValueSize := by
    intro p
    cases p <;> decide
  rw [operatorEq, Bool.and_eq_true, beq_iff_eq, beq_iff_eq, map_inj_left]
  constructor
  · rintro ⟨hsize, hall⟩ p hp
    by_cases hlast : p = .maxActionReturnValueSize
    · rwa [hlast]
    · exact hall p ((htied p).mpr ⟨hp, hlast⟩)
  · intro hall
    exact ⟨hall _ (by decide), fun p hp => hall p ((htied p).mp hp).1⟩

theorem read_eq_of_flatMap {ps : List Parameter}
    (h : (ps.flatMap fun p => packLE p.width (cfg.read p)) =
      ps.flatMap fun p => packLE p.width (cfg'.read p)) : ∀ p ∈ ps, cfg.read p = cfg'.read p := by
  induction ps with
  | nil => simp
  | cons p ps ih =>
    rw [flatMap_cons, flatMap_cons] at h
    have hread := congrArg (readLE p.width) h
    rw [readLE_packLE (cfg.read_lt p), readLE_packLE (cfg'.read_lt p), Option.some.injEq,
      Prod.mk.injEq] at hread
    exact forall_mem_cons.mpr ⟨hread.1, ih hread.2⟩

theorem ChainConfigV1.pack_eq_iff : cfg.pack = cfg'.pack ↔ ∀ p, cfg.read p = cfg'.read p := by
  constructor
  · intro h p
    exact read_eq_of_flatMap h p p.mem_v1
  · intro h
    unfold pack
    rw [show cfg.read = cfg'.read from funext h]

/-- Comparing a configuration with the one that packed parameters lead to is exact, except
where they change the minimal CPU usage of a transaction and nothing else. -/
theorem operatorEq_exact_iff {actionReturnValue readOnly : Bool} {bytes : List UInt8}
    {entries : List (Parameter × ℕ)}
    (hset : setParametersPacked (configEntryValidator actionReturnValue) readOnly cfg bytes =
      (.ok (), cfg')) (hparse : parseParameters bytes = some entries) :
    (cfg.operatorEq cfg' = true ↔ cfg.pack = cfg'.pack) ↔
      ((∃ v, (.minTransactionCpuUsage, v) ∈ entries ∧ v ≠ cfg.read .minTransactionCpuUsage) →
        ∃ e ∈ entries, e.1 ≠ .minTransactionCpuUsage ∧ e.2 ≠ cfg.read e.1) := by
  rw [setParametersPacked_eq_ok, decodeParameters_eq_ok] at hset
  obtain ⟨hlisted, hothers⟩ := read_of_unpackRange hset.2.1 hparse
  rw [operatorEq_iff, pack_eq_iff]
  constructor
  · rintro hexact ⟨v, hv, hchanged⟩
    by_contra hsame
    push Not at hsame
    refine hchanged ((hlisted _ v hv).symm.trans (hexact.mp (fun p hp => ?_) _).symm)
    by_cases hmem : p ∈ entries.map Prod.fst
    · obtain ⟨e, he, rfl⟩ := mem_map.mp hmem
      rw [hlisted e.1 e.2 he, hsame e he hp]
    · exact (hothers p hmem).symm
  · intro hnotices
    refine ⟨fun hall p => ?_, fun hall p _ => hall p⟩
    by_cases hp : p = .minTransactionCpuUsage
    · subst hp
      by_contra hne
      by_cases hmem : .minTransactionCpuUsage ∈ entries.map Prod.fst
      · obtain ⟨⟨-, v⟩, he, rfl⟩ := mem_map.mp hmem
        have hv := hlisted _ v he
        obtain ⟨e, he', hother, hdiff⟩ := hnotices ⟨v, he, fun h => hne (h.symm.trans hv.symm)⟩
        exact hdiff ((hlisted e.1 e.2 he').symm.trans (hall e.1 hother).symm)
      · exact hne (hothers _ hmem).symm
    · exact hall p hp

def plainConfig : ChainConfigV1 where
  toChainConfig := ⟨1048576, 1000, 524288, 12, 20, 100, 200000, 1000, 150000, 100, 6, 1, 1, 1, 256⟩
  netUsageLeeway := 500
  maxTransactionLifetime := 3600
  deferredTrxExpirationWindow := 600
  maxTransactionDelay := 3888000
  maxInlineActionSize := 4096
  maxInlineActionDepth := 4
  maxTotalRamUsage := 1000000

-- the list has one entry, parameter 10 with the value 101
theorem operatorEq_misses_minimum : ∃ cfg' : ChainConfigV1,
    setParametersPacked (configEntryValidator true) false plainConfig [1, 10, 101, 0, 0, 0] =
      (.ok (), cfg') ∧
    plainConfig.operatorEq cfg' = true ∧ plainConfig.pack ≠ cfg'.pack := by
  refine ⟨{ plainConfig with minTransactionCpuUsage := 101 }, ?_, ?_, ?_⟩ <;> decide +kernel

-- the other parameter that the list changes is noticed
theorem operatorEq_exact_listed :
    let cfg' := { plainConfig with minTransactionCpuUsage := 101, maxAuthorityDepth := 7 }
    setParametersPacked (configEntryValidator true) false plainConfig
      [2, 10, 101, 0, 0, 0, 16, 7, 0] = (.ok (), cfg') ∧
    (plainConfig.operatorEq cfg' = true ↔ plainConfig.pack = cfg'.pack) := by
  have hset : setParametersPacked (configEntryValidator true) false plainConfig
      [2, 10, 101, 0, 0, 0, 16, 7, 0] =
      (.ok (), { plainConfig with minTransactionCpuUsage := 101, maxAuthorityDepth := 7 }) := by
    decide +kernel
  exact ⟨hset, (operatorEq_exact_iff hset (by decide +kernel :
    parseParameters [2, 10, 101, 0, 0, 0, 16, 7, 0] =
      some [(.minTransactionCpuUsage, 101), (.maxAuthorityDepth, 7)])).mpr fun _ =>
    ⟨(.maxAuthorityDepth, 7), by decide, by decide, by decide⟩⟩

end FlonCore
