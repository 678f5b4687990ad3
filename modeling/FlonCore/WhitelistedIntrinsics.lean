import FlonCore.Library.FlatSet
import FlonCore.Types

/-!
# The whitelist of intrinsics

Names are kept under their hashes in a multimap that is a vector ordered by hash. A name is found
among the entries with its hash by comparing bytes. The vector behaves as a set of names for every
hash function.
-/

namespace FlonCore.WhitelistedIntrinsics
open Library List

/-- The bytes of a string. -/
abbrev Name := List UInt8

def memcmp : Name → Name → Ordering
  | a :: s, b :: t => (Ord.compare a b).then (memcmp s t)
  | _, _ => .eq

/-- `shared_string::compare`: the bytes that both have, then the lengths. -/
def compare (s t : Name) : Ordering := (memcmp s t).then (Ord.compare s.length t.length)

abbrev Whitelist := List (UInt64 × Name)

/-- An iterator is the part of the vector from its position on. -/
def findIntrinsicHelper (h : UInt64) (name : Name) : Whitelist → Option Whitelist
  | [] => none
  | e :: rest =>
    if e.1 = h then
      if compare e.2 name = .eq then some (e :: rest) else findIntrinsicHelper h name rest
    else none

def findIntrinsic (l : Whitelist) (h : UInt64) (name : Name) : Option Whitelist :=
  findIntrinsicHelper h name (l.dropWhile (·.1 < h))

variable (hash : Name → UInt64) (l : Whitelist) (name : Name)

def isIntrinsicWhitelisted : Bool :=
  (findIntrinsicHelper (hash name) name (l.dropWhile (·.1 < hash name))).isSome

/-- `emplace` of the multimap, behind the entries with the same hash. -/
def emplace : Whitelist :=
  l.takeWhile (·.1 ≤ hash name) ++ (hash name, name) :: l.dropWhile (·.1 ≤ hash name)

def addIntrinsicToWhitelist : Except Failure Whitelist := do
  eosAssert (findIntrinsic l (hash name) name).isNone .databaseException
    "cannot add intrinsic '${name}' since it already exists in the whitelist"
  return emplace hash l name

def removeIntrinsicFromWhitelist : Except Failure Whitelist :=
  match findIntrinsic l (hash name) name with
  | none => .error ⟨.databaseException,
      "cannot remove intrinsic '${name}' since it does not exist in the whitelist"⟩
  | some itr => .ok (l.take (l.length - itr.length) ++ itr.tail)

def resetIntrinsicWhitelist (s : FlatSet Name) : Whitelist := s.toList.foldl (emplace hash) []

def convertIntrinsicWhitelistToSet : Finset Name := l.foldl (fun s p => insert p.2 s) ∅

inductive Call
  | add (name : Name)
  | remove (name : Name)
  | reset (s : FlatSet Name)

def call : Call → Except Failure Whitelist
  | .add name => addIntrinsicToWhitelist hash l name
  | .remove name => removeIntrinsicFromWhitelist hash l name
  | .reset s => .ok (resetIntrinsicWhitelist hash s)

/-- A call that throws changes nothing. -/
def step (c : Call) : Whitelist :=
  match call hash l c with
  | .ok l' => l'
  | .error _ => l

def Call.apply (S : Set Name) : Call → Set Name
  | .add name => insert name S
  | .remove name => S \ {name}
  | .reset s => {n | n ∈ s}

structure Refines (S : Set Name) : Prop where
  sorted : l.Pairwise (·.1 ≤ ·.1)
  hashed : ∀ e ∈ l, e.1 = hash e.2
  nodup : (l.map (·.2)).Nodup
  mem : ∀ n, n ∈ l.map (·.2) ↔ n ∈ S

variable {hash l name} {h : UInt64} {S : Set Name}

theorem compare_eq {s t : Name} : compare s t = .eq ↔ s = t := by
  unfold compare
  rw [Ordering.then_eq_eq, Nat.compare_eq_eq]
  refine ⟨?_, ?_⟩
  · rintro ⟨hbytes, hlength⟩
    induction s generalizing t with
    | nil => exact (length_eq_zero_iff.mp hlength.symm).symm
    | cons a s ih =>
      cases t with
      | nil => cases hlength
      | cons b t =>
        rw [memcmp, Ordering.then_eq_eq] at hbytes
        rw [Std.compare_eq_iff_eq.mp hbytes.1, ih hbytes.2 (Nat.succ.inj hlength)]
  · rintro rfl
    refine ⟨?_, rfl⟩
    induction s with
    | nil => rfl
    | cons a s ih => rw [memcmp, ih, Std.compare_self]; rfl

theorem findIntrinsicHelper_cases (name : Name) (hsorted : l.Pairwise (·.1 ≤ ·.1))
    (hle : ∀ e ∈ l, h ≤ e.1) : findIntrinsicHelper h name l = none ∧ (h, name) ∉ l ∨ ∃ before rest,
      l = before ++ (h, name) :: rest ∧
      findIntrinsicHelper h name l = some ((h, name) :: rest) := by
  induction l with
  | nil => exact .inl ⟨rfl, not_mem_nil⟩
  | cons e l ih =>
    obtain ⟨hfirst, hsorted⟩ := pairwise_cons.mp hsorted
    rw [findIntrinsicHelper]
    split_ifs with hkey hname
    · rw [compare_eq] at hname
      obtain rfl : e = (h, name) := Prod.ext hkey hname
      exact .inr ⟨[], l, rfl, rfl⟩
    · obtain ⟨hnone, hnot⟩ | ⟨before, rest, rfl, hsome⟩ :=
        ih hsorted fun x hx => hle x (mem_cons_of_mem e hx)
      · refine .inl ⟨hnone, fun hmem => ?_⟩
        rcases mem_cons.mp hmem with rfl | hmem
        · exact hname (compare_eq.mpr rfl)
        · exact hnot hmem
      · exact .inr ⟨e :: before, rest, rfl, hsome⟩
    · refine .inl ⟨rfl, fun hmem => hkey ?_⟩
      rcases mem_cons.mp hmem with rfl | hmem
      · rfl
      · exact UInt64.le_antisymm (hfirst _ hmem) (hle e mem_cons_self)

theorem not_of_mem_dropWhile {p : UInt64 → Prop} [DecidablePred p]
    (hp : ∀ {a b}, a ≤ b → p b → p a) (hsorted : l.Pairwise (·.1 ≤ ·.1))
    {e : UInt64 × Name} (he : e ∈ l.dropWhile (p ·.1)) : ¬ p e.1 := by
  induction l with
  | nil => cases he
  | cons x l ih =>
    obtain ⟨hfirst, hsorted⟩ := pairwise_cons.mp hsorted
    rw [dropWhile_cons] at he
    split_ifs at he with hx
    · exact ih hsorted he
    · rw [decide_eq_true_eq] at hx
      rcases mem_cons.mp he with rfl | he
      · exact hx
      · exact fun hpe => hx (hp (hfirst e he) hpe)

/-- A name is found at its entry, or it is not in the set. -/
theorem Refines.find (hr : Refines hash l S) (name : Name) :
    findIntrinsic l (hash name) name = none ∧ name ∉ S ∨ ∃ before rest,
      l = before ++ (hash name, name) :: rest ∧ name ∈ S ∧
      findIntrinsic l (hash name) name = some ((hash name, name) :: rest) := by
  have hsplit := takeWhile_append_dropWhile (p := fun e => decide (e.1 < hash name)) (l := l)
  obtain ⟨hnone, hnot⟩ | ⟨before, rest, heq, hsome⟩ := findIntrinsicHelper_cases name
    (hr.sorted.sublist (dropWhile_sublist _)) fun e he =>
      UInt64.not_lt.mp (not_of_mem_dropWhile UInt64.lt_of_le_of_lt hr.sorted he)
  · refine .inl ⟨hnone, fun hmem => ?_⟩
    obtain ⟨e, he, rfl⟩ := mem_map.mp ((hr.mem name).mpr hmem)
    have hhash := hr.hashed e he
    rw [← hsplit] at he
    rcases mem_append.mp he with he | he
    · exact absurd (hhash ▸ mem_takeWhile_imp he) (by simp)
    · exact hnot (hhash ▸ he)
  · rw [heq, ← append_assoc] at hsplit
    have hmem : (hash name, name) ∈ l := by
      rw [← hsplit]
      simp
    exact .inr ⟨_, rest, hsplit.symm, (hr.mem name).mp (mem_map_of_mem hmem), hsome⟩

theorem Refines.emplaced (hr : Refines hash l S) (hname : name ∉ S) :
    Refines hash (emplace hash l name) (insert name S) := by
  have hperm : (emplace hash l name).Perm ((hash name, name) :: l) := by
    refine perm_middle.trans (.of_eq ?_)
    rw [takeWhile_append_dropWhile]
  refine ⟨?_, fun e he => ?_, ?_, fun n => ?_⟩
  · have hsorted := hr.sorted
    rw [← takeWhile_append_dropWhile (p := fun e => decide (e.1 ≤ hash name)) (l := l),
      pairwise_append] at hsorted
    obtain ⟨hlow, hhigh, hcross⟩ := hsorted
    have hafter : ∀ e ∈ l.dropWhile (fun e => decide (e.1 ≤ hash name)), hash name ≤ e.1 := by
      intro e he
      have hnot := not_of_mem_dropWhile (p := (· ≤ hash name)) UInt64.le_trans hr.sorted he
      exact UInt64.le_of_lt (UInt64.not_le.mp hnot)
    refine pairwise_append.mpr ⟨hlow, pairwise_cons.mpr ⟨hafter, hhigh⟩, ?_⟩
    intro a ha b hb
    rcases mem_cons.mp hb with rfl | hb
    · simpa using mem_takeWhile_imp ha
    · exact hcross a ha b hb
  · rcases mem_cons.mp (hperm.mem_iff.mp he) with rfl | he
    · rfl
    · exact hr.hashed e he
  · exact (hperm.map _).nodup_iff.mpr (hr.nodup.cons fun hmem => hname ((hr.mem name).mp hmem))
  · rw [Set.mem_insert_iff, ← hr.mem, (hperm.map _).mem_iff, map_cons, mem_cons]

theorem Refines.emplacedAll {names : List Name} (hr : Refines hash l S) (hnodup : names.Nodup)
    (hnew : ∀ n ∈ names, n ∉ S) :
    Refines hash (names.foldl (emplace hash) l) (S ∪ {n | n ∈ names}) := by
  induction names generalizing l S with
  | nil => simpa using hr
  | cons name names ih =>
    obtain ⟨hname, hnodup⟩ := nodup_cons.mp hnodup
    have hrest := ih (hr.emplaced (hnew name mem_cons_self)) hnodup fun n hn => by
      rintro (rfl | hS)
      · exact hname hn
      · exact hnew n (mem_cons_of_mem name hn) hS
    have hunion : insert name S ∪ {n | n ∈ names} = S ∪ {n | n ∈ name :: names} := by
      ext n
      simp [or_left_comm, or_assoc]
    exact hunion ▸ hrest

theorem Refines.add (hr : Refines hash l S) (name : Name) :
    (∃ e, addIntrinsicToWhitelist hash l name = .error e) ∧ name ∈ S ∨ ∃ l',
      addIntrinsicToWhitelist hash l name = .ok l' ∧ name ∉ S ∧
      Refines hash l' (insert name S) := by
  unfold addIntrinsicToWhitelist
  obtain ⟨hnone, hnot⟩ | ⟨_, rest, -, hmem, hsome⟩ := hr.find name
  · rw [hnone]
    exact .inr ⟨emplace hash l name, rfl, hnot, hr.emplaced hnot⟩
  · rw [hsome]
    exact .inl ⟨⟨_, rfl⟩, hmem⟩

theorem Refines.remove (hr : Refines hash l S) (name : Name) :
    (∃ e, removeIntrinsicFromWhitelist hash l name = .error e) ∧ name ∉ S ∨ ∃ l',
      removeIntrinsicFromWhitelist hash l name = .ok l' ∧ name ∈ S ∧
      Refines hash l' (S \ {name}) := by
  unfold removeIntrinsicFromWhitelist
  obtain ⟨hnone, hnot⟩ | ⟨before, rest, heq, hmem, hsome⟩ := hr.find name
  · rw [hnone]
    exact .inl ⟨⟨_, rfl⟩, hnot⟩
  · have hperm : l.Perm ((hash name, name) :: (before ++ rest)) := heq ▸ perm_middle
    have hsub : (before ++ rest).Sublist l := heq ▸ (sublist_cons_self _ _).append_left _
    have hnodup := (hperm.map (·.2)).nodup_iff.mp hr.nodup
    rw [hsome]
    refine .inr ⟨before ++ rest, by simp [heq], hmem, hr.sorted.sublist hsub,
      fun e he => hr.hashed e (hsub.subset he), hr.nodup.sublist (hsub.map _), fun n => ?_⟩
    rw [Set.mem_sdiff, ← hr.mem, (hperm.map _).mem_iff, map_cons, mem_cons,
      Set.mem_singleton_iff]
    refine ⟨fun hn => ⟨.inr hn, ?_⟩, fun hn => hn.1.resolve_left hn.2⟩
    rintro rfl
    exact (nodup_cons.mp hnodup).1 hn

theorem Refines.step (hr : Refines hash l S) (c : Call) :
    Refines hash (step hash l c) (c.apply S) := by
  unfold WhitelistedIntrinsics.step call Call.apply
  cases c with
  | add name =>
    obtain ⟨⟨e, herror⟩, hmem⟩ | ⟨l', hok, -, hr'⟩ := hr.add name
    · simpa only [herror, Set.insert_eq_of_mem hmem] using hr
    · simpa only [hok] using hr'
  | remove name =>
    obtain ⟨⟨e, herror⟩, hnot⟩ | ⟨l', hok, -, hr'⟩ := hr.remove name
    · simpa only [herror, Set.sdiff_singleton_eq_self hnot] using hr
    · simpa only [hok] using hr'
  | reset s =>
    have hnodup : s.toList.Nodup :=
      s.sorted.imp (S := (· ≠ ·)) fun hlt heq => List.lt_irrefl _ (heq ▸ hlt)
    have hempty : Refines hash [] ∅ := ⟨.nil, by simp, by simp, by simp⟩
    have hall := hempty.emplacedAll hnodup (by simp)
    rwa [Set.empty_union] at hall

theorem convert_eq (l : Whitelist) (n : Name) :
    n ∈ convertIntrinsicWhitelistToSet l ↔ n ∈ l.map (·.2) := by
  have hfold : ∀ s : Finset Name,
      n ∈ l.foldl (fun s p => insert p.2 s) s ↔ n ∈ s ∨ n ∈ l.map (·.2) := by
    induction l with
    | nil => simp
    | cons p l ih =>
      intro s
      rw [foldl_cons, ih, Finset.mem_insert, map_cons, mem_cons]
      tauto
  rw [convertIntrinsicWhitelistToSet, hfold]
  simp

theorem whitelist_is_set (hash : Name → UInt64) (calls : List Call) :
    let l := calls.foldl (step hash) []
    let S := calls.foldl Call.apply ∅
    (∀ n, isIntrinsicWhitelisted hash l n = true ↔ n ∈ S) ∧
      (∀ n, (∃ e, addIntrinsicToWhitelist hash l n = .error e) ↔ n ∈ S) ∧
      (∀ n, (∃ e, removeIntrinsicFromWhitelist hash l n = .error e) ↔ n ∉ S) ∧
      (convertIntrinsicWhitelistToSet l : Set Name) = S := by
  have hrun : ∀ l S, Refines hash l S →
      Refines hash (calls.foldl (step hash) l) (calls.foldl Call.apply S) := by
    induction calls with
    | nil => exact fun _ _ h => h
    | cons c calls ih => exact fun l S h => ih _ _ (h.step c)
  have h := hrun [] ∅ ⟨.nil, by simp, by simp, by simp⟩
  generalize calls.foldl (step hash) [] = l at h
  generalize calls.foldl Call.apply ∅ = S at h
  refine ⟨fun n => ?_, fun n => ?_, fun n => ?_, Set.ext fun n => (convert_eq l n).trans (h.mem n)⟩
  · change (findIntrinsic l (hash n) n).isSome = true ↔ _
    obtain ⟨hnone, hnot⟩ | ⟨_, rest, -, hmem, hsome⟩ := h.find n
    · simp [hnone, hnot]
    · simp [hsome, hmem]
  · obtain ⟨herror, hmem⟩ | ⟨l', hok, hnot, -⟩ := h.add n
    · exact iff_of_true herror hmem
    · simp [hok, hnot]
  · obtain ⟨herror, hnot⟩ | ⟨l', hok, hmem, -⟩ := h.remove n
    · exact iff_of_true herror hnot
    · simp [hok, hmem]

end FlonCore.WhitelistedIntrinsics
