import FlonCore.Types
import FlonCore.Library.FlatSet

/-!
# The lists of actors

A node may restrict the accounts that authorize transactions, by a whitelist
or by a blacklist. Both checks compare sorted sets: after a comparison of the
extents each actor is looked up from where the search for the one before it
ended.
-/

namespace FlonCore
open Library List

section Scan
variable {α : Type} [LT α] [DecidableLT α] [DecidableEq α]

/-- The loop of the whitelist: whether each actor is found from an iterator on. -/
def isSubsetFrom : List α → List α → Bool
  | _, [] => true
  | whitelist, actor :: actors =>
    match lowerBound whitelist actor with
    | [] => false
    | found :: next => if found ≠ actor then false else isSubsetFrom next actors

/-- The loop of the blacklist: whether some actor is found from an iterator on. -/
def intersectsFrom : List α → List α → Bool
  | _, [] => false
  | blacklist, actor :: actors =>
    match lowerBound blacklist actor with
    | [] => false
    | found :: next => if found = actor then true else intersectsFrom (found :: next) actors

variable [LE α] [Std.IsLinearOrder α] [Std.LawfulOrderLT α]

theorem isSubsetFrom_iff {whitelist actors : List α} (hw : whitelist.Pairwise (· < ·))
    (ha : actors.Pairwise (· < ·)) :
    isSubsetFrom whitelist actors = true ↔ ∀ actor ∈ actors, actor ∈ whitelist := by
  induction actors generalizing whitelist with
  | nil => simp [isSubsetFrom]
  | cons actor actors ih =>
    obtain ⟨hless, hactors⟩ := pairwise_cons.mp ha
    rw [isSubsetFrom, forall_mem_cons]
    cases hbound : lowerBound whitelist actor with
    | nil =>
      have hnot : actor ∉ whitelist := by
        rw [← mem_lowerBound (Std.le_refl actor), hbound]
        exact not_mem_nil
      simp [hnot]
    | cons found next =>
      have hnext : next.Pairwise (· < ·) :=
        (pairwise_cons.mp (hbound ▸ sorted_lowerBound hw actor)).2
      rw [mem_iff_of_lowerBound hw hbound]
      by_cases hfound : found = actor
      · -- the later actors are greater, so they lie after the one found
        have hlater : ∀ later ∈ actors, later ∈ next ↔ later ∈ whitelist := by
          intro later hmem
          have hlt := hless later hmem
          have hne : later ≠ found := by
            rintro rfl
            exact Std.lt_irrefl (hfound ▸ hlt)
          rw [← mem_lowerBound (l := whitelist) (Std.le_of_lt hlt), hbound, mem_cons]
          simp [hne]
        simp only [hfound, ne_eq, not_true_eq_false, if_false, true_and]
        rw [ih hnext hactors]
        exact forall₂_congr hlater
      · simp [hfound]

theorem intersectsFrom_iff {blacklist actors : List α} (hb : blacklist.Pairwise (· < ·))
    (ha : actors.Pairwise (· < ·)) :
    intersectsFrom blacklist actors = true ↔ ∃ actor ∈ actors, actor ∈ blacklist := by
  induction actors generalizing blacklist with
  | nil => simp [intersectsFrom]
  | cons actor actors ih =>
    obtain ⟨hless, hactors⟩ := pairwise_cons.mp ha
    have hlater : ∀ later ∈ actors, later ∈ lowerBound blacklist actor ↔ later ∈ blacklist :=
      fun later hmem => mem_lowerBound (Std.le_of_lt (hless later hmem))
    rw [intersectsFrom, exists_mem_cons_iff]
    cases hbound : lowerBound blacklist actor with
    | nil =>
      have hnone : ∀ a, actor ≤ a → a ∉ blacklist := by
        intro a hle
        rw [← mem_lowerBound hle, hbound]
        exact not_mem_nil
      have hrest : ¬ ∃ later ∈ actors, later ∈ blacklist := by
        rintro ⟨later, hmem, hin⟩
        exact hnone later (Std.le_of_lt (hless later hmem)) hin
      simp [hnone actor (Std.le_refl actor), hrest]
    | cons found next =>
      have hsorted : (found :: next).Pairwise (· < ·) := hbound ▸ sorted_lowerBound hb actor
      rw [mem_iff_of_lowerBound hb hbound]
      by_cases hfound : found = actor
      · simp [hfound]
      · simp only [hfound, if_false, false_or]
        rw [ih hsorted hactors, ← hbound]
        exact exists_congr fun later => and_congr_right fun hmem => hlater later hmem

end Scan

section Check
variable (actorWhitelist actorBlacklist actors : FlatSet AccountName) (ha : actors.toList ≠ [])

def isSubset (hw : actorWhitelist.toList ≠ []) : Bool :=
  if actors.toList.head ha ≥ actorWhitelist.toList.head hw ∧
      actors.toList.getLast ha ≤ actorWhitelist.toList.getLast hw then
    isSubsetFrom actorWhitelist.toList actors.toList
  else false

def intersects (hb : actorBlacklist.toList ≠ []) : Bool :=
  if actors.toList.head ha ≤ actorBlacklist.toList.getLast hb ∧
      actors.toList.getLast ha ≥ actorBlacklist.toList.head hb then
    intersectsFrom actorBlacklist.toList actors.toList
  else false

/-- `check_actor_list`, for the lists of the node's configuration. -/
def checkActorList : Except Failure Unit :=
  if ha : actors.toList = [] then .ok ()
  else if hw : actorWhitelist.toList ≠ [] then
    eosAssert (isSubset actorWhitelist actors ha hw) .actorWhitelistException
      "authorizing actor(s) in transaction are not on the actor whitelist: ${actors}"
  else if hb : actorBlacklist.toList ≠ [] then
    eosAssert (!intersects actorBlacklist actors ha hb) .actorBlacklistException
      "authorizing actor(s) in transaction are on the actor blacklist: ${actors}"
  else .ok ()

variable {actorWhitelist actorBlacklist actors}

theorem isSubset_iff (hw : actorWhitelist.toList ≠ []) :
    isSubset actorWhitelist actors ha hw = true ↔ ∀ actor ∈ actors, actor ∈ actorWhitelist := by
  have hscan := isSubsetFrom_iff actorWhitelist.sorted actors.sorted
  unfold isSubset
  split_ifs with hextents
  · exact hscan
  · -- the extents of a subset lie within those of the set
    simp only [false_iff]
    intro hsub
    exact hextents ⟨head_le actorWhitelist.sorted hw (hsub _ (head_mem ha)),
      le_getLast actorWhitelist.sorted hw (hsub _ (getLast_mem ha))⟩

theorem intersects_iff (hb : actorBlacklist.toList ≠ []) :
    intersects actorBlacklist actors ha hb = true ↔ ∃ actor ∈ actors, actor ∈ actorBlacklist := by
  have hscan := intersectsFrom_iff actorBlacklist.sorted actors.sorted
  unfold intersects
  split_ifs with hextents
  · exact hscan
  · simp only [false_iff]
    rintro ⟨actor, hactor, hmem⟩
    exact hextents
      ⟨Std.le_trans (head_le actors.sorted ha hactor) (le_getLast actorBlacklist.sorted hb hmem),
        Std.le_trans (head_le actorBlacklist.sorted hb hmem) (le_getLast actors.sorted ha hactor)⟩

/-- The check throws for an actor that is not on a whitelist, or, without one, for an actor on
the blacklist, and in no other case. -/
theorem check_actor_list_iff (actorWhitelist actorBlacklist actors : FlatSet AccountName) :
    ((∃ e, checkActorList actorWhitelist actorBlacklist actors = .error e ∧
        e.kind = .actorWhitelistException) ↔
      actorWhitelist.toList ≠ [] ∧ ∃ actor ∈ actors, actor ∉ actorWhitelist) ∧
    ((∃ e, checkActorList actorWhitelist actorBlacklist actors = .error e ∧
        e.kind = .actorBlacklistException) ↔
      actorWhitelist.toList = [] ∧ ∃ actor ∈ actors, actor ∈ actorBlacklist) ∧
    (checkActorList actorWhitelist actorBlacklist actors = .ok () ↔
      ¬ (actorWhitelist.toList ≠ [] ∧ ∃ actor ∈ actors, actor ∉ actorWhitelist) ∧
      ¬ (actorWhitelist.toList = [] ∧ ∃ actor ∈ actors, actor ∈ actorBlacklist)) := by
  unfold checkActorList
  by_cases ha : actors.toList = []
  · have hnone : ∀ actor, actor ∉ actors := fun actor hmem =>
      not_mem_nil (ha ▸ hmem : actor ∈ [])
    simp [ha, hnone]
  rw [dif_neg ha]
  by_cases hw : actorWhitelist.toList = []
  · rw [dif_neg (not_not.mpr hw)]
    by_cases hb : actorBlacklist.toList = []
    · have hnone : ∀ actor, actor ∉ actorBlacklist := fun actor hmem =>
        not_mem_nil (hb ▸ hmem : actor ∈ [])
      rw [dif_neg (not_not.mpr hb)]
      simp [hw, hnone]
    · rw [dif_pos hb, ← intersects_iff ha hb]
      cases intersects actorBlacklist actors ha hb <;> simp [eosAssert, hw]
  · have hsub : (∃ actor ∈ actors, actor ∉ actorWhitelist) ↔
        isSubset actorWhitelist actors ha hw = false := by
      rw [← Bool.not_eq_true, isSubset_iff ha hw]
      simp only [not_forall, exists_prop]
    rw [dif_pos hw, hsub]
    cases isSubset actorWhitelist actors ha hw <;> simp [eosAssert, hw]

end Check
end FlonCore
