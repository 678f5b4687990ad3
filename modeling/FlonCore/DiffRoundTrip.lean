import FlonCore.OrderedDiff

/-!
# Applying a diff

A diff leads from its source to its target: the removals leave the values that both
have in common, and each insertion puts one value of the target in its place.
-/

namespace FlonCore.OrderedDiff
open Library List
variable {α : Type}

section RoundTrip
variable [DecidableEq α]

/-- The removals of a diff leave the values `kept` from position `s` on, and the insertions
make the rest of the target from position `t` of them. -/
structure LeadsVia (s : ℕ) (source : List α) (t : ℕ) (target : List α) (d : DiffResult α)
    (kept : List α) : Prop where
  removes : ∀ before i previous, before.length + i = s → isAfter s previous = true →
    removeRaw i previous (before ++ source) d.removeIndexes = .returns (before ++ kept)
  inserts : ∀ before previous, before.length = t → isAfter t previous = true →
    insertRaw previous (before ++ kept) d.insertIndexes = .returns (before ++ target)

variable {s t : ℕ} {x y : α} {xs ys kept : List α} {d : DiffResult α}

omit [DecidableEq α] in
theorem isAfter_succ {n : ℕ} {previous : Option ℕ} (h : isAfter n previous = true) :
    isAfter (n + 1) previous = true := by
  cases previous with
  | none => rfl
  | some p =>
    have hlt : p < n := by simpa [isAfter] using h
    simp [isAfter]
    omega

omit [DecidableEq α] in
theorem LeadsVia.skip (h : LeadsVia (s + 1) xs (t + 1) ys d kept) :
    LeadsVia s (x :: xs) t (x :: ys) d (x :: kept) := by
  constructor
  · intro before i previous hlength hafter
    have hnext := h.removes (before ++ [x]) i previous (by simp; omega) (isAfter_succ hafter)
    simpa using hnext
  · intro before previous hlength hafter
    have hnext := h.inserts (before ++ [x]) previous (by simp; omega) (isAfter_succ hafter)
    simpa using hnext

omit [DecidableEq α] in
theorem LeadsVia.remove (h : LeadsVia (s + 1) xs t ys d kept) :
    LeadsVia s (x :: xs) t ys (addRemove s d) kept := by
  refine ⟨fun before i previous hlength hafter => ?_, h.inserts⟩
  have hposition : s - i = before.length := by omega
  have hnext := h.removes before (i + 1) (some s) (by omega) (by simp [isAfter])
  rw [addRemove, removeRaw_cons hafter (by omega) (by simp; omega), hposition]
  simpa [eraseIdx_append_of_length_le] using hnext

omit [DecidableEq α] in
theorem insertIdx_length_append (before rest : List α) (y : α) :
    (before ++ rest).insertIdx before.length y = before ++ y :: rest := by
  induction before with
  | nil => rfl
  | cons b before ih => simp [ih]

omit [DecidableEq α] in
theorem LeadsVia.insert (h : LeadsVia s xs (t + 1) ys d kept) :
    LeadsVia s xs t (y :: ys) (addInsert t y d) kept := by
  refine ⟨h.removes, fun before previous hlength hafter => ?_⟩
  have hnext := h.inserts (before ++ [y]) (some t) (by simp; omega) (by simp [isAfter])
  have hinsert : (before ++ kept).insertIdx t y = before ++ [y] ++ kept := by
    rw [← hlength, insertIdx_length_append]
    simp
  rw [addInsert, insertRaw_cons hafter (by simp; omega), hinsert, hnext]
  simp

theorem exists_leadsVia (s : ℕ) (source : List α) (t : ℕ) (target : List α) :
    ∃ kept, LeadsVia s source t target (diffFrom s source t target) kept := by
  fun_induction diffFrom s source t target with
  | case1 => exact ⟨[], fun _ _ _ _ _ => rfl, fun _ _ _ _ => rfl⟩
  | case2 s t x xs ih =>
    obtain ⟨kept, h⟩ := ih
    exact ⟨kept, h.remove⟩
  | case3 s t y ys ih =>
    obtain ⟨kept, h⟩ := ih
    exact ⟨kept, h.insert⟩
  | case4 s t xs y ys ih =>
    obtain ⟨kept, h⟩ := ih
    exact ⟨y :: kept, h.skip⟩
  | case5 s t x xs y ys hne hreplace ih =>
    obtain ⟨kept, h⟩ := ih
    exact ⟨kept, h.insert.remove⟩
  | case6 s t x xs y ys hne hreplace hnext ih =>
    obtain ⟨kept, h⟩ := ih
    exact ⟨kept, h.insert⟩
  | case7 s t x xs y ys hne hreplace hnext ih =>
    obtain ⟨kept, h⟩ := ih
    exact ⟨kept, h.remove⟩

theorem diffFrom_lt (s : ℕ) (source : List α) (t : ℕ) (target : List α) :
    (∀ i ∈ (diffFrom s source t target).removeIndexes, i < s + source.length) ∧
      ∀ e ∈ (diffFrom s source t target).insertIndexes, e.1 < t + target.length := by
  fun_induction diffFrom s source t target with
  | case1 => simp
  | case2 s t x xs ih =>
    simp only [addRemove, forall_mem_cons, length_cons]
    exact ⟨⟨by omega, fun i hi => by have := ih.1 i hi; omega⟩, ih.2⟩
  | case3 s t y ys ih =>
    simp only [addInsert, forall_mem_cons, length_cons]
    exact ⟨ih.1, by omega, fun e he => by have := ih.2 e he; omega⟩
  | case4 s t xs y ys ih =>
    simp only [length_cons]
    exact ⟨fun i hi => by have := ih.1 i hi; omega, fun e he => by have := ih.2 e he; omega⟩
  | case5 s t x xs y ys hne hreplace ih =>
    simp only [addRemove, addInsert, forall_mem_cons, length_cons]
    exact ⟨⟨by omega, fun i hi => by have := ih.1 i hi; omega⟩, by omega,
      fun e he => by have := ih.2 e he; omega⟩
  | case6 s t x xs y ys hne hreplace hnext ih =>
    simp only [addInsert, forall_mem_cons, length_cons] at ih ⊢
    exact ⟨ih.1, by omega, fun e he => by have := ih.2 e he; omega⟩
  | case7 s t x xs y ys hne hreplace hnext ih =>
    simp only [addRemove, forall_mem_cons, length_cons] at ih ⊢
    exact ⟨⟨by omega, fun i hi => by have := ih.1 i hi; omega⟩, ih.2⟩

theorem applyDiffRaw_diffFrom (source target : List α) :
    applyDiffRaw source (diffFrom 0 source 0 target) = .returns target := by
  obtain ⟨kept, h⟩ := exists_leadsVia 0 source 0 target
  have hremoves := h.removes [] 0 none rfl rfl
  have hinserts := h.inserts [] none rfl rfl
  rw [nil_append, nil_append] at hremoves hinserts
  rw [applyDiffRaw, hremoves]
  exact hinserts

/-- A policy diff, with 16-bit positions, leads from the last policy to the new one. -/
theorem applyDiff_diff {source target : List α} (h : diff source target = .ok d) :
    applyDiff source d = .ok target := by
  unfold diff diffIn at h
  obtain ⟨-, h⟩ := seq_eq_ok.mp h
  obtain ⟨-, h⟩ := seq_eq_ok.mp h
  cases h
  exact Outcome.toExcept_eq_ok.mpr (applyDiffRaw_diffFrom source target)

omit [DecidableEq α] in
theorem lt_of_fitsIn {maxIndex : ℕ} {l : List α} (h : fitsIn maxIndex l = true) {i : ℕ}
    (hi : i < l.length) : i ≤ maxIndex := by
  have hlength : l = [] ∨ l.length - 1 ≤ maxIndex := by simpa [fitsIn] using h
  rcases hlength with rfl | hlength
  · simp at hi
  · omega

theorem diff_round_trip (maxIndex : ℕ) :
    (∀ source target : List α, fitsIn maxIndex source = true → fitsIn maxIndex target = true →
      ∃ d, diffIn maxIndex source target = .ok d ∧ (∀ i ∈ d.removeIndexes, i ≤ maxIndex) ∧
        (∀ e ∈ d.insertIndexes, e.1 ≤ maxIndex) ∧ applyDiffRaw source d = .returns target) ∧
    ∀ (container : List α) (d : DiffResult α),
      (∃ result, applyDiffRaw container d = .returns result) ∨
        ∃ e, applyDiffRaw container d = .throws e := by
  constructor
  · intro source target hsource htarget
    obtain ⟨hremoves, hinserts⟩ := diffFrom_lt 0 source 0 target
    rw [Nat.zero_add] at hremoves hinserts
    refine ⟨diffFrom 0 source 0 target, ?_, fun i hi => lt_of_fitsIn hsource (hremoves i hi),
      fun e he => lt_of_fitsIn htarget (hinserts e he), ?_⟩
    · simp [diffIn, eosAssert, hsource, htarget, bind, Except.bind, pure, Except.pure]
    · exact applyDiffRaw_diffFrom source target
  · intro container d
    cases h : applyDiffRaw container d with
    | returns result => exact .inl ⟨result, rfl⟩
    | throws e => exact .inr ⟨e, rfl⟩
    | undefined => exact absurd h (applyDiffRaw_ne_undefined container d)

end RoundTrip

theorem diff_round_trip_letters :
    (∃ d, diffIn 255 "abbcd".toList "bbxda".toList = .ok d ∧
      applyDiffRaw "abbcd".toList d = .returns "bbxda".toList) := by
  obtain ⟨d, hd, -, -, happly⟩ :=
    (diff_round_trip 255).1 "abbcd".toList "bbxda".toList (by decide) (by decide)
  exact ⟨d, hd, happly⟩

end FlonCore.OrderedDiff
