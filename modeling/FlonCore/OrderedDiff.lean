import FlonCore.Library.Outcome
import FlonCore.Types

/-!
# Ordered diffs

A diff of two sequences lists the positions to remove from the source and then
the values to insert, each with its position in the target. Policies travel in
block headers as diffs against the policy proposed last. The size type of a diff
is a template parameter: `diffIn maxIndex` is the diff for a type whose largest
value is `maxIndex`, and it refuses sequences too long for that. `applyDiffRaw`
makes the calls of `apply_diff` one by one, where an erase or an insert outside
the container is undefined. It never comes to that.
-/

namespace FlonCore
open Library
variable {α : Type}

structure DiffResult (α : Type) where
  removeIndexes : List ℕ
  insertIndexes : List (ℕ × α)
deriving DecidableEq, Repr

namespace OrderedDiff

def maxIndex : ℕ := 2 ^ 16 - 1

def addRemove (s : ℕ) (d : DiffResult α) : DiffResult α := ⟨s :: d.removeIndexes, d.insertIndexes⟩

def addInsert (t : ℕ) (y : α) (d : DiffResult α) : DiffResult α :=
  ⟨d.removeIndexes, (t, y) :: d.insertIndexes⟩

/-- The loop of `diff`, on what is left of the source from position `s` and of the target
from position `t`. -/
def diffFrom [DecidableEq α] (s : ℕ) (source : List α) (t : ℕ) (target : List α) : DiffResult α :=
  match source, target with
  | [], [] => ⟨[], []⟩
  | _ :: xs, [] => addRemove s (diffFrom (s + 1) xs t [])
  | [], y :: ys => addInsert t y (diffFrom s [] (t + 1) ys)
  | x :: xs, y :: ys =>
    if x = y then diffFrom (s + 1) xs (t + 1) ys
    -- both at their ends, or the next values are equal: replace
    else if (xs = [] ∧ ys = []) ∨ (xs ≠ [] ∧ xs.head? = ys.head?) then
      addRemove s (addInsert t y (diffFrom (s + 1) xs (t + 1) ys))
    else if ys.head? = some x then addInsert t y (diffFrom s (x :: xs) (t + 1) ys)
    else addRemove s (diffFrom (s + 1) xs t (y :: ys))
termination_by source.length + target.length

def fitsIn (maxIndex : ℕ) (l : List α) : Bool := l.isEmpty || decide (l.length - 1 ≤ maxIndex)

def diffIn [DecidableEq α] (maxIndex : ℕ) (source target : List α) :
    Except Failure (DiffResult α) := do
  eosAssert (fitsIn maxIndex source) .assertException
    "source.empty() || (source.size() - 1) <= std::numeric_limits<SizeType>::max(): "
  eosAssert (fitsIn maxIndex target) .assertException
    "target.empty() || (target.size() - 1) <= std::numeric_limits<SizeType>::max(): "
  return diffFrom 0 source 0 target

def diff [DecidableEq α] (source target : List α) : Except Failure (DiffResult α) :=
  diffIn maxIndex source target

def isAfter (index : ℕ) (previous : Option ℕ) : Bool :=
  previous.all fun p => decide (p < index)

section Apply
variable (container : List α)

/-- `container.erase(container.begin() + position)` -/
def eraseAt (position : ℕ) : Outcome Failure (List α) :=
  if position < container.length then .returns (container.eraseIdx position) else .undefined

/-- `container.insert(container.begin() + position, value)` -/
def insertAt (position : ℕ) (value : α) : Outcome Failure (List α) :=
  if position ≤ container.length then .returns (container.insertIdx position value)
  else .undefined

/-- The first loop of `apply_diff`; a failed `assert` is undefined. -/
def removeRaw (i : ℕ) (previous : Option ℕ) (container : List α) :
    List ℕ → Outcome Failure (List α)
  | [] => .returns container
  | index :: rest => do
    .ofExcept (eosAssert (isAfter index previous) .assertException
      ("i == 0 || diff.remove_indexes[i] > diff.remove_indexes[i-1]: " ++
        "diff.remove_indexes not strictly monotonically increasing: current index ${c}, " ++
        "previous index ${p}"))
    if index < i then .undefined
    else
      let updatedIndex := index - i
      .ofExcept (eosAssert (updatedIndex < container.length) .assertException
        ("updated_index < container.size(): " ++
          "diff.remove_indexes index ${idx} - i ${i} not in range ${s}"))
      let container ← eraseAt container updatedIndex
      removeRaw (i + 1) (some index) container rest

/-- The second loop of `apply_diff`. -/
def insertRaw (previous : Option ℕ) (container : List α) :
    List (ℕ × α) → Outcome Failure (List α)
  | [] => .returns container
  | (index, value) :: rest => do
    .ofExcept (eosAssert (isAfter index previous) .assertException
      ("i == 0 || diff.insert_indexes[i].first > diff.insert_indexes[i-1].first: " ++
        "diff.insert_indexes not strictly monotonically increasing: current index ${c}, " ++
        "previous index ${p}"))
    .ofExcept (eosAssert (index ≤ container.length) .assertException
      "index <= container.size(): diff.insert_indexes index ${idx} not in range ${s}")
    let container ← insertAt container index value
    insertRaw (some index) container rest

def applyDiffRaw (d : DiffResult α) : Outcome Failure (List α) := do
  let removed ← removeRaw 0 none container d.removeIndexes
  insertRaw none removed d.insertIndexes

end Apply

variable {i index : ℕ} {previous : Option ℕ} {container : List α}

theorem removeRaw_cons (hafter : isAfter index previous = true) (hi : i ≤ index)
    (hlt : index - i < container.length) (rest : List ℕ) :
    removeRaw i previous container (index :: rest) =
      removeRaw (i + 1) (some index) (container.eraseIdx (index - i)) rest := by
  have hnot : ¬ index < i := by omega
  simp [removeRaw, eraseAt, eosAssert, hafter, hnot, hlt, Outcome.ofExcept]

theorem insertRaw_cons (hafter : isAfter index previous = true) (hle : index ≤ container.length)
    (value : α) (rest : List (ℕ × α)) : insertRaw previous container ((index, value) :: rest) =
      insertRaw (some index) (container.insertIdx index value) rest := by
  simp [insertRaw, insertAt, eosAssert, hafter, hle, Outcome.ofExcept]

/-- An index after the previous one is not below the number of removals made before it. -/
theorem removeRaw_ne_undefined (hprevious : ∀ index, isAfter index previous = true → i ≤ index)
    (indexes : List ℕ) : removeRaw i previous container indexes ≠ .undefined := by
  induction indexes generalizing i previous container with
  | nil => simp [removeRaw]
  | cons index rest ih =>
    refine Outcome.ofExcept_bind_ne fun _ hafter => ?_
    have hi := hprevious index (eosAssert_eq_ok.mp hafter)
    rw [if_neg (by omega)]
    refine Outcome.ofExcept_bind_ne fun _ hrange => ?_
    have hlt : index - i < container.length := by simpa using eosAssert_eq_ok.mp hrange
    rw [eraseAt, if_pos hlt, Outcome.returns_bind]
    refine ih fun next hnext => ?_
    have hlater : index < next := by simpa [isAfter] using hnext
    omega

theorem insertRaw_ne_undefined (entries : List (ℕ × α)) :
    insertRaw previous container entries ≠ .undefined := by
  induction entries generalizing previous container with
  | nil => simp [insertRaw]
  | cons e rest ih =>
    refine Outcome.ofExcept_bind_ne fun _ _ => Outcome.ofExcept_bind_ne fun _ hrange => ?_
    have hle : e.1 ≤ container.length := by simpa using eosAssert_eq_ok.mp hrange
    rw [insertAt, if_pos hle, Outcome.returns_bind]
    exact ih

theorem applyDiffRaw_ne_undefined (container : List α) (d : DiffResult α) :
    applyDiffRaw container d ≠ .undefined :=
  Outcome.bind_ne_undefined (removeRaw_ne_undefined (fun _ _ => Nat.zero_le _) _)
    fun _ => insertRaw_ne_undefined _

def applyDiff (container : List α) (d : DiffResult α) : Except Failure (List α) :=
  (applyDiffRaw container d).toExcept (applyDiffRaw_ne_undefined container d)

end OrderedDiff
end FlonCore
