import FlonCore.Library.Outcome
import FlonCore.Library.Packing
import FlonCore.Types

/-!
# The anchor of a recovery

A recovery follows the back pointers of a block log from its last entry down to a checkpoint.
The file may be torn or corrupt, so that each step checks what it reads: the pointers go down,
which ends the walk, and the headers are a chain of consecutive blocks.
-/

namespace FlonCore
open Library List
open Outcome

/-- What the number and the id of a header are computed from. -/
structure LogHeader where
  previous : BlockId
  digest : Digest
deriving DecidableEq, Repr

namespace LogHeader

def blockNum (h : LogHeader) : ℕ := u32 (numFromId h.previous + 1)

def calculateId (h : LogHeader) : BlockId := stampId h.digest h.blockNum

end LogHeader

/-- A block log that was opened. The bytes after the preamble are arbitrary, and so is what
unpacking a header from them gives. -/
structure BlockLogData where
  bytes : List UInt8
  pruned : Bool
  chainId : Digest
  (firstBlockNum firstBlockPosition : ℕ)
  unpackHeader : List UInt8 → Except Failure LogHeader

open LogHeader

namespace BlockLogData
variable (data : BlockLogData)

def size : ℕ := data.bytes.length

def readAt (width offset : ℕ) : Except Failure (List UInt8) :=
  let read := (data.bytes.drop offset).take width
  if read.length = width then .ok read
  else .error ⟨.iosFailure, "cfile: ${file} unable to read ${n} bytes; only read ${m}"⟩

def readPosition (offset : ℕ) : Except Failure ℕ := do
  let read ← data.readAt 8 offset
  return read.foldr (fun b n => b.toNat + 256 * n) 0

/-- `last_block_position` of a log that is not pruned. -/
def lastBlockPosition : Except Failure ℕ := data.readPosition (data.size - 8)

/-- The number of the previous block is in the id with the most significant byte first. -/
def blockNumAt (position : ℕ) : Except Failure ℕ := do
  eosAssert (position ≤ data.size) .blockLogException "Invalid block position ${position}"
  let read ← data.readAt 4 (position + 14)
  return u32 (read.foldl (fun n b => 256 * n + b.toNat) 0 + 1)

def lastBlockNum : Except Failure ℕ := do
  let position ← data.lastBlockPosition
  data.blockNumAt position

/-- `num_blocks` of a log that is not pruned. -/
def numBlocks : Except Failure ℕ := do
  if data.firstBlockPosition = data.size then return 0
  let last ← data.lastBlockNum
  return u32 (last + 2 ^ 32 - data.firstBlockNum + 1)

/-- The loop from an entry on, with the number and the id its header has to have. -/
def walk (anchor : BlockId) : ℕ → ℕ → ℕ → Option BlockId → Outcome Failure Unit
  | 0, _, _, _ => .undefined
  | fuel + 1, position, expected, expectedId => do
    .ofExcept (eosAssert (data.firstBlockPosition ≤ position && position < data.size)
      .blockLogException "Invalid recovery block offset")
    let header ← .ofExcept (data.unpackHeader (data.bytes.drop position))
    .ofExcept (eosAssert (header.blockNum = expected && expectedId.all (· = header.calculateId))
      .blockLogException "Non-contiguous recovery block log")
    if expected = numFromId anchor then
      .ofExcept (eosAssert (header.calculateId = anchor) .blockLogException
        "Checkpoint block ID does not match the irreversible chain")
    else do
      .ofExcept (eosAssert (data.firstBlockPosition + 8 ≤ position) .blockLogException
        "Missing recovery tail")
      let previous ← .ofExcept (data.readPosition (position - 8))
      .ofExcept (eosAssert (previous < position) .blockLogException "Invalid recovery back pointer")
      walk anchor fuel previous (u32 (expected + 2 ^ 32 - 1)) (some header.previous)

def notInLog : String :=
  "Checkpoint anchor is not in the active irreversible block log; recovery refused"

/-- The checks before the loop, and the entry it starts at. -/
def recoveryStart (chainId : Digest) (anchor : BlockId) : Except Failure (ℕ × ℕ) := do
  eosAssert (!data.pruned) .blockLogException
    "Pruned block logs are not supported by physical recovery"
  eosAssert (data.chainId = chainId) .blockLogException
    "Recovery checkpoint belongs to a different chain"
  let blocks ← data.numBlocks
  eosAssert (0 < blocks && data.firstBlockNum ≤ numFromId anchor) .blockLogException notInLog
  let last ← data.lastBlockNum
  eosAssert (numFromId anchor ≤ last) .blockLogException notInLog
  let position ← data.lastBlockPosition
  return (position, last)

def checkRecoveryAnchor (chainId : Digest) (anchor : BlockId) : Outcome Failure ℕ := do
  let (position, last) ← .ofExcept (data.recoveryStart chainId anchor)
  data.walk anchor (data.size + 1) position last none
  return last

/-- The headers that the back pointers lead to from a position on. -/
inductive Walk : ℕ → List LogHeader → Prop
  | last {p : ℕ} {h : LogHeader} (hread : data.unpackHeader (data.bytes.drop p) = .ok h) :
      Walk p [h]
  | step {p q : ℕ} {h : LogHeader} {hs : List LogHeader}
      (hread : data.unpackHeader (data.bytes.drop p) = .ok h)
      (hback : data.readPosition (p - 8) = .ok q) (hrest : Walk q hs) : Walk p (h :: hs)

variable {data} {anchor : BlockId} {chainId : Digest}

theorem recoveryStart_eq_ok {position last : ℕ}
    (h : data.recoveryStart chainId anchor = .ok (position, last)) :
    numFromId anchor ≤ last ∧ last < 2 ^ 32 ∧ position ≤ data.size ∧
      data.lastBlockPosition = .ok position := by
  iterate 2 obtain ⟨-, h⟩ := seq_eq_ok.mp h
  obtain ⟨blocks, -, h⟩ := bind_eq_ok.mp h
  obtain ⟨-, h⟩ := seq_eq_ok.mp h
  obtain ⟨last', hlast, h⟩ := bind_eq_ok.mp h
  obtain ⟨hin, h⟩ := seq_eq_ok.mp h
  obtain ⟨position', hposition, h⟩ := bind_eq_ok.mp h
  obtain ⟨rfl, rfl⟩ := Prod.mk.inj (Except.ok.inj h)
  rw [lastBlockNum, hposition] at hlast
  obtain ⟨hle, hlast⟩ := seq_eq_ok.mp (hlast : data.blockNumAt position' = .ok last')
  obtain ⟨read, -, hlast⟩ := bind_eq_ok.mp hlast
  refine ⟨by simpa using hin, ?_, by simpa using hle, hposition⟩
  rw [← Except.ok.inj hlast]
  exact Nat.mod_lt _ (by decide)

variable {fuel position expected : ℕ} {expectedId : Option BlockId}

theorem walk_ne_undefined
    (h : position < fuel) : data.walk anchor fuel position expected expectedId ≠ .undefined := by
  induction fuel generalizing position expected expectedId with
  | zero => omega
  | succ fuel ih =>
    refine ofExcept_bind_ne fun _ _ => ofExcept_bind_ne fun header _ =>
      ofExcept_bind_ne fun _ _ => ?_
    split_ifs
    · exact ofExcept_ne _
    · refine ofExcept_bind_ne fun _ _ => ofExcept_bind_ne fun previous _ =>
        ofExcept_bind_ne fun _ hlt => ih ?_
      rw [eosAssert_eq_ok, decide_eq_true_eq] at hlt
      omega

theorem walk_returns (hle : numFromId anchor ≤ expected) (hlt : expected < 2 ^ 32)
    (h : data.walk anchor fuel position expected expectedId = .returns ()) :
    ∃ hs, data.Walk position hs ∧
      (∀ id, expectedId = some id → ∀ h ∈ hs.head?, id = h.calculateId) ∧
      hs.map blockNum =
        (range' (numFromId anchor) (expected - numFromId anchor + 1)).reverse ∧
      hs.IsChain (fun h h' => h.previous = h'.calculateId) ∧
      hs.getLast?.map calculateId = some anchor := by
  induction fuel generalizing position expected expectedId with
  | zero => cases h
  | succ fuel ih =>
    simp only [walk, bind_eq_returns, ofExcept_eq_returns, eosAssert_eq_ok,
      Bool.and_eq_true, decide_eq_true_eq] at h
    obtain ⟨-, -, header, hread, -, ⟨hnum, hid⟩, h⟩ := h
    have hfirst : ∀ id, expectedId = some id → id = header.calculateId := by
      rintro id rfl
      simpa using hid
    split_ifs at h with hlast
    · rw [ofExcept_eq_returns, eosAssert_eq_ok, decide_eq_true_eq] at h
      refine ⟨[header], .last hread, fun id hsome => ?_, ?_, isChain_singleton _, ?_⟩
      · simpa using hfirst id hsome
      · simp [hlast, hnum]
      · simp [h]
    · simp only [bind_eq_returns, ofExcept_eq_returns, eosAssert_eq_ok, decide_eq_true_eq] at h
      obtain ⟨-, -, previous, hback, -, -, h⟩ := h
      have hexpected : u32 (expected + 2 ^ 32 - 1) = expected - 1 := by
        unfold u32
        omega
      rw [hexpected] at h
      obtain ⟨hs, hwalk, hhead, hnums, hchain, hanchor⟩ := ih (by omega) (by omega) h
      refine ⟨header :: hs, .step hread hback hwalk, fun id hsome => ?_, ?_, ?_, ?_⟩
      · simpa using hfirst id hsome
      · have hrange : range' (numFromId anchor) (expected - numFromId anchor + 1) =
            range' (numFromId anchor) (expected - 1 - numFromId anchor + 1) ++ [expected] := by
          rw [show expected - numFromId anchor + 1 =
            expected - 1 - numFromId anchor + 1 + 1 by omega, range'_concat]
          simp only [append_cancel_left_eq, List.cons.injEq, and_true]
          omega
        rw [map_cons, hnums, hnum, hrange, reverse_concat]
      · exact isChain_cons.mpr ⟨fun h' hmem => hhead _ rfl h' hmem, hchain⟩
      · obtain ⟨first, hsome, hid⟩ := Option.map_eq_some_iff.mp hanchor
        rw [getLast?_cons, hsome]
        exact congrArg some hid

/-- The check of an anchor ends for any file. If it returns, the back pointers lead from the last
entry through consecutive linked headers to the anchor. -/
theorem recovery_anchor_sound (data : BlockLogData) (chainId : Digest) (anchor : BlockId) :
    data.checkRecoveryAnchor chainId anchor ≠ .undefined ∧
    ∀ n, data.checkRecoveryAnchor chainId anchor = .returns n →
      ∃ position hs, data.lastBlockPosition = .ok position ∧ data.Walk position hs ∧
        hs.map LogHeader.blockNum =
          (range' (numFromId anchor) (n - numFromId anchor + 1)).reverse ∧
        hs.IsChain (fun h h' => h.previous = h'.calculateId) ∧
        hs.getLast?.map LogHeader.calculateId = some anchor := by
  refine ⟨Outcome.ofExcept_bind_ne fun start hstart => ?_, fun n h => ?_⟩
  · obtain ⟨-, -, hposition, -⟩ := recoveryStart_eq_ok hstart
    have hwalk : data.walk anchor (data.size + 1) start.1 start.2 none ≠ .undefined :=
      walk_ne_undefined (by omega)
    intro hbad
    cases hresult : data.walk anchor (data.size + 1) start.1 start.2 none with
    | returns _ => simp [hresult, pure] at hbad
    | throws e => simp [hresult, bind, Outcome.bind] at hbad
    | undefined => exact hwalk hresult
  · obtain ⟨⟨position, last⟩, hstart, h⟩ := Outcome.bind_eq_returns.mp h
    obtain ⟨_, hwalk, h⟩ := Outcome.bind_eq_returns.mp h
    obtain rfl := Outcome.pure_eq_returns.mp h
    obtain ⟨hle, hlt, -, hposition⟩ :=
      recoveryStart_eq_ok (Outcome.ofExcept_eq_returns.mp hstart)
    obtain ⟨hs, hreached, -, hlinks⟩ := walk_returns hle hlt hwalk
    exact ⟨position, hs, hposition, hreached, hlinks⟩

/-- Two entries whose headers have nothing but the number of the previous block. -/
def twoEntries : BlockLogData where
  bytes := replicate 25 0 ++ [0, 8, 0, 0, 0, 0, 0, 0, 0] ++ replicate 17 0 ++
    [1, 34, 0, 0, 0, 0, 0, 0, 0]
  pruned := false
  chainId := 0
  firstBlockNum := 1
  firstBlockPosition := 8
  unpackHeader s := .ok ⟨stampId 0 (s.getD 17 0).toNat, 0⟩

theorem twoEntries_anchored : ∃ position hs, twoEntries.lastBlockPosition = .ok position ∧
    twoEntries.Walk position hs ∧ hs.map blockNum = [2, 1] ∧
    hs.IsChain (fun h h' => h.previous = h'.calculateId) ∧
    hs.getLast?.map calculateId = some (stampId 0 1) :=
  (recovery_anchor_sound twoEntries 0 (stampId 0 1)).2 2 (by decide +kernel)

end BlockLogData

end FlonCore
