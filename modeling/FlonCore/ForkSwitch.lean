import FlonCore.ForkBranches

/-!
# Switching forks

The controller moves its head to another block of the fork database: it pops the
blocks of the branch it leaves and applies those of the branch it enters. When a
block fails, the block is removed with everything built on it, what was applied
is popped, and the branch that was left is applied again.

Applying a block is an oracle. It succeeds, and may make a block of the head's
branch irreversible, or it throws and changes nothing.
-/

namespace FlonCore
open Library
open ForkBlock (previous)
open ForkBlock renaming id → idOf
variable {B : Type} [ForkBlock B]

/-- How an application of a block ends: with the block that became irreversible, if any,
or with an exception. -/
inductive ApplyResult
  | applied (lib : Option BlockId)
  | threw (e : Failure)
deriving DecidableEq, Repr

/-- What the switch does not decide: how each application ends, whether the node is being
shut down after it, and which blocks were loaded with their contents. -/
structure SwitchEnv (B : Type) where
  apply : ℕ → ApplyResult
  checkShutdown : ℕ → Bool
  hasBlock : B → Bool

structure Controller (B : Type) where
  forkdb : ForkDatabase B
  chainHead : B
  revision : ℕ
  trace : List (B × ApplyResult)
deriving DecidableEq, Repr

namespace Controller

/-- The outcome of a call: a call that throws leaves a controller behind too. -/
abbrev Call (B : Type) := Outcome (Failure × Controller B)

variable (env : SwitchEnv B) (st : Controller B)

def logIrreversible (lib : Option BlockId) : Call B (Controller B) :=
  match lib with
  | none => .returns st
  | some id =>
    if id ∈ (st.forkdb.branchOf (idOf st.chainHead)).map idOf then
      match st.forkdb.advanceRoot (fun _ => true) id with
      | .returns forkdb => .returns { st with forkdb := forkdb }
      | .throws (e, forkdb) => .throws (e, { st with forkdb := forkdb })
      | .undefined => .undefined
    else .returns st

def applyBlock (b : B) : Call B (Controller B) :=
  match env.apply st.trace.length with
  | .threw e => .throws (e, { st with trace := st.trace ++ [(b, .threw e)] })
  | .applied lib =>
    logIrreversible { st with
      chainHead := b, revision := st.revision + 1, trace := st.trace ++ [(b, .applied lib)] } lib

def popTarget : Option B :=
  match st.forkdb.getBlock (previous st.chainHead) with
  | some prev => some prev
  | none => st.forkdb.root.filter fun r => idOf r = previous st.chainHead

def popBlock : Call B (Controller B) :=
  match st.popTarget with
  | none =>
    .throws (⟨.blockValidateException, "attempt to pop beyond last irreversible block"⟩, st)
  | some prev =>
    if env.hasBlock st.chainHead then
      .returns { st with chainHead := prev, revision := st.revision - 1 }
    else .throws (⟨.blockValidateException,
      "attempting to pop a block that was sparsely loaded from a snapshot"⟩, st)

def popBlocks : ℕ → Controller B → Call B (Controller B)
  | 0, st => .returns st
  | n + 1, st => st.popBlock env >>= popBlocks n

def applyAll : List B → Controller B → Call B (Controller B)
  | [], st => .returns st
  | b :: rest, st => st.applyBlock env b >>= applyAll rest

def assertSync (branch : List B) (message : String) : Call B (Controller B) :=
  if branch.getLast?.map previous = some (idOf st.chainHead) then .returns st
  else .throws (⟨.forkDatabaseException, message⟩, st)

def removeBlock (id : BlockId) : Call B (Controller B) :=
  .ofOption ((st.forkdb.remove id).map fun forkdb => { st with forkdb := forkdb })

def rejoin (left : List B) (st : Controller B) : Call B (Controller B) :=
  if left.isEmpty then .returns st
  else do
    let st ← st.assertSync left
      "loss of sync between fork_db and chainbase during fork switch reversal"
    st.applyAll env left.reverse

/-- Back to the branch that was left, after `done` blocks of the other one. -/
def reverseSwitch (left : List B) (done : ℕ) (bad : BlockId) (st : Controller B) :
    Call B (Controller B) := do
  let st ← st.removeBlock bad
  let st ← st.popBlocks env done
  st.rejoin env left

/-- Applies the blocks of the branch that is entered, oldest first. An exhausted memory is
passed on as it is; any other exception reverses the switch first. -/
def enterBranch (left : List B) : ℕ → List B → Controller B → Call B (Controller B)
  | _, [], st => .returns st
  | done, b :: rest, st =>
    match st.applyBlock env b with
    | .returns st' =>
      if left.isEmpty && env.checkShutdown st'.trace.length then .returns st'
      else enterBranch left (done + 1) rest st'
    | .throws (e, st') =>
      if e.kind = .badAlloc then .throws (e, st')
      else reverseSwitch env left done (idOf b) st' >>= fun st'' => .throws (e, st'')
    | .undefined => .undefined

def leaveBranch (left : List B) (st : Controller B) : Call B (Controller B) :=
  if left.isEmpty then .returns st
  else do
    let st ← st.popBlocks env left.length
    st.assertSync left "loss of sync between fork_db and chainbase during fork switch"

def switchTo (newHead : B) (st : Controller B) : Call B (Controller B) :=
  match st.forkdb.fetchBranchFrom (idOf newHead) (idOf st.chainHead) with
  | .throws e => .throws (e, st)
  | .undefined => .undefined
  | .returns (entered, left) => st.leaveBranch env left >>= enterBranch env left 0 entered.reverse

/-- `pendingLib` is what may become irreversible when the head is already in place. -/
def maybeSwitchForks (newHead : B) (pendingLib : Option BlockId) (st : Controller B) :
    Call B (Controller B) :=
  if previous newHead = idOf st.chainHead then
    match st.applyBlock env newHead with
    | .throws (e, st') =>
      st'.removeBlock (idOf newHead) >>= fun st'' => .throws (e, st'')
    | result => result
  else if idOf newHead ≠ idOf st.chainHead then st.switchTo env newHead
  else st.logIrreversible pendingLib

end Controller

end FlonCore
