import FlonCore.AuthorityChecker
import FlonCore.Library.Assoc
import FlonCore.Library.Outcome

/-!
# Execution of the actions of a transaction

A transaction keeps a vector of action traces that grows while it executes. An
action runs in a context: its receiver first, then the receivers it or they
notify, in the order of notification, and then the inline actions they have
sent, each in a context of its own one level deeper. What contract code does is
a parameter: for every state of the context and the transaction, any list of
notifications and inline actions, or an exception.
-/

namespace FlonCore.Execution
open Library Function

structure Action where
  account : AccountName
  name : UInt64
  authorization : List PermissionLevel
  data : List UInt8
deriving DecidableEq, Repr

structure ActionReceipt where
  receiver : AccountName
  actDigest : Digest
  (globalSequence recvSequence : UInt64)
  authSequence : List (AccountName × UInt64)
  (codeSequence abiSequence : UInt32)
deriving DecidableEq, Repr

structure ActionTrace where
  (actionOrdinal creatorActionOrdinal closestUnnotifiedAncestorActionOrdinal : ℕ)
  receipt : Option ActionReceipt
  receiver : AccountName
  act : Action
  contextFree : Bool
deriving DecidableEq, Repr

structure AccountMetadata where
  (recvSequence authSequence codeSequence abiSequence : UInt64)
deriving DecidableEq, Repr

/-- An execution of `exec_one` that has reached its receipt: the trace, the action it belongs
to as the ordinal of its first receiver, and the depth of recursion. -/
structure Executed where
  (actionOrdinal firstReceiverActionOrdinal recurseDepth : ℕ)
  receipt : ActionReceipt
deriving DecidableEq, Repr

/-- The part of the transaction context and of the chain state that executing actions changes.
The executed actions are in the order in which their receipts are digested. -/
structure TransactionContext where
  actionTraces : List ActionTrace
  executed : List Executed
  globalActionSequence : UInt64
  metadata : AccountName → Option AccountMetadata

structure ApplyContext where
  act : Action
  receiver : AccountName
  (recurseDepth firstReceiverActionOrdinal actionOrdinal : ℕ)
  contextFree : Bool
  notified : List (AccountName × ℕ)
  (inlineActions cfaInlineActions : List ℕ)
deriving DecidableEq, Repr

inductive ContractCall
  | requireRecipient (recipient : AccountName)
  | executeInline (a : Action)
  | executeContextFreeInline (a : Action)
deriving DecidableEq, Repr

/-- The chain a transaction executes on. `checkInline` stands for the checks of the
authorizations of an inline action, `code` for native handlers and contract code. -/
structure Chain where
  maxInlineActionDepth : UInt16
  (readOnly skipTrxChecks : Bool)
  isAccount : TransactionContext → AccountName → Bool
  checkInline : ApplyContext → Action → Except Failure Unit
  code : ApplyContext → TransactionContext → Except Failure (List ContractCall)
  actDigest : ApplyContext → TransactionContext → Digest

namespace TransactionContext
variable (t : TransactionContext)

def getActionTrace (actionOrdinal : ℕ) : Except Failure ActionTrace :=
  match (if 0 < actionOrdinal then t.actionTraces[actionOrdinal - 1]? else none) with
  | some trace => .ok trace
  | none => .error ⟨.transactionException,
      "action_ordinal ${ordinal} is outside allowed range [1,${max}]"⟩

/-- `schedule_action` for an action that is given. -/
def scheduleAction (act : Action) (receiver : AccountName) (contextFree : Bool)
    (creator ancestor : ℕ) : ℕ × TransactionContext :=
  let newActionOrdinal := u32 (t.actionTraces.length + 1)
  (newActionOrdinal,
    { t with
      actionTraces := t.actionTraces ++
        [⟨newActionOrdinal, creator, ancestor, none, receiver, act, contextFree⟩] })

/-- `schedule_action` for the action of another trace. -/
def scheduleCopy (actionOrdinal : ℕ) (receiver : AccountName) (contextFree : Bool)
    (creator ancestor : ℕ) : Except Failure (ℕ × TransactionContext) := do
  let provided ← t.getActionTrace actionOrdinal
  return t.scheduleAction provided.act receiver contextFree creator ancestor

/-- A read-only transaction does not count and has sequence number zero. -/
def nextGlobalSequence (readOnly : Bool) : UInt64 × TransactionContext :=
  if readOnly then (0, t)
  else (t.globalActionSequence + 1,
    { t with globalActionSequence := t.globalActionSequence + 1 })

def nextRecvSequence (readOnly : Bool) (receiver : AccountName) (account : AccountMetadata) :
    UInt64 × TransactionContext :=
  if readOnly then (0, t)
  else (account.recvSequence + 1,
    { t with
      metadata := update t.metadata receiver
        (some { account with recvSequence := account.recvSequence + 1 }) })

def nextAuthSequence (actor : AccountName) : Except Failure (UInt64 × TransactionContext) := do
  let account ← getRow (t.metadata actor)
  return (account.authSequence + 1,
    { t with
      metadata := update t.metadata actor
        (some { account with authSequence := account.authSequence + 1 }) })

end TransactionContext

def authSequences (acc : List (AccountName × UInt64) × TransactionContext)
    (auth : PermissionLevel) :
    Except Failure (List (AccountName × UInt64) × TransactionContext) := do
  let (sequence, t) ← acc.2.nextAuthSequence auth.actor
  return (assign acc.1 auth.actor sequence, t)

namespace ApplyContext
variable (chain : Chain) (c : ApplyContext) (t : TransactionContext)

def hasRecipient (code : AccountName) : Bool := c.notified.any fun p => p.1 = code

def reread : Except Failure ApplyContext := do
  let trace ← t.getActionTrace c.actionOrdinal
  return { c with act := trace.act }

def requireRecipient (recipient : AccountName) :
    Except Failure (ApplyContext × TransactionContext) :=
  if c.hasRecipient recipient then .ok (c, t)
  else do
    let (ordinal, t) ← t.scheduleCopy c.actionOrdinal recipient false c.actionOrdinal
      c.firstReceiverActionOrdinal
    let c ← c.reread t
    return ({ c with notified := c.notified ++ [(recipient, ordinal)] }, t)

def executeInline (a : Action) : Except Failure (ApplyContext × TransactionContext) := do
  eosAssert (chain.isAccount t a.account) .actionValidateException
    "inline action's code account ${account} does not exist"
  chain.checkInline c a
  let (ordinal, t) := t.scheduleAction a a.account false c.actionOrdinal
    c.firstReceiverActionOrdinal
  let c ← c.reread t
  return ({ c with inlineActions := c.inlineActions ++ [ordinal] }, t)

def executeContextFreeInline (a : Action) : Except Failure (ApplyContext × TransactionContext) := do
  eosAssert (chain.isAccount t a.account) .actionValidateException
    "inline action's code account ${account} does not exist"
  eosAssert (a.authorization.length = 0) .actionValidateException
    "context-free actions cannot have authorizations"
  let (ordinal, t) := t.scheduleAction a a.account true c.actionOrdinal c.firstReceiverActionOrdinal
  let c ← c.reread t
  return ({ c with cfaInlineActions := c.cfaInlineActions ++ [ordinal] }, t)

end ApplyContext

def ContractCall.run (chain : Chain) (ct : ApplyContext × TransactionContext) :
    ContractCall → Except Failure (ApplyContext × TransactionContext)
  | requireRecipient recipient => ct.1.requireRecipient ct.2 recipient
  | executeInline a => ct.1.executeInline chain ct.2 a
  | executeContextFreeInline a => ct.1.executeContextFreeInline chain ct.2 a

section ExecOne
variable (chain : Chain)

/-- The code of the receiver, which a replay does not run for context-free actions. -/
def runCode (ct : ApplyContext × TransactionContext) :
    Except Failure (ApplyContext × TransactionContext) :=
  if ct.1.contextFree && chain.skipTrxChecks then .ok ct
  else do
    let calls ← chain.code ct.1 ct.2
    calls.foldlM (ContractCall.run chain) ct

def TransactionContext.record (t : TransactionContext) (c : ApplyContext)
    (receipt : ActionReceipt) : TransactionContext :=
  { t with
    actionTraces := t.actionTraces.modify (c.actionOrdinal - 1) fun trace =>
      { trace with receipt := some receipt }
    executed := t.executed ++
      [⟨c.actionOrdinal, c.firstReceiverActionOrdinal, c.recurseDepth, receipt⟩] }

def writeReceipt (c : ApplyContext) (t : TransactionContext) :
    Except Failure TransactionContext := do
  let _ ← t.getActionTrace c.actionOrdinal
  let actDigest := chain.actDigest c t
  let (globalSequence, t) := t.nextGlobalSequence chain.readOnly
  let account ← getRow (t.metadata c.receiver)
  let (recvSequence, t) := t.nextRecvSequence chain.readOnly c.receiver account
  let first ← getRow (t.metadata c.act.account)
  let (authSequence, t) ← c.act.authorization.foldlM authSequences ([], t)
  return t.record c {
    receiver := c.receiver
    actDigest := actDigest
    globalSequence := globalSequence
    recvSequence := recvSequence
    authSequence := authSequence
    codeSequence := first.codeSequence.toUInt32
    abiSequence := first.abiSequence.toUInt32 }

def execOne (ct : ApplyContext × TransactionContext) :
    Except Failure (ApplyContext × TransactionContext) := do
  let _ ← getRow (ct.2.metadata ct.1.receiver)
  let (c, t) ← runCode chain ct
  let t ← writeReceipt chain c t
  return (c, t)

/-- The loop over the notified receivers from index `i` on, which may become more on the way.
The index is 32-bit. A loop that has not ended when the fuel runs out is undefined. -/
def execNotified : ℕ → ℕ → ApplyContext × TransactionContext →
    Outcome Failure (ApplyContext × TransactionContext)
  | fuel, i, (c, t) =>
    match c.notified[i]? with
    | none => .returns (c, t)
    | some (receiver, ordinal) =>
      match fuel with
      | 0 => .undefined
      | fuel + 1 => do
        let ct ← .ofExcept (execOne chain
          ({ c with receiver := receiver, actionOrdinal := ordinal }, t))
        execNotified fuel (u32 (i + 1)) ct

/-- The constructor of the context and `exec` up to its inline actions. There are at most as
many receivers as account names. -/
def execReceivers (recurseDepth ordinal : ℕ) (t : TransactionContext) :
    Outcome Failure (ApplyContext × TransactionContext) := do
  let trace ← .ofExcept (t.getActionTrace ordinal)
  let c : ApplyContext := {
    act := trace.act
    receiver := trace.receiver
    recurseDepth := recurseDepth
    firstReceiverActionOrdinal := ordinal
    actionOrdinal := ordinal
    contextFree := trace.contextFree
    notified := [(trace.receiver, ordinal)]
    inlineActions := []
    cfaInlineActions := [] }
  let ct ← .ofExcept (execOne chain (c, t))
  execNotified chain (2 ^ 64) 1 ct

def execInline (execute : TransactionContext → ℕ → Outcome Failure TransactionContext)
    (c : ApplyContext) (t : TransactionContext) : Outcome Failure TransactionContext :=
  if c.cfaInlineActions = [] ∧ c.inlineActions = [] then .returns t
  else do
    .ofExcept (eosAssert (c.recurseDepth < chain.maxInlineActionDepth.toNat)
      .transactionException "max inline action depth per transaction reached")
    (c.cfaInlineActions ++ c.inlineActions).foldlM execute t

/-- `execute_action` at a depth, with the levels of recursion that are left. -/
def executeAction : ℕ → ℕ → TransactionContext → ℕ → Outcome Failure TransactionContext
  | 0, recurseDepth, t, ordinal => do
    let (c, t) ← execReceivers chain recurseDepth ordinal t
    execInline chain (fun _ _ => .undefined) c t
  | levels + 1, recurseDepth, t, ordinal => do
    let (c, t) ← execReceivers chain recurseDepth ordinal t
    execInline chain (executeAction levels (recurseDepth + 1)) c t

end ExecOne

/-- The parts of a transaction its execution reads. A list of actions is unpacked with at most
`MAX_NUM_ARRAY_ELEMENTS` elements. -/
structure Transaction where
  (contextFreeActions actions : List Action)
  delay : ℤ
  applyContextFree : Bool
  length_contextFreeActions : contextFreeActions.length ≤ 1024 * 1024
  length_actions : actions.length ≤ 1024 * 1024

def scheduleAll (contextFree : Bool) (t : TransactionContext) (actions : List Action) :
    TransactionContext :=
  actions.foldl (fun t act => (t.scheduleAction act act.account contextFree 0 0).2) t

def Transaction.schedule (trx : Transaction) (t : TransactionContext) : TransactionContext :=
  let t := if trx.applyContextFree then scheduleAll true t trx.contextFreeActions else t
  if trx.delay = 0 then scheduleAll false t trx.actions else t

/-- `transaction_context::exec`, on an initialized context. -/
def Transaction.exec (chain : Chain) (trx : Transaction) (t : TransactionContext) :
    Outcome Failure TransactionContext := do
  let t := trx.schedule t
  let numOriginalActionsToExecute := u32 t.actionTraces.length
  let t ← (List.range' 1 numOriginalActionsToExecute).foldlM
    (executeAction chain chain.maxInlineActionDepth.toNat 0) t
  .ofExcept (eosAssert (trx.delay = 0) .transactionException "transaction cannot be delayed")
  return t

end FlonCore.Execution
