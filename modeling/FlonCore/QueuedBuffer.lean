import FlonCore.Types

/-!
# The write queue of a connection

Synchronisation messages and real-time messages wait in two queues under one counter of bytes.
A call that fills the buffers for the socket empties one of the queues, the real-time one only
when no synchronisation message waits.
-/

namespace FlonCore

open List UInt32
abbrev Buffer := List UInt8

structure QueuedBuffer where
  writeQueueSize : UInt32 := 0
  (writeQueue syncWriteQueue outQueue : List Buffer := [])

namespace QueuedBuffer
variable (q : QueuedBuffer)

def clearWriteQueue : QueuedBuffer :=
  { q with writeQueue := [], syncWriteQueue := [], writeQueueSize := 0 }

def clearOutQueue : QueuedBuffer := { q with outQueue := [] }

def defMaxWriteQueueSize : UInt32 := 1024 * 1024 * 4 * 10

def addWriteQueue (buff : Buffer) (toSyncQueue : Bool) : Bool × QueuedBuffer :=
  let pushed :=
    if toSyncQueue then { q with syncWriteQueue := q.syncWriteQueue ++ [buff] }
    else { q with writeQueue := q.writeQueue ++ [buff] }
  let size := pushed.writeQueueSize + .ofNat buff.length
  (¬ size > 2 * defMaxWriteQueueSize, { pushed with writeQueueSize := size })

/-- The loop over the queue that is sent: the size, the buffers and the out queue after it. -/
def drain : List Buffer → UInt32 → List Buffer → List Buffer → UInt32 × List Buffer × List Buffer
  | [], size, bufs, out => (size, bufs, out)
  | m :: queue, size, bufs, out =>
    drain queue (size - .ofNat m.length) (bufs ++ [m]) (out ++ [m])

def fillOutBuffer (bufs : List Buffer) : Except Failure Unit × List Buffer × QueuedBuffer :=
  if q.syncWriteQueue ≠ [] then
    let (size, bufs, out) := drain q.syncWriteQueue q.writeQueueSize bufs q.outQueue
    (.ok (), bufs, { q with syncWriteQueue := [], writeQueueSize := size, outQueue := out })
  else
    let (size, bufs, out) := drain q.writeQueue q.writeQueueSize bufs q.outQueue
    (eosAssert (size == 0) .pluginException "write queue size expected to be zero", bufs,
      { q with writeQueue := [], writeQueueSize := size, outQueue := out })

inductive Call
  | addWriteQueue (buff : Buffer) (toSyncQueue : Bool)
  | fillOutBuffer
  | clearWriteQueue
  | clearOutQueue

inductive Fate
  | handedOut
  | cleared

/-- The queue named by `toSyncQueue`. -/
def queue (toSyncQueue : Bool) : List Buffer :=
  if toSyncQueue then q.syncWriteQueue else q.writeQueue

/-- A connection with what happened to it: for either queue the buffers added to it, and those that
have left it, in order. -/
structure History where
  buffer : QueuedBuffer := {}
  added : Bool → List Buffer := fun _ => []
  left : Bool → List (Buffer × Fate) := fun _ => []

def History.step (h : History) : Call → History
  | .addWriteQueue buff toSyncQueue =>
    { h with
      buffer := (h.buffer.addWriteQueue buff toSyncQueue).2
      added := fun sync => if sync = toSyncQueue then h.added sync ++ [buff] else h.added sync }
  | .fillOutBuffer =>
    let (_, bufs, filled) := h.buffer.fillOutBuffer []
    let drained : Bool := h.buffer.syncWriteQueue ≠ []
    { h with
      buffer := filled
      left := fun sync =>
        if sync = drained then h.left sync ++ bufs.map (·, .handedOut) else h.left sync }
  | .clearWriteQueue =>
    { h with
      buffer := h.buffer.clearWriteQueue
      left := fun sync => h.left sync ++ (h.buffer.queue sync).map (·, .cleared) }
  | .clearOutQueue => { h with buffer := h.buffer.clearOutQueue }

def queuedSize : ℕ := (q.queue true ++ q.queue false).flatten.length

/-- The counter is right modulo its range, and a buffer that was added has left or waits. -/
structure Accounted (h : History) : Prop where
  size : h.buffer.writeQueueSize = .ofNat h.buffer.queuedSize
  added : ∀ sync, h.added sync = (h.left sync).map Prod.fst ++ h.buffer.queue sync

variable {q} {h : History}

theorem drain_eq (l : List Buffer) (n : ℕ) (bufs out : List Buffer) :
    drain l (.ofNat (l.flatten.length + n)) bufs out = (.ofNat n, bufs ++ l, out ++ l) := by
  induction l generalizing bufs out with
  | nil => simp [drain]
  | cons m l ih =>
    have hsize : UInt32.ofNat ((m :: l).flatten.length + n) - .ofNat m.length =
        .ofNat (l.flatten.length + n) := by
      rw [flatten_cons, length_append, Nat.add_assoc, ofNat_add, UInt32.add_comm,
        UInt32.add_sub_cancel]
    rw [drain, hsize, ih, append_assoc, append_assoc]
    rfl

theorem queuedSize_eq : q.queuedSize = q.syncWriteQueue.flatten.length +
    q.writeQueue.flatten.length := by
  simp [queuedSize, queue]

/-- What a call that fills the buffers does while the counter is right. -/
theorem fillOutBuffer_eq (hsize : q.writeQueueSize = .ofNat q.queuedSize) (bufs : List Buffer) :
    ∃ drained : Bool, drained = decide (q.syncWriteQueue ≠ []) ∧ ∃ filled,
      q.fillOutBuffer bufs = (.ok (), bufs ++ q.queue drained, filled) ∧
      filled.writeQueueSize = .ofNat filled.queuedSize ∧
      ∀ sync, filled.queue sync = if sync = drained then [] else q.queue sync := by
  rw [queuedSize_eq] at hsize
  refine ⟨_, rfl, ?_⟩
  unfold fillOutBuffer
  by_cases hsync : q.syncWriteQueue = []
  · have hdrain := drain_eq q.writeQueue 0 bufs q.outQueue
    rw [hsync, flatten_nil, length_nil, Nat.add_comm] at hsize
    rw [if_neg (not_not.mpr hsync), hsize, hdrain]
    exact ⟨_, by simp [hsync, queue, eosAssert]; rfl, by simp [queuedSize, queue],
      by simp [queue, hsync]⟩
  · rw [if_pos hsync, hsize, drain_eq]
    exact ⟨_, by simp [hsync, queue]; rfl, by simp [queuedSize, queue], by simp [queue, hsync]⟩

theorem addWriteQueue_queue (buff : Buffer) (toSyncQueue sync : Bool) :
    (q.addWriteQueue buff toSyncQueue).2.queue sync =
      if sync = toSyncQueue then q.queue sync ++ [buff] else q.queue sync := by
  cases sync <;> cases toSyncQueue <;> rfl

theorem addWriteQueue_queuedSize (buff : Buffer) (toSyncQueue : Bool) :
    (q.addWriteQueue buff toSyncQueue).2.queuedSize = q.queuedSize + buff.length := by
  cases toSyncQueue <;> simp [queuedSize, addWriteQueue_queue] <;> omega

theorem Accounted.step (hacc : Accounted h) (c : Call) : Accounted (h.step c) := by
  cases c with
  | addWriteQueue buff toSyncQueue =>
    constructor
    · rw [History.step, addWriteQueue_queuedSize, ofNat_add, ← hacc.size]
      cases toSyncQueue <;> rfl
    · intro sync
      simp only [History.step, addWriteQueue_queue, hacc.added sync]
      split_ifs
      · rw [append_assoc]
      · rfl
  | fillOutBuffer =>
    obtain ⟨drained, hdrained, filled, hfill, hsize, hqueue⟩ := fillOutBuffer_eq hacc.size []
    constructor
    · simp only [History.step, hfill]
      exact hsize
    · intro sync
      simp only [History.step, hfill, hqueue, ← hdrained, hacc.added sync]
      split_ifs with hsync
      · simp [hsync, Function.comp_def]
      · rfl
  | clearWriteQueue =>
    refine ⟨rfl, fun sync => ?_⟩
    have hempty : (h.buffer.clearWriteQueue).queue sync = [] := by
      cases sync <;> rfl
    simp only [History.step, hempty, hacc.added sync]
    simp [Function.comp_def]
  | clearOutQueue => exact ⟨hacc.size, hacc.added⟩

theorem write_queue_accounted (calls : List Call) :
    let h := calls.foldl History.step {}
    (h.buffer.queuedSize < 2 ^ 32 → h.buffer.writeQueueSize.toNat = h.buffer.queuedSize) ∧
      (∀ bufs, (h.buffer.fillOutBuffer bufs).1 = .ok ()) ∧
      ∀ sync, h.added sync = (h.left sync).map Prod.fst ++ h.buffer.queue sync := by
  have hrun : ∀ h, Accounted h → Accounted (calls.foldl History.step h) := by
    induction calls with
    | nil => exact fun _ h => h
    | cons c calls ih => exact fun h hacc => ih _ (hacc.step c)
  have hacc := hrun {} ⟨rfl, fun sync => by cases sync <;> rfl⟩
  refine ⟨fun hlt => ?_, fun bufs => ?_, hacc.added⟩
  · rw [hacc.size, toNat_ofNat_of_lt' hlt]
  · obtain ⟨_, -, _, hfill, -, -⟩ := fillOutBuffer_eq hacc.size bufs
    rw [hfill]

end QueuedBuffer
end FlonCore
