import Mathlib.Tactic

/-!
# The queue of the history worker

Producers, the single worker thread and one call of `stop` change the queue in critical
sections under one mutex. A schedule is the list of these sections in the order in which the
mutex was taken; a producer or the worker whose condition does not hold yet stays blocked and
changes nothing.
-/

namespace FlonCore

open UInt64
structure AsyncWorker where
  pendingTaskLimit : UInt64 := 10000
  pendingByteLimit : UInt64 := 268435456

namespace AsyncWorker

structure QueuedTask where
  task : ℕ
  retainedBytes : UInt64

inductive WorkerThread
  | waiting
  | running (queued : QueuedTask)
  | finished

structure State where
  tasks : List QueuedTask := []
  pendingBytes : UInt64 := 0
  /-- `stopping_`, with the `drain` of the call that set it -/
  stopping : Option Bool := none
  stopReturned : Bool := false
  thread : WorkerThread := .waiting
  -- what happened so far: tasks that were accepted, that have run and that `stop` discarded
  accepted : List QueuedTask := []
  ran : List QueuedTask := []
  discarded : List QueuedTask := []

def State.push (s : State) (t : QueuedTask) : State :=
  { s with
    tasks := s.tasks ++ [t]
    pendingBytes := s.pendingBytes + t.retainedBytes
    accepted := s.accepted ++ [t] }

variable (w : AsyncWorker) (s : State) (t : QueuedTask)

/-- `none` while the caller waits for `queue_not_full_`. -/
def enqueueWithBackpressure : Option (Bool × State) :=
  if w.pendingByteLimit < t.retainedBytes then some (false, s)
  else if s.stopping.isSome ∨ s.tasks.length < w.pendingTaskLimit.toNat ∧
      s.pendingBytes ≤ w.pendingByteLimit - t.retainedBytes then
    if s.stopping.isSome then some (false, s) else some (true, s.push t)
  else none

def enqueue : Option (Except String Unit × State) :=
  if w.pendingByteLimit < t.retainedBytes then
    some (.error "task exceeds async_worker byte budget", s)
  else (enqueueWithBackpressure w s t).map fun
    | (true, s') => (.ok (), s')
    | (false, s') => (.error "enqueue on stopped async_worker", s')

def tryEnqueue : Bool × State :=
  if w.pendingByteLimit < t.retainedBytes then (false, s)
  else if s.stopping.isSome ∨ w.pendingTaskLimit.toNat ≤ s.tasks.length ∨
      w.pendingByteLimit - t.retainedBytes < s.pendingBytes then (false, s)
  else (true, s.push t)

/-- One round of the loop of `worker_thread`, up to the call of the task. -/
def State.dequeue : State :=
  match s.thread, s.tasks with
  | .waiting, [] => if s.stopping.isSome then { s with thread := .finished } else s
  | .waiting, t :: rest =>
    { s with
      tasks := rest
      pendingBytes := s.pendingBytes - t.retainedBytes
      thread := .running t }
  | _, _ => s

/-- The task returns or throws: the loop goes on in both cases. -/
def State.finishTask : State :=
  match s.thread with
  | .running t => { s with thread := .waiting, ran := s.ran ++ [t] }
  | _ => s

def State.stop (drain : Bool) : State :=
  if s.stopping.isSome then s
  else if drain then { s with stopping := some true }
  else { s with
    stopping := some false, tasks := [], pendingBytes := 0, discarded := s.discarded ++ s.tasks }

/-- The end of `stop`, once the worker thread is joined. -/
def State.stopReturns : State :=
  match s.stopping, s.thread with
  | some _, .finished => { s with
      stopReturned := true, tasks := [], pendingBytes := 0, discarded := s.discarded ++ s.tasks }
  | _, _ => s

inductive Section
  | enqueue (t : QueuedTask)
  | enqueueWithBackpressure (t : QueuedTask)
  | tryEnqueue (t : QueuedTask)
  | dequeue
  | finishTask
  | stop (drain : Bool)
  | stopReturns

def step : Section → State
  | .enqueue t => ((w.enqueue s t).map Prod.snd).getD s
  | .enqueueWithBackpressure t => ((w.enqueueWithBackpressure s t).map Prod.snd).getD s
  | .tryEnqueue t => (w.tryEnqueue s t).2
  | .dequeue => s.dequeue
  | .finishTask => s.finishTask
  | .stop drain => s.stop drain
  | .stopReturns => s.stopReturns

def bytes (tasks : List QueuedTask) : ℕ := (tasks.map (·.retainedBytes.toNat)).sum

def WorkerThread.started : WorkerThread → List QueuedTask
  | .running t => [t]
  | _ => []

structure Accounted : Prop where
  pendingBytes : s.pendingBytes.toNat = bytes s.tasks
  tasks_le : s.tasks.length ≤ w.pendingTaskLimit.toNat
  bytes_le : bytes s.tasks ≤ w.pendingByteLimit.toNat
  -- nothing is lost: what was accepted has run, runs, waits or was discarded, in this order
  accepted : s.accepted = s.ran ++ s.thread.started ++ s.tasks ++ s.discarded
  discarded : s.stopping ≠ some false → s.discarded = []
  cleared : s.stopping = some false → s.tasks = []
  finished : s.thread = .finished → s.stopping.isSome ∧ s.tasks = []
  returned : s.stopReturned → s.thread = .finished

variable {w s}

def Room (w : AsyncWorker) (s : State) (t : QueuedTask) : Prop :=
  s.stopping = none ∧ t.retainedBytes ≤ w.pendingByteLimit ∧
    s.tasks.length < w.pendingTaskLimit.toNat ∧
    s.pendingBytes ≤ w.pendingByteLimit - t.retainedBytes

theorem Accounted.push {t : QueuedTask} (h : w.Accounted s) (hroom : w.Room s t) :
    w.Accounted (s.push t) := by
  obtain ⟨hrunning, hfits, htasks, hbytes⟩ := hroom
  rw [le_iff_toNat_le, UInt64.toNat_sub_of_le _ _ hfits, h.pendingBytes] at hbytes
  rw [le_iff_toNat_le] at hfits
  have hlimit := w.pendingByteLimit.toNat_lt
  have hsum : bytes (s.tasks ++ [t]) = bytes s.tasks + t.retainedBytes.toNat := by simp [bytes]
  have hdiscarded := h.discarded (by simp [hrunning])
  constructor
  case pendingBytes =>
    change (s.pendingBytes + t.retainedBytes).toNat = bytes (s.tasks ++ [t])
    rw [UInt64.toNat_add, h.pendingBytes, hsum, Nat.mod_eq_of_lt (by omega)]
  case tasks_le => simpa [State.push, Nat.succ_le_iff] using htasks
  case bytes_le =>
    change bytes (s.tasks ++ [t]) ≤ _
    omega
  case accepted => simp [State.push, h.accepted, hdiscarded]
  case discarded => exact h.discarded
  case cleared => exact fun hstop => absurd (hrunning.symm.trans hstop) (by simp)
  case finished => exact fun hend => by simpa [hrunning] using h.finished hend
  case returned => exact h.returned

theorem enqueueWithBackpressure_cases {t : QueuedTask} {r : Bool × State}
    (h : w.enqueueWithBackpressure s t = some r) : r.2 = s ∨ w.Room s t ∧ r.2 = s.push t := by
  unfold enqueueWithBackpressure at h
  split_ifs at h with hlarge hready hstop
  · exact .inl (by rw [← Option.some.inj h])
  · exact .inl (by rw [← Option.some.inj h])
  · refine .inr ⟨⟨?_, UInt64.not_lt.mp hlarge, hready.resolve_left hstop⟩,
      by rw [← Option.some.inj h]⟩
    simpa using hstop

theorem tryEnqueue_cases :
    (w.tryEnqueue s t).2 = s ∨ w.Room s t ∧ (w.tryEnqueue s t).2 = s.push t := by
  unfold tryEnqueue
  split_ifs with hlarge hfull
  · exact .inl rfl
  · exact .inl rfl
  · obtain ⟨hstop, hfull⟩ := not_or.mp hfull
    obtain ⟨htasks, hbytes⟩ := not_or.mp hfull
    exact .inr ⟨⟨by simpa using hstop, UInt64.not_lt.mp hlarge, Nat.lt_of_not_le htasks,
      UInt64.not_lt.mp hbytes⟩, rfl⟩

theorem Accounted.dequeue (h : w.Accounted s) : w.Accounted s.dequeue := by
  unfold State.dequeue
  split
  case h_1 hthread htasks =>
    split_ifs with hstop
    · exact { h with
        accepted := by simp [h.accepted, hthread, WorkerThread.started]
        finished := fun _ => ⟨hstop, htasks⟩
        returned := fun _ => rfl }
    · exact h
  case h_2 t rest hthread htasks =>
    have hbytes := h.pendingBytes
    have hle := h.bytes_le
    have hlen := h.tasks_le
    have hsum : bytes (t :: rest) = t.retainedBytes.toNat + bytes rest := by simp [bytes]
    rw [htasks, hsum] at hbytes hle
    rw [htasks] at hlen
    have hrest : bytes rest ≤ w.pendingByteLimit.toNat := by omega
    refine ⟨?_, Nat.le_of_succ_le hlen, hrest, ?_, h.discarded, fun hstop => ?_, by simp,
      fun hreturned => ?_⟩
    · change (s.pendingBytes - t.retainedBytes).toNat = bytes rest
      rw [UInt64.toNat_sub_of_le _ _ (le_iff_toNat_le.mpr (by omega))]
      omega
    · simp [h.accepted, hthread, htasks, WorkerThread.started]
    · exact absurd (htasks.symm.trans (h.cleared hstop)) (by simp)
    · exact absurd (hthread.symm.trans (h.returned hreturned)) (by simp)
  case h_3 => exact h

theorem Accounted.finishTask (h : w.Accounted s) : w.Accounted s.finishTask := by
  unfold State.finishTask
  split
  case h_1 t hthread =>
    exact { h with
      accepted := by simp [h.accepted, hthread, WorkerThread.started]
      finished := by simp
      returned := fun hreturned => absurd (hthread.symm.trans (h.returned hreturned)) (by simp) }
  case h_2 => exact h

theorem Accounted.stop (h : w.Accounted s) (drain : Bool) : w.Accounted (s.stop drain) := by
  unfold State.stop
  split_ifs with hstop hdrain
  · exact h
  · exact { h with
      discarded := fun _ => h.discarded (by simpa using fun heq => hstop (by simp [heq]))
      cleared := by simp
      finished := fun hend => absurd (h.finished hend).1 hstop }
  · have hnone : s.stopping = none := by simpa using hstop
    exact { h with
      pendingBytes := rfl
      tasks_le := by simp
      bytes_le := by simp [bytes]
      accepted := by simp [h.accepted, h.discarded (by simp [hnone])]
      discarded := by simp
      cleared := fun _ => rfl
      finished := fun _ => ⟨rfl, rfl⟩ }

theorem Accounted.stopReturns (h : w.Accounted s) : w.Accounted s.stopReturns := by
  unfold State.stopReturns
  split
  case h_1 hthread =>
    have htasks := (h.finished hthread).2
    exact { h with
      pendingBytes := rfl
      tasks_le := by simp
      bytes_le := by simp [bytes]
      accepted := by simp [h.accepted, htasks]
      discarded := fun hne => by simpa [htasks] using h.discarded hne
      cleared := fun _ => rfl
      finished := fun hend => ⟨(h.finished hend).1, rfl⟩
      returned := fun _ => hthread }
  case h_2 => exact h

theorem Accounted.step (h : w.Accounted s) (x : Section) : w.Accounted (w.step s x) := by
  have hcases : ∀ {s' : State} {t : QueuedTask}, s' = s ∨ w.Room s t ∧ s' = s.push t →
      w.Accounted s' := by
    rintro s' t (rfl | ⟨hroom, rfl⟩)
    · exact h
    · exact h.push hroom
  cases x with
  | enqueue t =>
    unfold AsyncWorker.step AsyncWorker.enqueue
    dsimp only
    split_ifs
    · exact h
    · cases hcall : w.enqueueWithBackpressure s t with
      | none => exact h
      | some r =>
        obtain ⟨_ | _, s'⟩ := r <;> exact hcases (enqueueWithBackpressure_cases hcall)
  | enqueueWithBackpressure t =>
    unfold AsyncWorker.step
    dsimp only
    cases hcall : w.enqueueWithBackpressure s t with
    | none => exact h
    | some r => exact hcases (enqueueWithBackpressure_cases hcall)
  | tryEnqueue t => exact hcases (tryEnqueue_cases t)
  | dequeue => exact h.dequeue
  | finishTask => exact h.finishTask
  | stop drain => exact h.stop drain
  | stopReturns => exact h.stopReturns

end AsyncWorker
end FlonCore
