import TfReading.Library.Runs

/-!
# The queue of a shared batch scheduler

`batching_util/shared_batch_scheduler.h` with the batches of `batch_scheduler.h`.  Every call
takes the queue's mutex once, so that a run is a sequence of calls, and the clock is read afresh
wherever the source calls `NowMicros`.  Tracing and the callback that wakes a batch thread are
left out.
-/

namespace TfReading.BatchScheduler

inductive Status
  | ok
  | invalidArgument (message : String)
  | unavailable (message : String)
  | internal (message : String)
deriving DecidableEq, Repr

class BatchTask (Task : Type) where
  size : Task → UInt64

export BatchTask (size)

structure Batch (Task : Type) where
  tasks : List Task := []
  size : UInt64 := 0
  closed : Bool := false
deriving DecidableEq

/-- `split_input_task_func`, given what makes an allocation fail.  `none` is a call that never
returns. -/
abbrev Splitter (Task : Type) :=
  Option String → Task → Int32 → Int32 → Option (Except Status (List Task))

/-- `QueueOptions` -/
structure Options (Task : Type) where
  inputBatchSizeLimit : UInt64
  batchTimeoutMicros : Int64
  maxEnqueuedBatches : UInt64
  enableLargeBatchSplitting : Bool
  splitInputTaskFunc : Option (Splitter Task)
  maxExecutionBatchSize : UInt64

structure Queue (Task : Type) where
  closed : Bool := false
  batches : List (Batch Task) := [{}]
  openBatchStartTimeMicros : UInt64 := 0
  schedulableBatch : Bool := false
  numBatchesBeingProcessed : Int := 0
  /-- Whether the notification of `CloseAndWaitUntilEmpty` was given, if there is one. -/
  emptyNotification : Option Bool := none

/-- A status, with what the caller's pointer and the queue are left with. -/
structure Reply (Task : Type) where
  status : Status
  task : Option Task
  queue : Queue Task

variable {Task : Type}

namespace Batch

def empty (b : Batch Task) : Bool := b.tasks.isEmpty

def addTask [BatchTask Task] (b : Batch Task) (task : Task) : Batch Task :=
  { b with size := b.size + BatchTask.size task, tasks := b.tasks ++ [task] }

def close (b : Batch Task) : Batch Task := { b with closed := true }

end Batch

/-- `Queue::max_execution_batch_size` -/
def Options.executionBatchSize (o : Options Task) : UInt64 :=
  if o.enableLargeBatchSplitting then o.maxExecutionBatchSize else o.inputBatchSizeLimit

namespace Queue

def back (q : Queue Task) : Batch Task := q.batches.getLastD {}

def isEmptyInternal (q : Queue Task) : Bool :=
  q.numBatchesBeingProcessed == 0 && q.batches.length == 1 && q.back.empty

def startNewBatch (q : Queue Task) : Queue Task :=
  { q with batches := q.batches.dropLast ++ [q.back.close, {}] }

def isOpenBatchSchedulable (o : Options Task) (q : Queue Task) (now : UInt64) : Bool :=
  if q.back.empty then false
  else q.closed || decide (o.executionBatchSize ≤ q.back.size) ||
    decide (q.openBatchStartTimeMicros + o.batchTimeoutMicros.toUInt64 ≤ now)

/-- A task goes into the open batch, whose start time is taken with its first task. -/
def addToOpenBatch [BatchTask Task] (q : Queue Task) (now : UInt64) (task : Task) : Queue Task :=
  { q with
    openBatchStartTimeMicros := if q.back.empty then now else q.openBatchStartTimeMicros
    batches := q.batches.dropLast ++ [q.back.addTask task] }

/-- What both variants of `Schedule` do last. -/
def noteSchedulable (o : Options Task) (q : Queue Task) (now : UInt64) : Queue Task :=
  if !q.schedulableBatch && (decide (1 < q.batches.length) || isOpenBatchSchedulable o q now) then
    { q with schedulableBatch := true }
  else q

def tooLarge [BatchTask Task] (o : Options Task) (task : Task) : Status :=
  .invalidArgument ("Task size " ++ toString (size task) ++
    " is larger than maximum input batch size " ++ toString o.inputBatchSizeLimit)

def full : Status :=
  .unavailable "The batch scheduling queue to which this task was submitted is full"

def scheduleWithoutSplit [BatchTask Task] (o : Options Task) (q : Queue Task)
    (clock : Nat → UInt64) (task : Task) : Reply Task :=
  if o.inputBatchSizeLimit < size task then ⟨tooLarge o task, some task, q⟩
  else
    let accept (q : Queue Task) : Reply Task :=
      ⟨.ok, none, noteSchedulable o (q.addToOpenBatch (clock 0) task) (clock 1)⟩
    if o.inputBatchSizeLimit < q.back.size + size task then
      if o.maxEnqueuedBatches ≤ UInt64.ofNat q.batches.length then ⟨full, some task, q⟩
      else accept q.startNewBatch
    else accept q

def toInt (n : UInt64) : Int32 := n.toInt64.toInt32

def toSizeT (n : Int32) : UInt64 := n.toInt64.toUInt64

def schedulingCapacity (o : Options Task) (q : Queue Task) : Int32 :=
  let maxExecutionBatchSize := toInt o.maxExecutionBatchSize
  let numNewBatchesSchedulable :=
    toInt (o.maxEnqueuedBatches - UInt64.ofNat q.batches.length)
  let openBatchCapacity := toInt (toSizeT maxExecutionBatchSize - q.back.size)
  numNewBatchesSchedulable * maxExecutionBatchSize + openBatchCapacity

def addOutputTask [BatchTask Task] (o : Options Task) (q : Queue Task) (now : UInt64)
    (task : Task) : Queue Task :=
  let q := if o.maxExecutionBatchSize < q.back.size + size task then q.startNewBatch else q
  q.addToOpenBatch now task

def addOutputTasks [BatchTask Task] (o : Options Task) :
    (Nat → UInt64) → Queue Task → List Task → Queue Task
  | _, q, [] => q
  | clock, q, task :: tasks =>
    addOutputTasks o (fun i => clock (i + 1)) (addOutputTask o q (clock 0) task) tasks

/-- `ScheduleWithSplit`.  A task that is split is left with the caller, although the queue holds
its parts. -/
def scheduleWithSplit [BatchTask Task] (o : Options Task) (q : Queue Task) (clock : Nat → UInt64)
    (allocation : Option String) (task : Task) : Option (Reply Task) :=
  if o.inputBatchSizeLimit < size task then some ⟨tooLarge o task, some task, q⟩
  else if toSizeT (schedulingCapacity o q) < size task then some ⟨full, some task, q⟩
  else
    let openBatchRemainingSlot :=
      (toSizeT (toInt o.maxExecutionBatchSize) - q.back.size).toInt64
    let accept (outputTasks : List Task) : Queue Task :=
      noteSchedulable o (addOutputTasks o clock q outputTasks) (clock outputTasks.length)
    if (size task).toInt64 ≤ openBatchRemainingSlot then some ⟨.ok, none, accept [task]⟩
    else
      o.splitInputTaskFunc.bind fun split =>
        (split allocation task (toInt (o.executionBatchSize - q.back.size))
          (toInt o.executionBatchSize)).map fun
            | .error status => ⟨status, some task, q⟩
            | .ok outputTasks => ⟨.ok, some task, accept outputTasks⟩

def schedule [BatchTask Task] (o : Options Task) (q : Queue Task) (clock : Nat → UInt64)
    (allocation : Option String) (task : Task) : Option (Reply Task) :=
  if o.enableLargeBatchSplitting then scheduleWithSplit o q clock allocation task
  else some (scheduleWithoutSplit o q clock task)

def scheduleBatch (o : Options Task) (q : Queue Task) (now : UInt64) :
    Option (Batch Task) × Queue Task :=
  let q := if q.batches.length == 1 && isOpenBatchSchedulable o q now then q.startNewBatch else q
  if 2 ≤ q.batches.length then
    (q.batches.head?, { q with
      numBatchesBeingProcessed := q.numBatchesBeingProcessed + 1
      batches := q.batches.tail })
  else (none, { q with schedulableBatch := false })

def processBatch (q : Queue Task) : Queue Task :=
  let q := { q with numBatchesBeingProcessed := q.numBatchesBeingProcessed - 1 }
  if q.emptyNotification.isSome && q.isEmptyInternal then { q with emptyNotification := some true }
  else q

/-- `CloseAndWaitUntilEmpty`, up to the wait. -/
def closeAndWaitUntilEmpty (q : Queue Task) : Queue Task :=
  let q := { q with closed := true }
  if q.isEmptyInternal then q else { q with emptyNotification := some false }

end Queue

/-! ## Runs -/

structure Run (Task : Type) where
  queue : Queue Task := {}
  accepted : List Task := []
  handedOut : List (Batch Task) := []

inductive Call (Task : Type)
  | schedule (task : Task) (clock : Nat → UInt64) (allocation : Option String)
  | scheduleBatch (now : UInt64)
  | processBatch (batch : Batch Task)
  | closeAndWaitUntilEmpty

/-- A batch thread processes what it was handed. -/
def Call.Legal (s : Run Task) : Call Task → Prop
  | .processBatch batch => batch ∈ s.handedOut
  | _ => True

def Run.next [BatchTask Task] (o : Options Task) (s : Run Task) : Call Task → Option (Run Task)
  | .schedule task clock allocation =>
    (s.queue.schedule o clock allocation task).map fun r => { s with
      queue := r.queue
      accepted := if r.status = .ok then s.accepted ++ [task] else s.accepted }
  | .scheduleBatch now =>
    let r := s.queue.scheduleBatch o now
    some { s with queue := r.2, handedOut := s.handedOut ++ r.1.toList }
  | .processBatch _ => some { s with queue := s.queue.processBatch }
  | .closeAndWaitUntilEmpty => some { s with queue := s.queue.closeAndWaitUntilEmpty }

def calls [BatchTask Task] (o : Options Task) : System (Run Task) (Call Task) where
  init s := s = {}
  step s call s' := call.Legal s ∧ s.next o call = some s'

end TfReading.BatchScheduler
