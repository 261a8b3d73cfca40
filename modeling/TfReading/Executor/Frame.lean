import TfReading.Executor.Activate

/-!
# Frames and their iterations

`FrameState` of `core/common_runtime/propagator_state.cc`.  The live iterations
of a frame stand in a ring of `max_parallel_iterations + 1` slots.  A pointer to
an `IterationState` is the number of the iteration, and it dangles once the slot
of that number is cleared or reused.  `IncrementIteration` and
`CleanupIterations` call each other, so they run on fuel.
-/

namespace TfReading.Executor

inductive Fault
  /-- The iteration that `IncrementIteration` allocated is not the latest installed
  one when it is passed on to `ActivateLoopInvs` or returned. -/
  | lostIteration
  /-- Any other pointer to an iteration is null or dangling. -/
  | danglingIteration
  /-- A pointer to a frame dangles. -/
  | missingFrame
  /-- The model ran out of fuel. -/
  | outOfFuel
  deriving DecidableEq, Repr

structure IterReady where
  iterNum : Nat
  node : ReadyNode
  deriving DecidableEq, Repr

structure FrameState where
  maxParallelIterations : Nat
  numPendingInputs : Int
  iterationCount : Nat
  numOutstandingIterations : Int
  iterations : Nat → Option IterationState
  nextIterRoots : List (NodeItem × Entry)
  invValues : List (NodeItem × Entry)
  deadExits : List NodeItem

namespace FrameState

def slot (f : FrameState) (iter : Nat) : Nat := iter % (f.maxParallelIterations + 1)

def getIteration (f : FrameState) (iter : Nat) : Option IterationState := f.iterations (f.slot iter)

def setIteration (f : FrameState) (iter : Nat) (state : Option IterationState) : FrameState :=
  { f with iterations := Function.update f.iterations (f.slot iter) state }

def holds (f : FrameState) (iter : Nat) : Bool :=
  match f.getIteration iter with
  | some it => it.iterNum = iter
  | none => false

def isLatest (f : FrameState) (iter : Nat) : Bool := f.iterationCount = iter && f.holds iter

def deref (f : FrameState) (iter : Nat) : Except Fault IterationState :=
  match f.getIteration iter with
  | some it => if it.iterNum = iter then .ok it else .error .danglingIteration
  | none => .error .danglingIteration

def new (g : Graph) (parallelIters inputCount : Nat) : FrameState where
  maxParallelIterations := parallelIters
  numPendingInputs := inputCount
  iterationCount := 0
  numOutstandingIterations := 1
  iterations := Function.update (fun _ => none) 0 (some (IterationState.new g 0))
  nextIterRoots := []
  invValues := []
  deadExits := []

def isIterationDone (f : FrameState) (it : IterationState) : Bool :=
  it.outstandingOps = 0 && it.outstandingFrameCount = 0 &&
    (if it.iterNum = 0 then decide (f.numPendingInputs = 0)
     else (f.getIteration (it.iterNum - 1)).isNone)

def isFrameDone (f : FrameState) : Bool :=
  f.numPendingInputs = 0 && f.numOutstandingIterations = 0

def activateNodesLocked (g : Graph) (f : FrameState) (item : NodeItem) (isDead : Bool)
    (iter : Nat) (outputs : List Entry) : Except Fault (FrameState × List IterReady) := do
  let it ← f.deref iter
  let activated := it.activateNodes g item isDead outputs
  return (f.setIteration iter (some activated.1), activated.2.map (IterReady.mk iter))

/-- The loop over stored values in `ActivateNexts` and `ActivateLoopInvs`. -/
def activateEach (g : Graph) (iter : Nat) :
    FrameState → List (NodeItem × Entry) → Except Fault (FrameState × List IterReady)
  | f, [] => .ok (f, [])
  | f, (item, entry) :: rest => do
    let (f₁, ready₁) ← activateNodesLocked g f item entry.isNoValue iter [entry]
    let (f₂, ready₂) ← activateEach g iter f₁ rest
    return (f₂, ready₁ ++ ready₂)

/-- The allocation of the next iteration in `IncrementIteration`. -/
def allocateIteration (g : Graph) (f : FrameState) : FrameState :=
  { ({ f with iterationCount := f.iterationCount + 1 }).setIteration (f.iterationCount + 1)
      (some (IterationState.new g (f.iterationCount + 1))) with
    numOutstandingIterations := f.numOutstandingIterations + 1
    deadExits := [] }

def deleteIteration (f : FrameState) (iter : Nat) : FrameState :=
  { f.setIteration iter none with numOutstandingIterations := f.numOutstandingIterations - 1 }

mutual

def incrementIteration (g : Graph) :
    Nat → FrameState → Except Fault (FrameState × List IterReady)
  | 0, _ => .error .outOfFuel
  | fuel + 1, f => do
    let nextIter := f.iterationCount + 1
    -- activate the successors of the deferred roots in the new iteration
    let (f₁, ready₁) ← activateNexts g fuel (f.allocateIteration g) nextIter
    if !f₁.isLatest nextIter then .error .lostIteration
    -- activate the loop invariants in the new iteration
    let (f₂, ready₂) ← activateLoopInvs g fuel f₁ nextIter
    if !f₂.isLatest nextIter then .error .lostIteration
    return (f₂, ready₁ ++ ready₂)

def activateNexts (g : Graph) :
    Nat → FrameState → Nat → Except Fault (FrameState × List IterReady)
  | 0, _, _ => .error .outOfFuel
  | fuel + 1, f, iter => do
    let (f₁, ready₁) ← activateEach g iter f f.nextIterRoots
    let (_, f₂, ready₂) ← adjustOutstandingOpsLocked g fuel { f₁ with nextIterRoots := [] }
      iter ready₁.length
    return (f₂, ready₁ ++ ready₂)

def activateLoopInvs (g : Graph) :
    Nat → FrameState → Nat → Except Fault (FrameState × List IterReady)
  | 0, _, _ => .error .outOfFuel
  | fuel + 1, f, iter => do
    let (f₁, ready₁) ← activateEach g iter f f.invValues
    let (_, f₂, ready₂) ← adjustOutstandingOpsLocked g fuel f₁ iter ready₁.length
    return (f₂, ready₁ ++ ready₂)

/-- The flag says whether the frame is done. -/
def adjustOutstandingOpsLocked (g : Graph) :
    Nat → FrameState → Nat → Int → Except Fault (Bool × FrameState × List IterReady)
  | 0, _, _, _ => .error .outOfFuel
  | fuel + 1, f, iter, delta => do
    let it ← f.deref iter
    let f₁ := f.setIteration iter
      (some { it with outstandingOps := it.outstandingOps + delta })
    if it.outstandingOps + delta ≠ 0 then return (false, f₁, [])
    cleanupIterations g fuel f₁ iter

/-- One call runs one round of the loop. -/
def cleanupIterations (g : Graph) :
    Nat → FrameState → Nat → Except Fault (Bool × FrameState × List IterReady)
  | 0, _, _ => .error .outOfFuel
  | fuel + 1, f, currIter =>
    if currIter ≤ f.iterationCount then
      match f.getIteration currIter with
      | none => .error .danglingIteration
      | some it =>
        if f.isIterationDone it then do
          let f₁ := f.deleteIteration currIter
          -- a completed iteration makes room for a deferred one
          let (f₂, ready₁) ←
            if f₁.nextIterRoots.isEmpty then .ok (f₁, []) else incrementIteration g fuel f₁
          let (done, f₃, ready₂) ← cleanupIterations g fuel f₂ (currIter + 1)
          return (done, f₃, ready₁ ++ ready₂)
        else .ok (f.isFrameDone, f, [])
    else .ok (f.isFrameDone, f, [])

end

/-- Enough for every call; see `cleanupIterations_spec`. -/
def fuel (f : FrameState) : Nat := f.iterationCount + 12

/-- The flag says whether the iteration is done. -/
def adjustOutstandingOpsFastPath (f : FrameState) (iter : Nat) (delta : Int) :
    Except Fault (Bool × FrameState) := do
  let it ← f.deref iter
  let it' := { it with outstandingOps := it.outstandingOps + delta }
  let f₁ := f.setIteration iter (some it')
  return (it'.outstandingOps = 0 && f₁.isIterationDone it', f₁)

/-- The fast path, then the cleanup under the exclusive lock. -/
def adjustOutstandingOpsShared (g : Graph) (f : FrameState) (iter : Nat) (delta : Int) :
    Except Fault (Bool × FrameState × List IterReady) := do
  let (iterDone, f₁) ← f.adjustOutstandingOpsFastPath iter delta
  if iterDone then cleanupIterations g f₁.fuel f₁ iter else return (false, f₁, [])

def adjustOutstandingOps (g : Graph) (f : FrameState) (iter : Nat) (delta : Int) :
    Except Fault (Bool × FrameState × List IterReady) :=
  if delta = 0 then .ok (false, f, []) else f.adjustOutstandingOpsShared g iter delta

def activateNodesAndAdjustOutstanding (g : Graph) (f : FrameState) (item : NodeItem)
    (isDead : Bool) (iter : Nat) (outputs : List Entry) :
    Except Fault (Bool × FrameState × List IterReady) := do
  -- the slow or the fast path, on the same condition as below
  let (f₁, ready₁) ← activateNodesLocked g f item isDead iter outputs
  if g.isAnyConsumerMergeOrControlTrigger item then
    let (done, f₂, ready₂) ← adjustOutstandingOpsLocked g f₁.fuel f₁ iter (ready₁.length - 1)
    return (done, f₂, ready₁ ++ ready₂)
  else
    let (done, f₂, ready₂) ← f₁.adjustOutstandingOpsShared g iter (ready₁.length - 1)
    return (done, f₂, ready₁ ++ ready₂)

/-- `ActivateNodesLocked` and `AdjustOutstandingOpsLocked` by the number of activated
nodes, as `AddLoopInv` and the branches of `PropagateOutputs` call them. -/
def activateAndAdjust (g : Graph) (f : FrameState) (item : NodeItem) (isDead : Bool)
    (iter : Nat) (outputs : List Entry) : Except Fault (FrameState × List IterReady) := do
  let (f₁, ready₁) ← activateNodesLocked g f item isDead iter outputs
  let (_, f₂, ready₂) ← adjustOutstandingOpsLocked g f₁.fuel f₁ iter ready₁.length
  return (f₂, ready₁ ++ ready₂)

/-- The loop of `AddLoopInv`, whose bound is read again in every round. -/
def addLoopInvFrom (g : Graph) (item : NodeItem) (entry : Entry) :
    Nat → FrameState → Nat → Except Fault (FrameState × List IterReady)
  | 0, _, _ => .error .outOfFuel
  | fuel + 1, f, i =>
    if i ≤ f.iterationCount then
      match f.getIteration i with
      | none => .error .danglingIteration
      | some it => do
        let (f₁, ready₁) ← activateAndAdjust g f item entry.isNoValue it.iterNum [entry]
        let (f₂, ready₂) ← addLoopInvFrom g item entry fuel f₁ (i + 1)
        return (f₂, ready₁ ++ ready₂)
    else .ok (f, [])

def addLoopInv (g : Graph) (f : FrameState) (item : NodeItem) (entry : Entry) :
    Except Fault (FrameState × List IterReady) :=
  addLoopInvFrom g item entry f.fuel { f with invValues := f.invValues ++ [(item, entry)] } 0

end FrameState
end TfReading.Executor
