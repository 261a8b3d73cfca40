import TfReading.Executor.Frame

/-!
# Propagating the outputs of a node

`PropagatorState` of `core/common_runtime/propagator_state.cc`.  A child frame is
named by the way to it: the frame name of its `Enter` nodes and the iteration of
the parent frame, and so on up to the root frame.  The C++ hashes that name; the
model has no collisions.  One call of `propagateOutputs` is one step.
-/

namespace TfReading.Executor

/-- The innermost frame comes first; the root frame is the empty list. -/
abbrev FrameId := List (Nat × Nat)

structure TaggedNode where
  frame : FrameId
  iterNum : Nat
  nodeId : Nat
  isDead : Bool
  deriving DecidableEq, Repr

def IterReady.tag (frame : FrameId) (r : IterReady) : TaggedNode :=
  ⟨frame, r.iterNum, r.node.nodeId, r.node.isDead⟩

structure PropagatorState where
  frames : FrameId → Option FrameState

namespace PropagatorState

/-- The root frame allows one iteration and waits for no inputs. -/
def new (g : Graph) : PropagatorState where
  frames := Function.update (fun _ => none) [] (some (FrameState.new g 1 0))

def getFrame (s : PropagatorState) (id : FrameId) : Except Fault FrameState :=
  match s.frames id with
  | some f => .ok f
  | none => .error .missingFrame

def setFrame (s : PropagatorState) (id : FrameId) (f : Option FrameState) : PropagatorState :=
  { s with frames := Function.update s.frames id f }

def onFrame {α : Type} (s : PropagatorState) (id : FrameId)
    (op : FrameState → Except Fault (α × FrameState × List IterReady)) :
    Except Fault (α × PropagatorState × List TaggedNode) := do
  let f ← s.getFrame id
  let (a, f₁, ready) ← op f
  return (a, s.setFrame id (some f₁), ready.map (IterReady.tag id))

def activateRoots (g : Graph) (s : PropagatorState) :
    Except Fault (PropagatorState × List TaggedNode) := do
  let ready := g.rootNodes.map (fun n => TaggedNode.mk [] 0 n false)
  let f ← s.getFrame []
  let it ← f.deref 0
  return (s.setFrame [] (some (f.setIteration 0
    (some { it with outstandingOps := ready.length }))), ready)

def findOrCreateChildFrame (g : Graph) (s : PropagatorState) (id : FrameId) (iter : Nat)
    (frameName : Nat) : Except Fault (PropagatorState × FrameId) :=
  let child := (frameName, iter) :: id
  match s.frames child with
  | some _ => .ok (s, child)
  | none => do
    let f ← s.getFrame id
    let it ← f.deref iter
    let s₁ := s.setFrame id (some (f.setIteration iter
      (some { it with outstandingFrameCount := it.outstandingFrameCount + 1 })))
    return (s₁.setFrame child (some (FrameState.new g (g.parallelIterations frameName)
      (g.inputCount frameName))), child)

end PropagatorState

/-! ## Deleting a frame -/

/-- `propagate_to_non_merge` -/
def deadNonMerge (c : Counts) : Delivery :=
  let c₁ := c.incrementDeadCount.decrementPending 1
  ⟨c₁, c₁.pendingField == 0, true, false⟩

def deadExitData (dst : NodeItem) (c : Counts) : Delivery :=
  if dst.isMerge then
    let c₁ := c.incrementDeadCount
    let dead := c₁.deadCount == dst.numInputs
    ⟨c₁, c₁.pending == 1 && dead, dead, false⟩
  else deadNonMerge c

def deadExitControl (dst : NodeItem) (c : Counts) : Delivery :=
  if dst.isMerge then mergeControl dst c else deadNonMerge c

namespace IterationState

def deadExitStep (g : Graph) (deliver : NodeItem → Counts → Delivery)
    (s : IterationState × List ReadyNode) (dstId : Nat) : IterationState × List ReadyNode :=
  let d := deliver (g.node dstId) (s.1.counts dstId)
  let dead := if (g.node dstId).isControlTrigger then false else d.dstDead
  if d.dstReady then
    ({ s.1.receive dstId d none with outstandingOps := s.1.outstandingOps + 1 },
      s.2 ++ [⟨dstId, dead⟩])
  else (s.1.receive dstId d none, s.2)

def propagateDeadExit (g : Graph) (s : IterationState × List ReadyNode) (item : NodeItem) :
    IterationState × List ReadyNode :=
  let afterData := (item.outputEdges.map EdgeInfo.dstId).foldl (deadExitStep g deadExitData) s
  item.outputControlEdges.foldl (deadExitStep g deadExitControl) afterData

end IterationState

namespace PropagatorState

/-- The dead exits of the frame are propagated to its parent first. -/
def deleteFrame (g : Graph) (s : PropagatorState) (id : FrameId) :
    Except Fault (PropagatorState × List TaggedNode) := do
  let f ← s.getFrame id
  match id with
  | [] => return (s.setFrame [] none, [])
  | (_, parentIter) :: parent => do
    let p ← s.getFrame parent
    let it ← p.deref parentIter
    let exits := f.deadExits.foldl (IterationState.propagateDeadExit g) (it, [])
    let s₁ := s.setFrame parent (some (p.setIteration parentIter (some exits.1)))
    return (s₁.setFrame id none,
      exits.2.map (fun r => (IterReady.mk parentIter r).tag parent))

/-- The end of `CleanupFramesIterations` and of `PropagateOutputs`: a frame that is
done is deleted, and its parent may be done then. -/
def frameDone (g : Graph) : PropagatorState → FrameId →
    Except Fault (PropagatorState × List TaggedNode)
  | s, [] => s.deleteFrame g []
  | s, (frameName, parentIter) :: parent => do
    let (s₁, ready₁) ← s.deleteFrame g ((frameName, parentIter) :: parent)
    -- `CleanupFramesIterations` on the parent
    let (done, s₂, ready₂) ← s₁.onFrame parent fun f => do
      let it ← f.deref parentIter
      let f₁ := f.setIteration parentIter
        (some { it with outstandingFrameCount := it.outstandingFrameCount - 1 })
      FrameState.cleanupIterations g f₁.fuel f₁ parentIter
    if done then
      let (s₃, ready₃) ← frameDone g s₂ parent
      return (s₃, ready₁ ++ ready₂ ++ ready₃)
    else return (s₂, ready₁ ++ ready₂)

end PropagatorState

/-! ## The branches of `PropagateOutputs` on a frame -/

namespace FrameState

def enter (g : Graph) (item : NodeItem) (isConstant isDead : Bool) (outputs : List Entry)
    (f : FrameState) : Except Fault (Unit × FrameState × List IterReady) := do
  let (f₁, ready) ←
    if isConstant then f.addLoopInv g item (outputs.getD 0 .noValue)
    else f.activateAndAdjust g item isDead 0 outputs
  return ((), { f₁ with numPendingInputs := f₁.numPendingInputs - 1 }, ready)

def exit (g : Graph) (item : NodeItem) (isDead : Bool) (iter : Nat) (outputs : List Entry)
    (f : FrameState) : Except Fault (Unit × FrameState × List IterReady) := do
  let (f₁, ready) ← f.activateAndAdjust g item isDead iter outputs
  return ((), f₁, ready)

def deadExit (g : Graph) (item : NodeItem) (iter : Nat) (f : FrameState) :
    Except Fault (Bool × FrameState × List IterReady) :=
  let f₁ := if iter = f.iterationCount then { f with deadExits := f.deadExits ++ [item] } else f
  adjustOutstandingOpsLocked g f₁.fuel f₁ iter (-1)

/-- The part of the `NextIteration` branch before the decrement. -/
def startNext (g : Graph) (item : NodeItem) (isDead : Bool) (iter : Nat)
    (outputs : List Entry) (f : FrameState) : Except Fault (FrameState × List IterReady) :=
  if isDead then
    -- stop the deadness propagation
    .ok (f, [])
  else if iter = f.iterationCount then
    if f.numOutstandingIterations = f.maxParallelIterations then
      -- reached the maximum for parallel iterations
      .ok ({ f with nextIterRoots := f.nextIterRoots ++ [(item, outputs.getD 0 .noValue)] }, [])
    else do
      let (f₁, ready₁) ← incrementIteration g f.fuel f
      let (f₂, ready₂) ← f₁.activateAndAdjust g item isDead (iter + 1) outputs
      return (f₂, ready₁ ++ ready₂)
  else f.activateAndAdjust g item isDead (iter + 1) outputs

def nextIteration (g : Graph) (item : NodeItem) (isDead : Bool) (iter : Nat)
    (outputs : List Entry) (f : FrameState) :
    Except Fault (Bool × FrameState × List IterReady) := do
  let (f₁, ready₁) ← f.startNext g item isDead iter outputs
  let (done, f₂, ready₂) ← adjustOutstandingOpsLocked g f₁.fuel f₁ iter (-1)
  return (done, f₂, ready₁ ++ ready₂)

end FrameState

namespace PropagatorState

/-- The branches of `PropagateOutputs`.  The flag says whether the frame of the node
is done. -/
def propagateItem (g : Graph) (s : PropagatorState) (t : TaggedNode) (outputs : List Entry) :
    Except Fault (Bool × PropagatorState × List TaggedNode) :=
  let item := g.node t.nodeId
  match item.kind with
  | .enter isConstant frameName _ => do
    let (s₁, child) ← s.findOrCreateChildFrame g t.frame t.iterNum frameName
    let (_, s₂, ready₁) ← s₁.onFrame child (FrameState.enter g item isConstant t.isDead outputs)
    let (done, s₃, ready₂) ←
      s₂.onFrame t.frame (fun f => f.adjustOutstandingOps g t.iterNum (-1))
    return (done, s₃, ready₁ ++ ready₂)
  | .exit =>
    if t.isDead then s.onFrame t.frame (FrameState.deadExit g item t.iterNum)
    else
      match t.frame with
      | [] => .error .missingFrame
      | (_, parentIter) :: parent => do
        let (_, s₁, ready₁) ←
          s.onFrame parent (FrameState.exit g item t.isDead parentIter outputs)
        let (done, s₂, ready₂) ←
          s₁.onFrame t.frame (fun f => f.adjustOutstandingOps g t.iterNum (-1))
        return (done, s₂, ready₁ ++ ready₂)
  | .nextIteration =>
    s.onFrame t.frame (FrameState.nextIteration g item t.isDead t.iterNum outputs)
  | _ =>
    s.onFrame t.frame (fun f =>
      f.activateNodesAndAdjustOutstanding g item t.isDead t.iterNum outputs)

def propagateOutputs (g : Graph) (s : PropagatorState) (t : TaggedNode) (outputs : List Entry) :
    Except Fault (PropagatorState × List TaggedNode) := do
  let (done, s₁, ready₁) ← s.propagateItem g t outputs
  if done then
    let (s₂, ready₂) ← s₁.frameDone g t.frame
    return (s₂, ready₁ ++ ready₂)
  else return (s₁, ready₁)

end PropagatorState
end TfReading.Executor
