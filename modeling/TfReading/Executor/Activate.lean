import TfReading.Executor.Graph

/-!
# Activating the consumers of a node

`ActivateNodesSlowPath` and `ActivateNodesFastPathInternal` of
`core/common_runtime/propagator_state.cc`, on the state of one iteration.  Both
walk over the out-edges of a node and hand one arrival to each destination; the
arrivals at a node are the only thing that changes its counts.
-/

namespace TfReading.Executor

/-- The payload of an entry is opaque. -/
inductive Entry
  | noValue
  | hasValue (val : Nat)
  | hasConstTensor (constTensor : Nat)
  | hasRefTensor (refTensor : Nat)
  deriving DecidableEq, Repr

def Entry.isNoValue : Entry → Bool
  | .noValue => true
  | _ => false

structure IterationState where
  iterNum : Nat
  inputTensors : Nat → Entry
  outstandingOps : Int
  outstandingFrameCount : Int
  counts : Nat → Counts

/-- A new iteration copies the initial counts of the graph. -/
def IterationState.new (g : Graph) (iterNum : Nat) : IterationState where
  iterNum := iterNum
  inputTensors _ := .noValue
  outstandingOps := 0
  outstandingFrameCount := 0
  counts := g.initialCounts

inductive Arrival
  | data (fromEnter noValue srcDead : Bool)
  | control (srcDead : Bool)
  deriving DecidableEq, Repr

structure Delivery where
  counts : Counts
  dstReady : Bool
  dstDead : Bool
  dstNeedInput : Bool
  deriving DecidableEq, Repr

/-- The data-edge branch for merge nodes.  A merge becomes ready when all control
inputs have arrived and either the first live input arrives or all inputs are
dead.  A dead `Enter` makes it dead at once. -/
def mergeData (dst : NodeItem) (fromEnter noValue : Bool) (c : Counts) : Delivery :=
  if !noValue then
    let count := c.pending
    ⟨c.markLive, count == 1, false, count % 2 == 1⟩
  else
    let c₁ := c.incrementDeadCount
    let dead := c₁.deadCount == dst.numInputs || fromEnter
    ⟨c₁, c₁.pending == 1 && dead, dead, false⟩

def mergeControl (dst : NodeItem) (c : Counts) : Delivery :=
  let c₁ := c.decrementPending 2
  let dead := c₁.deadCount == dst.numInputs
  ⟨c₁, c₁.pending == 0 || (c₁.pending == 1 && dead), dead, false⟩

/-- Either branch for all other nodes. -/
def nonMerge (incrementDead : Bool) (c : Counts) : Delivery :=
  let (c₁, adjustResult) := c.adjustForActivation incrementDead
  ⟨c₁, !adjustResult.anyPending, adjustResult.anyDead, true⟩

def arrive (dst : NodeItem) (c : Counts) : Arrival → Delivery
  | .data fromEnter noValue srcDead =>
    if dst.isMerge then mergeData dst fromEnter noValue c else nonMerge (srcDead || noValue) c
  | .control srcDead =>
    if dst.isMerge then mergeControl dst c else nonMerge srcDead c

structure ReadyNode where
  nodeId : Nat
  isDead : Bool
  deriving DecidableEq, Repr

namespace IterationState

/-- Stores the outcome of one arrival.  `input` is where a data edge puts its
value. -/
def receive (it : IterationState) (dstId : Nat) (d : Delivery) (input : Option (Nat × Entry)) :
    IterationState :=
  { it with
    counts := Function.update it.counts dstId d.counts
    inputTensors :=
      match input with
      | some (loc, entry) =>
        if d.dstNeedInput then Function.update it.inputTensors loc entry else it.inputTensors
      | none => it.inputTensors }

def slowStep (g : Graph) (it : IterationState) (ready : List ReadyNode) (dstId : Nat)
    (a : Arrival) (input : Option (Nat × Entry)) : IterationState × List ReadyNode :=
  let d := arrive (g.node dstId) (it.counts dstId) a
  let dead := if (g.node dstId).isControlTrigger then false else d.dstDead
  (it.receive dstId d input, if d.dstReady then ready ++ [⟨dstId, dead⟩] else ready)

/-- The entry that an edge carries.  The C++ moves it on the last edge of a slot. -/
def output (outputs : List Entry) (e : EdgeInfo) : Entry := outputs.getD e.outputSlot .noValue

/-- The number of activated nodes is the length of the list. -/
def activateNodesSlowPath (g : Graph) (item : NodeItem) (isDead : Bool) (outputs : List Entry)
    (it : IterationState) : IterationState × List ReadyNode :=
  let afterData := item.outputEdges.foldl (fun (s : IterationState × List ReadyNode) e =>
      slowStep g s.1 s.2 e.dstId (.data item.isEnter (output outputs e).isNoValue isDead)
        (some (e.inputSlot, output outputs e))) (it, [])
  item.outputControlEdges.foldl (fun s dstId =>
    slowStep g s.1 s.2 dstId (.control isDead) none) afterData

/-- One edge of the fast path, which does not look at the destination. -/
def fastStep (it : IterationState) (ready : List ReadyNode) (dstId : Nat) (incrementDead : Bool)
    (input : Option (Nat × Entry)) : IterationState × List ReadyNode :=
  let d := nonMerge incrementDead (it.counts dstId)
  (it.receive dstId d input, if d.dstReady then ready ++ [⟨dstId, d.dstDead⟩] else ready)

/-- The locked and the atomic instance compute the same. -/
def activateNodesFastPath (item : NodeItem) (isDead : Bool) (outputs : List Entry)
    (it : IterationState) : IterationState × List ReadyNode :=
  let afterData := item.outputEdges.foldl (fun (s : IterationState × List ReadyNode) e =>
      fastStep s.1 s.2 e.dstId (isDead || (output outputs e).isNoValue)
        (some (e.inputSlot, output outputs e))) (it, [])
  item.outputControlEdges.foldl (fun s dstId => fastStep s.1 s.2 dstId isDead none) afterData

/-- `ActivateNodesLocked` -/
def activateNodes (g : Graph) (item : NodeItem) (isDead : Bool) (outputs : List Entry)
    (it : IterationState) : IterationState × List ReadyNode :=
  if g.isAnyConsumerMergeOrControlTrigger item then
    it.activateNodesSlowPath g item isDead outputs
  else it.activateNodesFastPath item isDead outputs

end IterationState
end TfReading.Executor
