import Mathlib.Data.List.Basic
import TfReading.Executor.PendingCounts

/-!
# The graph as the executor sees it

`NodeItem`, `EdgeInfo` and the frame information that `ImmutableExecutorState`
derives from the graph.  The classes of control-flow nodes exclude each other,
so the flags of a `NodeItem` are one enumeration.  Frame names are numbered; the
root frame has no name.
-/

namespace TfReading.Executor

inductive Kind
  | ordinary
  | merge
  | controlTrigger
  | enter (isConstant : Bool) (frameName parallelIterations : Nat)
  | exit
  | nextIteration
  deriving DecidableEq, Repr

/-- `inputSlot` is the location in the input tensors of the frame. -/
structure EdgeInfo where
  dstId : Nat
  outputSlot : Nat
  inputSlot : Nat
  deriving DecidableEq, Repr

structure NodeItem where
  kind : Kind
  numInputs : Nat
  outputEdges : List EdgeInfo
  outputControlEdges : List Nat
  deriving DecidableEq, Repr

namespace NodeItem

def isMerge (item : NodeItem) : Bool := item.kind = .merge

def isControlTrigger (item : NodeItem) : Bool := item.kind = .controlTrigger

def isEnter (item : NodeItem) : Bool :=
  match item.kind with
  | .enter .. => true
  | _ => false

def isNextIteration (item : NodeItem) : Bool := item.kind = .nextIteration

def consumers (item : NodeItem) : List Nat :=
  item.outputEdges.map EdgeInfo.dstId ++ item.outputControlEdges

end NodeItem

structure Graph where
  numNodes : Nat
  node : Nat → NodeItem

namespace Graph

variable (g : Graph)

def dataIn (n : Nat) : List (Nat × EdgeInfo) :=
  (List.range g.numNodes).flatMap fun m =>
    ((g.node m).outputEdges.filter (fun e => e.dstId = n)).map (fun e => (m, e))

def controlIn (n : Nat) : List Nat :=
  (List.range g.numNodes).flatMap fun m =>
    ((g.node m).outputControlEdges.filter (fun d => d = n)).map (fun _ => m)

def numInEdges (n : Nat) : Nat := (g.dataIn n).length + (g.controlIn n).length

/-- A merge waits for its control edges, two units each, and the lowest bit says
that no live input has arrived. -/
def maxPending (n : Nat) : Nat :=
  if (g.node n).isMerge then 1 + 2 * (g.controlIn n).length else g.numInEdges n

def initialCounts (n : Nat) : Counts :=
  .setInitialCount (createHandle (g.maxPending n) (g.numInEdges n)) (g.maxPending n)

def isAnyConsumerMergeOrControlTrigger (item : NodeItem) : Bool :=
  item.consumers.any fun d => (g.node d).isMerge || (g.node d).isControlTrigger

def rootNodes : List Nat := (List.range g.numNodes).filter (fun n => g.numInEdges n = 0)

def inputCount (frameName : Nat) : Nat :=
  ((List.range g.numNodes).filter fun n =>
    match (g.node n).kind with
    | .enter _ name _ => name = frameName
    | _ => false).length

/-- The first `Enter` node decides for its frame. -/
def parallelIterations (frameName : Nat) : Nat :=
  ((List.range g.numNodes).findSome? fun n =>
    match (g.node n).kind with
    | .enter _ name p => if name = frameName then some p else none
    | _ => none).getD 0

end Graph
end TfReading.Executor
