import TfReading.Deadness.Predicate
import TfReading.Library.Outcome

/-!
# Deadness analysis

The handlers of `DeadnessAnalysisImpl`.  Nodes are numbered, frame names are numbers, and the control
flow info is given with the graph.
-/

namespace TfReading.Deadness

/-- The base types that a symbol is checked against. -/
inductive DataType
  | bool
  | int32
  | other
deriving DecidableEq, Repr

inductive ConstValue
  | bool (value : Bool)
  | int32 (value : Int)
  | other
deriving DecidableEq, Repr

inductive Op
  | source
  | switch
  | switchN
  | merge
  | controlTrigger
  | recv
  | nextIteration
  | enter
  | exit
  | const (value : ConstValue)
  | other
deriving DecidableEq, Repr

inductive Edge
  | data (src srcOutput dstInput : Nat)
  | control (src : Nat)
deriving DecidableEq, Repr

namespace Edge

def src : Edge → Nat
  | data src _ _ => src
  | control src => src

def isControlEdge : Edge → Bool
  | data .. => false
  | control _ => true

/-- `InputEdgeToTensorId` -/
def tensorId : Edge → TensorId
  | data src srcOutput _ => ⟨src, some srcOutput⟩
  | control src => ⟨src, none⟩

end Edge

structure Node where
  op : Op
  outputTypes : List DataType
  inEdges : List Edge
deriving Repr

structure ControlFlowInfo where
  frameName : Nat
  parentFrame : Nat
deriving Repr

structure Graph where
  node : Nat → Node
  controlFlowInfo : Nat → ControlFlowInfo

inductive Error
  /-- A predicate of an input that has not been visited. -/
  | missingInput
  /-- `input_edge` finds no edge. -/
  | noInputEdge
  | multipleNextIterations
  | frameTooDeep
  /-- A `TF_RET_CHECK` on the type of a tensor. -/
  | wrongType
  /-- A constant that is not of the type of its output. -/
  | badConst
  /-- A null pointer to a predicate is followed. -/
  | nullPredicate
deriving DecidableEq, Repr

namespace Graph

def op (g : Graph) (n : Nat) : Op := (g.node n).op

def inEdges (g : Graph) (n : Nat) : List Edge := (g.node n).inEdges

def numOutputs (g : Graph) (n : Nat) : Nat := (g.node n).outputTypes.length

/-- The last output of a node.  A node without outputs has index -1 here, the control slot. -/
def lastOutput (g : Graph) (n : Nat) : Option Nat :=
  if g.numOutputs n = 0 then none else some (g.numOutputs n - 1)

def feeds (g : Graph) (n dst : Nat) : Bool := (g.inEdges dst).any (fun e => e.src = n)

def inputEdge (g : Graph) (n idx : Nat) : Except Error (Nat × Nat) :=
  match (g.inEdges n).find? (fun e => match e with | .data _ _ i => i = idx | .control _ => false) with
  | some (.data src srcOutput _) => .ok (src, srcOutput)
  | _ => .error .noInputEdge

/-- `MakeSymbolPredicate` for a boolean or for a live signal. -/
def makeSymbolPredicate (g : Graph) (node outputIdx : Nat) (mustBeTrue : Bool) (f : Factory) :
    Except Error (Nat × Factory) :=
  if mustBeTrue ∧ (g.node node).outputTypes[outputIdx]? ≠ some .bool then .error .wrongType
  else
    match g.op node, mustBeTrue with
    | .const (.bool value), true => .ok (if value then f.makeTrue else f.makeFalse)
    | .const _, true => .error .badConst
    | _, _ => .ok (f.intern (.symbol ⟨node, some outputIdx⟩ mustBeTrue))

def makeIntSymbolPredicate (g : Graph) (node outputIdx : Nat) (mustHaveValue : Int) (f : Factory) :
    Except Error (Nat × Factory) :=
  if (g.node node).outputTypes[outputIdx]? ≠ some .int32 then .error .wrongType
  else
    match g.op node with
    | .const (.int32 value) => .ok (if value = mustHaveValue then f.makeTrue else f.makeFalse)
    | .const _ => .error .badConst
    | _ => .ok (f.intern (.intSymbol ⟨node, some outputIdx⟩ (some mustHaveValue)))

end Graph

/-- The fields of `DeadnessAnalysisImpl`, and the nodes to visit again. -/
structure Analysis where
  predicateMap : TensorId → Option Nat
  factory : Factory
  frameToMergeNode : Nat → Option Nat
  shouldRevisit : Nat → Bool

namespace Analysis

def init : Analysis := ⟨fun _ => none, .empty, fun _ => none, fun _ => false⟩

variable (g : Graph)

/-- `track` says whether the caller passed a vector of nodes to visit again. -/
def setPredicate (track : Bool) (tensor : TensorId) (s : Analysis) (pred : Nat) : Analysis where
  predicateMap := Function.update s.predicateMap tensor (some pred)
  factory := s.factory
  frameToMergeNode := s.frameToMergeNode
  shouldRevisit :=
    match s.predicateMap tensor with
    | none => s.shouldRevisit
    | some old =>
      if track ∧ old ≠ pred then fun dst => s.shouldRevisit dst || g.feeds tensor.node dst
      else s.shouldRevisit

def setPredicates (track : Bool) (n : Nat) (outputs : List (Option Nat)) (s : Analysis)
    (pred : Nat) : Analysis :=
  outputs.foldl (fun s output => s.setPredicate g track ⟨n, output⟩ pred) s

def predsOf (s : Analysis) (edges : List Edge) : Except Error (List Nat) :=
  edges.mapM fun e =>
    match s.predicateMap e.tensorId with
    | some pred => .ok pred
    | none => .error .missingInput

/-- `GetInputPreds` with `kDataAndControl` -/
def inputPreds (s : Analysis) (n : Nat) : Except Error (List Nat) := s.predsOf (g.inEdges n)

/-- `GetInputPreds` with `kDataOnly` -/
def dataInputPreds (s : Analysis) (n : Nat) : Except Error (List Nat) :=
  s.predsOf ((g.inEdges n).filter (fun e => !e.isControlEdge))

def make (s : Analysis) (operation : Factory → Nat × Factory) : Nat × Analysis :=
  ((operation s.factory).1, { s with factory := (operation s.factory).2 })

def setAnd (track : Bool) (n : Nat) (outputs : List (Option Nat)) (s : Analysis)
    (preds : List Nat) : Analysis :=
  let (pred, s₁) := s.make (·.makeAndPredicate preds)
  s₁.setPredicates g track n outputs pred

/-- The loop of an N-way switch over all branches but the last. -/
def switchBranches (track : Bool) (n : Nat) (pred : Nat × Nat) :
    List Nat → List Nat → Analysis → Except Error (List Nat × Analysis)
  | [], inputPreds, s => .ok (inputPreds, s)
  | i :: branches, inputPreds, s => do
    let (branchPred, f) ← g.makeIntSymbolPredicate pred.1 pred.2 i s.factory
    let s₁ := setAnd g track n [some i] { s with factory := f } (inputPreds ++ [branchPred])
    let (negated, s₂) := s₁.make (·.makeNotPredicate branchPred)
    switchBranches track n pred branches (inputPreds ++ [negated]) s₂

def handleSwitch (track : Bool) (s : Analysis) (n : Nat) : Except Error Analysis := do
  let inputPreds ← s.inputPreds g n
  let pred ← g.inputEdge n 1
  if g.op n ≠ .switchN then
    let (trueSwitch, f) ← g.makeSymbolPredicate pred.1 pred.2 true s.factory
    let (falseSwitch, s₁) := { s with factory := f }.make (·.makeNotPredicate trueSwitch)
    let s₂ := setAnd g track n [some 0] s₁ (inputPreds ++ [falseSwitch])
    let s₃ := setAnd g track n [some 1] s₂ (inputPreds ++ [trueSwitch])
    return setAnd g track n [none] s₃ inputPreds
  else
    let (inputPreds, s₁) ←
      switchBranches g track n pred (List.range (g.numOutputs n - 1)) inputPreds s
    -- The last branch, then the control slot; both from what the loop left behind.
    let s₂ := setAnd g track n [g.lastOutput n] s₁ inputPreds
    return setAnd g track n [none] s₂ inputPreds

/-! ## Merges -/

def findUniqueBackedge (n : Nat) : Except Error (Option Edge) :=
  match (g.inEdges n).filter (fun e => g.op e.src = .nextIteration) with
  | [] => .ok none
  | [e] => .ok (some e)
  | _ => .error .multipleNextIterations

/-- `Predicate::Visit` in search of `symbolic`.  Operands have smaller ids than what is made of
them, so that the id bounds the depth. -/
def mentions (f : Factory) (symbolic : Nat) : Nat → Nat → Bool
  | 0, _ => false
  | depth + 1, p => p = symbolic ||
    match f.get p with
    | some content => content.operands.any (mentions f symbolic depth)
    | none => false

def deduceStepPredicate (symbolic backedge : Nat) (f : Factory) : Option (Nat × Factory) :=
  match f.operandsOf true backedge with
  | none => none
  | some ops =>
    let andOps := ops.filter (fun op => op ≠ symbolic)
    if andOps.any (fun op => mentions f symbolic (op + 1) op) then none
    else if symbolic ∈ ops then some (f.makeAndPredicate andOps)
    else none

def getFullFrame : Nat → Nat → Except Error (List Nat)
  | depth, n =>
    if g.op n = .source then .ok []
    else
      match depth with
      | 0 => .error .frameTooDeep
      | depth + 1 => do
        let rest ← getFullFrame depth (g.controlFlowInfo n).parentFrame
        return (g.controlFlowInfo n).frameName :: rest

def maxFrameDepth : Nat := 5001

def predOf (s : Analysis) (e : Edge) : Except Error Nat :=
  match s.predicateMap e.tensorId with
  | some pred => .ok pred
  | none => .error .nullPredicate

/-- A merge is alive iff it starts and every step so far went on. -/
structure Recurrence where
  start : Nat
  step : Nat
deriving DecidableEq, Repr

/-- The second visit of a merge: the recurrence that its symbolic predicate is rewritten to. -/
def findRecurrence (s : Analysis) (n symbolic : Nat) :
    Except Error (Option (Recurrence × Factory)) := do
  match ← findUniqueBackedge g n with
  | none => return none
  | some backedge =>
    let backedgePred ← s.predOf backedge
    match deduceStepPredicate symbolic backedgePred s.factory with
    | none => return none
    | some (step, f) =>
      let nonRecurrentInputs ← ((g.inEdges n).filter (fun e => e ≠ backedge)).mapM s.predOf
      let (start, f₁) := f.makeOrPredicate nonRecurrentInputs
      return some (⟨start, step⟩, f₁)

def mergeSlots : List (Option Nat) := [some 0, some 1, none]

/-- A data edge from a `NextIteration` that has no predicate yet. -/
def hasUnvisitedBackedge (s : Analysis) (n : Nat) : Bool :=
  (g.inEdges n).any fun e =>
    !e.isControlEdge && g.op e.src = .nextIteration && (s.predicateMap e.tensorId).isNone

/-- The merge whose symbol stands for merge `n`. -/
def representative (useOptimisticMode : Bool) (s : Analysis) (n : Nat) : Nat × Analysis :=
  if useOptimisticMode then
    let frameName := (g.controlFlowInfo n).frameName
    match s.frameToMergeNode frameName with
    | some first => (first, s)
    | none => (n, { s with frameToMergeNode := Function.update s.frameToMergeNode frameName (some n) })
  else (n, s)

def handleMerge (track useOptimisticMode : Bool) (s : Analysis) (n : Nat) :
    Except Error Analysis := do
  match s.predicateMap ⟨n, some 0⟩ with
  | none =>
    if s.hasUnvisitedBackedge g n then
      let (merge, s₁) := representative g useOptimisticMode s n
      let (symbolic, f) ← g.makeSymbolPredicate merge 0 false s₁.factory
      return setPredicates g track n mergeSlots { s₁ with factory := f } symbolic
    else
      let inputPreds ← s.dataInputPreds g n
      let (pred, s₁) := s.make (·.makeOrPredicate inputPreds)
      return setPredicates g track n mergeSlots s₁ pred
  | some current =>
    match s.factory.get current with
    | some (.symbol ..) =>
      match ← s.findRecurrence g n current with
      | none => return s
      | some (recurrence, f) =>
        let frame ← getFullFrame g maxFrameDepth n
        let (andRec, f₁) := f.makeAndRecurrencePredicate recurrence.start recurrence.step frame
        return setPredicates g track n mergeSlots { s with factory := f₁ } andRec
    | _ => return s

/-! ## Other nodes -/

def handleRecv (track : Bool) (s : Analysis) (n : Nat) : Except Error Analysis := do
  let inputPreds ← s.inputPreds g n
  let (signalIsAlive, f) ← g.makeSymbolPredicate n 0 false s.factory
  return setAnd g track n [some 0, none] { s with factory := f } (inputPreds ++ [signalIsAlive])

def handleGeneric (track : Bool) (s : Analysis) (n : Nat) : Except Error Analysis := do
  let inputPreds ← s.inputPreds g n
  return setAnd g track n ((List.range (g.numOutputs n)).map some ++ [none]) s inputPreds

def handleNode (track useOptimisticMode : Bool) (s : Analysis) (n : Nat) :
    Except Error Analysis :=
  match g.op n with
  | .switch | .switchN => handleSwitch g track s n
  | .merge => handleMerge g track useOptimisticMode s n
  | .controlTrigger =>
    let (pred, s₁) := s.make (·.makeTrue)
    .ok (setPredicates g false n [none] s₁ pred)
  | .recv => handleRecv g track s n
  | .source | .nextIteration | .enter | .exit | .const _ | .other => handleGeneric g track s n

end Analysis
end TfReading.Deadness
