import TfReading.GraphCycles.OrderedSet
import TfReading.Library.RankOrder
import TfReading.Library.Search

/-!
# `GraphCycles` of `compiler/xla/service/graphcycles/graphcycles.cc`

A directed graph that rejects edges that would close a cycle.  Each node carries
a rank, and the ranks are kept topological by the algorithm of Pearce and Kelly.

Node ids are natural numbers, and `nodes_` is a function together with its
length.  The vectors `deltaf_`, `deltab_`, `list_`, `merged_` and `stack_` are
cleared before each use, so the functions that fill them return them.
-/

namespace TfReading.GraphCycles

structure Node where
  /-- Rank number assigned by the Pearce-Kelly algorithm. -/
  rank : Nat
  /-- Temporary marker used by depth-first search. -/
  visited : Bool
  /-- User-supplied data, a pointer. -/
  data : Option Nat
  /-- Immediate predecessors; `in` in the C++. -/
  inSet : OrderedSet Nat
  /-- Immediate successors; `out` in the C++. -/
  out : OrderedSet Nat

/-- `freeNodes` has the back of the vector at its head. -/
@[ext]
structure Rep where
  nodes : Nat → Node
  size : Nat
  freeNodes : List Nat

namespace Rep

def blank (rank : Nat) : Node := ⟨rank, false, none, .empty, .empty⟩

def init : Rep := ⟨fun _ => blank 0, 0, []⟩

/-- A write through the pointer `nodes_[n]`. -/
def modify (r : Rep) (n : Nat) (f : Node → Node) : Rep :=
  { r with nodes := Function.update r.nodes n (f (r.nodes n)) }

def newNode (r : Rep) : Nat × Rep :=
  match r.freeNodes with
  | [] =>
    (r.size, { r with nodes := Function.update r.nodes r.size (blank r.size),
                      size := r.size + 1 })
  | n :: rest =>
    -- the reused node keeps its rank
    (n, { r.modify n (fun x => { x with data := none }) with freeNodes := rest })

/-- `for (y : ys) nodes_[y]->in.Erase(node)` -/
def eraseFromIn (r : Rep) (node : Nat) (ys : List Nat) : Rep :=
  ys.foldl (fun r y => r.modify y (fun ny => { ny with inSet := ny.inSet.erase node })) r

/-- `for (y : ys) nodes_[y]->out.Erase(node)` -/
def eraseFromOut (r : Rep) (node : Nat) (ys : List Nat) : Rep :=
  ys.foldl (fun r y => r.modify y (fun ny => { ny with out := ny.out.erase node })) r

def removeNode (r : Rep) (node : Nat) : Rep :=
  let r₁ := r.eraseFromIn node (r.nodes node).out.valueSequence
  let r₂ := r₁.eraseFromOut node (r₁.nodes node).inSet.valueSequence
  let r₃ := r₂.modify node (fun x => { x with inSet := .empty, out := .empty })
  { r₃ with freeNodes := node :: r₃.freeNodes }

def hasEdge (r : Rep) (x y : Nat) : Bool := (r.nodes x).out.contains y

def removeEdge (r : Rep) (x y : Nat) : Rep :=
  (r.modify x (fun nx => { nx with out := nx.out.erase y })).modify y
    (fun ny => { ny with inSet := ny.inSet.erase x })

/-! ## The two searches -/

def withVisited (r : Rep) (visited : Nat → Bool) : Rep :=
  { r with nodes := fun n => { r.nodes n with visited := visited n } }

/-- Both searches run the same loop.  They differ in the set they follow, in the
ranks they enter, and in that only the forward one can stop early. -/
def boundedSearch (r : Rep) (next : Node → OrderedSet Nat) (within stop : Nat → Bool) :
    Search.Bounded Nat where
  nodes := Finset.range r.size
  succ n := (next (r.nodes n)).valueSequence
  within w := within (r.nodes w).rank
  stop w := stop (r.nodes w).rank

def forwardSearch (r : Rep) (upperBound : Nat) : Search.Bounded Nat :=
  r.boundedSearch Node.out (fun k => k < upperBound) (fun k => k == upperBound)

def backwardSearch (r : Rep) (lowerBound : Nat) : Search.Bounded Nat :=
  r.boundedSearch Node.inSet (fun k => lowerBound < k) (fun _ => false)

/-- False when a successor of rank `upperBound` is met.  The list is `deltaf_`. -/
def forwardDFS (r : Rep) (n upperBound : Nat) : Bool × Rep × List Nat :=
  let o := (r.forwardSearch upperBound).run (fun v => (r.nodes v).visited) n
  (!o.stopped, r.withVisited o.visited, o.found)

/-- The list is `deltab_`. -/
def backwardDFS (r : Rep) (n lowerBound : Nat) : Rep × List Nat :=
  let o := (r.backwardSearch lowerBound).run (fun v => (r.nodes v).visited) n
  (r.withVisited o.visited, o.found)

/-! ## Reordering -/

/-- `std::sort` by rank; the ranks of distinct nodes differ, so the result does
not depend on the algorithm. -/
def sort (r : Rep) (delta : List Nat) : List Nat :=
  delta.insertionSort (fun a b => (r.nodes a).rank ≤ (r.nodes b).rank)

def clearVisitedBits (r : Rep) (nodes : List Nat) : Rep :=
  nodes.foldl (fun r w => r.modify w (fun nw => { nw with visited := false })) r

/-- Returns the ranks that replace the entries of `src` and the longer `dst`. -/
def moveToList (r : Rep) (src dst : List Nat) : Rep × List Nat × List Nat :=
  (r.clearVisitedBits src, src.map (fun w => (r.nodes w).rank), dst ++ src)

def assignRanks (r : Rep) (list merged : List Nat) : Rep :=
  (list.zip merged).foldl (fun r p => r.modify p.1 (fun n => { n with rank := p.2 })) r

def reorder (r : Rep) (deltab deltaf : List Nat) : Rep :=
  let deltab := r.sort deltab
  let deltaf := r.sort deltaf
  let (r₁, ranksb, list₁) := r.moveToList deltab []
  let (r₂, ranksf, list₂) := r₁.moveToList deltaf list₁
  let merged := ranksb.merge ranksf (· ≤ ·)
  r₂.assignRanks list₂ merged

/-! ## Edges -/

def addEdge (r : Rep) (x y : Nat) : Rep :=
  (r.modify x (fun nx => { nx with out := (nx.out.insert y).2 })).modify y
    (fun ny => { ny with inSet := (ny.inSet.insert x).2 })

def insertEdge (r : Rep) (x y : Nat) : Bool × Rep :=
  if x = y then (false, r)
  else if !((r.nodes x).out.insert y).1 then (true, r) -- edge already exists
  else
    let r₁ := r.addEdge x y
    if (r₁.nodes x).rank ≤ (r₁.nodes y).rank then (true, r₁)
    else
      match r₁.forwardDFS y (r₁.nodes x).rank with
      | (false, r₂, deltaf) =>
        -- found a cycle: undo the insertion and clear the markers
        (false, (r₂.removeEdge x y).clearVisitedBits deltaf)
      | (true, r₂, deltaf) =>
        let (r₃, deltab) := r₂.backwardDFS x (r₂.nodes y).rank
        (true, r₃.reorder deltab deltaf)

def isReachableNonConst (r : Rep) (x y : Nat) : Bool × Rep :=
  if x = y then (true, r)
  else if (r.nodes y).rank ≤ (r.nodes x).rank then (false, r)
  else
    let (ok, r₁, deltaf) := r.forwardDFS x (r.nodes y).rank
    (!ok, r₁.clearVisitedBits deltaf)

/-! ## Contraction -/

/-- `none` where the `CHECK` that the edge exists fails. -/
def canContractEdge (r : Rep) (a b : Nat) : Option (Bool × Rep) :=
  if r.hasEdge a b then
    let (reachable, r₁) := (r.removeEdge a b).isReachableNonConst a b
    some (!reachable, (r₁.insertEdge a b).2)
  else none

/-- `InsertEdge` for each pair in turn, with the results that the C++ ignores. -/
def insertEdges (r : Rep) : List (Nat × Nat) → List Bool × Rep
  | [] => ([], r)
  | (x, y) :: rest =>
    let (ok, r₁) := r.insertEdge x y
    let (oks, r₂) := r₁.insertEdges rest
    (ok :: oks, r₂)

/-- The swap of `a` and `b` that minimises copying. -/
def contractPair (r : Rep) (a b : Nat) : Nat × Nat :=
  if (r.nodes a).inSet.size + (r.nodes a).out.size <
      (r.nodes b).inSet.size + (r.nodes b).out.size then (b, a) else (a, b)

/-- Moves the neighbour sets out of `b`, unlinks it and frees it. -/
def detach (r : Rep) (b : Nat) : Rep :=
  let out := (r.nodes b).out
  let ins := (r.nodes b).inSet
  let r₁ := r.modify b (fun nb => { nb with inSet := .empty, out := .empty })
  let r₂ := (r₁.eraseFromIn b out.valueSequence).eraseFromOut b ins.valueSequence
  { r₂ with freeNodes := b :: r₂.freeNodes }

/-- The edges that are inserted at `a` for the ones that `b` had. -/
def movedEdges (r : Rep) (a b : Nat) : List (Nat × Nat) :=
  (r.nodes b).out.valueSequence.map (fun y => (a, y)) ++
    (r.nodes b).inSet.valueSequence.map (fun y => (y, a))

/-- The part of `ContractEdge` after the reachability test. -/
def mergeInto (r : Rep) (a b : Nat) : List Bool × Rep :=
  (r.detach b).insertEdges (r.movedEdges a b)

/-- The outer `none` stands for a failing `CHECK`. -/
def contractEdge (r : Rep) (a b : Nat) : Option (Option Nat × Rep) :=
  if r.hasEdge a b then
    let (reachable, r₁) := (r.removeEdge a b).isReachableNonConst a b
    if reachable then some (none, (r₁.insertEdge a b).2)
    else
      let (a, b) := r₁.contractPair a b
      some (some a, (r₁.mergeInto a b).2)
  else none

end Rep
end TfReading.GraphCycles
