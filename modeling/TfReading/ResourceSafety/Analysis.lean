import Mathlib.Data.List.Sort
import TfReading.Library.PostOrder
import TfReading.ResourceSafety.Sets

/-!
# Resource operation safety analysis

`ComputeIncompatibleResourceOperationPairs` goes over the nodes in a reverse post-order that ignores
all edges out of `NextIteration` nodes, and merges the sets of the inputs of each node.  It leaves out
edges from a `NextIteration` to a `Merge` only.
-/

namespace TfReading.ResourceSafety

open Outcome List PostOrder

/-- Node 0 is the source.  `inEdges` lists the sources of the edges into a node, names are numbers in
their order, and `opInfo` is the resource operation table. -/
structure Graph where
  numNodes : Nat
  name : Nat → Nat
  isMerge : Nat → Bool
  isNextIteration : Nat → Bool
  inEdges : Nat → List Nat
  shouldIgnore : Nat → Bool
  opInfo : Nat → Option Kind
  mayCallFunction : Nat → Bool

structure State where
  sets : Sets
  result : List (Nat × Nat)

namespace Graph

variable (g : Graph)

/-- `XlaResourceOpKindForNode` -/
def opKind (n : Nat) : Option Kind :=
  if g.shouldIgnore n then none
  else
    match g.opInfo n with
    | some kind => some kind
    | none => if g.mayCallFunction n then some .readWrite else none

def outEdges (n : Nat) : List Nat :=
  (List.range g.numNodes).flatMap fun dst => ((g.inEdges dst).filter (· = n)).map fun _ => dst

def successors (n : Nat) : List Nat :=
  if g.isNextIteration n then []
  else (g.outEdges n).insertionSort (fun a b => g.name a ≤ g.name b)

/-- `GetReversePostOrder` with the edge filter of the analysis. -/
def reversePostOrder : List Nat :=
  (PostOrder.run (Finset.range g.numNodes) g.successors 0).reverse

def inputs (n : Nat) : List Nat :=
  (g.inEdges n).filter (fun src => !(g.isMerge n && g.isNextIteration src))

def processNode (state : State) (n : Nat) : Except Error State := do
  let sets ← (g.inputs n).foldlM (fun sets src => sets.add n src) state.sets
  match g.opKind n with
  | none => return ⟨sets, state.result⟩
  | some kind =>
    let incompatible := (sets.contents n).filter (fun op => !isEdgeSafe op.kind kind)
    let result := state.result ++ incompatible.map (fun op => (op.node, n))
    if kind = .read then return ⟨sets, result⟩
    else
      let sets' ← sets.addOp n ⟨n, kind⟩
      return ⟨sets', result⟩

/-- `ComputeIncompatibleResourceOperationPairs` -/
def computeIncompatiblePairs : Except Error (List (Nat × Nat)) := do
  let state ← g.reversePostOrder.foldlM g.processNode ⟨.empty, []⟩
  let sorted := state.result.insertionSort (fun a b => a.1 < b.1 ∨ a.1 = b.1 ∧ a.2 ≤ b.2)
  if sorted.IsChain (· ≠ ·) then return sorted else .error .duplicate

/-! ## Paths -/

/-- The edges without those from a `NextIteration` to a `Merge`. -/
def Edge (u x : Nat) : Prop := u ∈ g.inputs x

def Path : Nat → Nat → Prop := Relation.ReflTransGen g.Edge

/-- Cycles go through edges from a `NextIteration` to a `Merge` only. -/
def Acyclic : Prop := ∀ n, ¬Relation.TransGen g.Edge n n

def Unsafe (a b : Nat) : Prop :=
  ∃ kind kind', g.opKind a = some kind ∧ g.opKind b = some kind' ∧ isEdgeSafe kind kind' = false

def Before (u x : Nat) : Prop := ∃ l₁ l₂, g.reversePostOrder = l₁ ++ x :: l₂ ∧ u ∈ l₁

/-- A path along which every node is visited before the next. -/
def Flows : Nat → Nat → Prop := Relation.ReflTransGen fun u x => g.Edge u x ∧ g.Before u x

/-- An operation that is not a read reaches `n` along such a path. -/
def Carries (op : ResourceOp) (n : Nat) : Prop :=
  g.opKind op.node = some op.kind ∧ op.kind ≠ .read ∧ g.Flows op.node n

/-! ## The order -/

variable {g} {dst n x : Nat}

theorem mem_outEdges : dst ∈ g.outEdges n ↔ dst < g.numNodes ∧ n ∈ g.inEdges dst := by
  simp [outEdges]

theorem mem_successors :
    dst ∈ g.successors n ↔ g.isNextIteration n = false ∧ dst < g.numNodes ∧ n ∈ g.inEdges dst := by
  rw [successors]
  split
  next h => simp [h]
  next h => simp [h, mem_outEdges]

theorem successors_edge (h : dst ∈ g.successors n) : g.Edge n dst := by
  obtain ⟨hni, -, hin⟩ := mem_successors.mp h
  exact mem_filter.mpr ⟨hin, by simp [hni]⟩

theorem run_spec (h : 0 < g.numNodes) :
    PostOrder.Spec g.successors 0 (PostOrder.run (Finset.range g.numNodes) g.successors 0) :=
  PostOrder.run_spec (Finset.mem_range.mpr h) fun _ _ hx =>
    Finset.mem_range.mpr (mem_successors.mp hx).2.1

theorem reversePostOrder_of_empty (h : ¬0 < g.numNodes) : g.reversePostOrder = [] := by
  rw [reversePostOrder, run, loop, dif_neg (by simpa using h), loop]
  rfl

theorem reversePostOrder_nodup : g.reversePostOrder.Nodup := by
  by_cases h : 0 < g.numNodes
  · exact nodup_reverse.mpr (run_spec h).nodup
  · rw [reversePostOrder_of_empty h]
    exact nodup_nil

theorem inputs_ne_nil {done rest : List Nat} (horder : g.reversePostOrder = done ++ x :: rest)
    (hdone : done ≠ []) : g.inputs x ≠ [] := by
  have hpos : 0 < g.numNodes := by
    by_contra h
    rw [reversePostOrder_of_empty h] at horder
    simp at horder
  have hspec := run_spec hpos
  have hrun : run (Finset.range g.numNodes) g.successors 0 =
      rest.reverse ++ x :: done.reverse := by
    rw [← reverse_reverse (run _ _ _)]
    rw [show (run (Finset.range g.numNodes) g.successors 0).reverse = _ from horder]
    simp
  have hne : x ≠ 0 := by
    intro hx
    have hlast := hspec.last
    have hnodup := hspec.nodup
    rw [hrun] at hlast hnodup
    obtain ⟨first, done, rfl⟩ := exists_cons_of_ne_nil hdone
    rw [reverse_cons, ← cons_append, ← append_assoc] at hlast hnodup
    rw [getLast?_append, getLast?_singleton] at hlast
    have hfirst : first = 0 := Option.some.inj hlast
    exact (nodup_append.mp hnodup).2.2 x (by simp) first mem_cons_self (by omega)
  have hmem : x ∈ run (Finset.range g.numNodes) g.successors 0 := by
    rw [hrun]
    simp
  obtain ⟨u, -, hu⟩ := (hspec.entered x hmem).resolve_left hne
  exact ne_nil_of_mem (successors_edge hu)

theorem before_iff {done rest : List Nat} {u : Nat}
    (horder : g.reversePostOrder = done ++ x :: rest) : g.Before u x ↔ u ∈ done := by
  constructor
  · intro h
    obtain ⟨l1, l2, heq, hu⟩ := h
    have hnodup := g.reversePostOrder_nodup
    have hout : ∀ {l1 l2 : List Nat}, g.reversePostOrder = l1 ++ x :: l2 → x ∉ l1 ∧ x ∉ l2 := by
      intro l1 l2 h
      rw [h, nodup_middle, nodup_cons, mem_append, not_or] at hnodup
      exact hnodup.1
    rw [horder] at heq
    have hsplit := (append_cons_inj_of_notMem (hout horder).1 (hout horder).2).mp heq
    exact hsplit.1 ▸ hu
  · exact fun hu => ⟨done, rest, horder, hu⟩

end Graph
end TfReading.ResourceSafety
