import TfReading.GraphCycles.Runs
import TfReading.Library.PathSearch

/-!
# Path queries

`FindPath` and `IsReachable` search without a bound, `IsReachableNonConst` stays below a
rank.  In a reachable state they give the same answer, and the path is a path.
-/

namespace TfReading.GraphCycles
namespace Rep

def pathQuery (r : Rep) (x y : Nat) (maxPathLen : Int) : PathSearch.Query Nat :=
  ⟨fun n => (r.nodes n).out.valueSequence, x, y, maxPathLen⟩

/-- Returns the length of the path, or 0, and the array `path` as it is then. -/
def findPath (r : Rep) (x y : Nat) (maxPathLen : Int) (path : Nat → Nat) : Nat × (Nat → Nat) :=
  (r.pathQuery x y maxPathLen).loop (Finset.range r.size) [some x] 0 path

/-- The array is null in the C++, and no entry is written. -/
def isReachable (r : Rep) (x y : Nat) : Bool := 0 < (r.findPath x y 0 fun _ => 0).1

theorem findPath_spec {r : Rep} (h : r.Valid) (x y : Nat) (maxPathLen : Int) (path : Nat → Nat) :
    (r.pathQuery x y maxPathLen).Spec (r.findPath x y maxPathLen path) := by
  refine PathSearch.Query.loop_spec (p := [])
    (fun v w hw => Finset.mem_range.mpr (h.edge_lt v w hw).2) ⟨rfl, trivial⟩ trivial ?_
  rintro v (rfl | hv)
  · exact .inl List.mem_cons_self
  · exact absurd hv.1 hv.2

end Rep

/-- Both reachability tests answer whether there is a path, and a path that `FindPath` returns
leads from `x` to `y` along edges. -/
theorem path_queries {r : Rep} (h : system.Reachable r) {x y : Nat} (hx : r.Live x)
    (hy : r.Live y) :
    (r.isReachable x y = true ↔ r.Path x y) ∧
      ((r.isReachableNonConst x y).1 = true ↔ r.Path x y) ∧
      ∀ (maxPathLen : Int) (path : Nat → Nat) (n : Nat) (path' : Nat → Nat),
        r.findPath x y maxPathLen path = (n, path') → 0 < n → n ≤ maxPathLen →
        path' 0 = x ∧ path' (n - 1) = y ∧ ∀ i, i + 1 < n → r.Edge (path' i) (path' (i + 1)) := by
  have hv := reachable_valid h
  refine ⟨?_, (Rep.isReachableNonConst_spec hv hx.1 hy.1).2, fun maxPathLen path n path' hfind => ?_⟩
  · rw [Rep.isReachable, decide_eq_true_eq]
    exact (Rep.findPath_spec hv x y 0 _).pos_iff
  · have hpath := (Rep.findPath_spec hv x y maxPathLen path).path
    rw [hfind] at hpath
    exact hpath

theorem path_queries_reversedEdge :
    system.Reachable reversedEdge ∧ reversedEdge.Live 1 ∧ reversedEdge.Live 0 ∧
      reversedEdge.isReachable 1 0 = true :=
  have hlive := (reachable_valid reversedEdge_reachable).live_of_edge reversedEdge_edge
  ⟨reversedEdge_reachable, hlive.1, hlive.2,
    (path_queries reversedEdge_reachable hlive.1 hlive.2).1.mpr (.single reversedEdge_edge)⟩

end TfReading.GraphCycles
