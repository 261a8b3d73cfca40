import TfReading.Deadness.Handlers

/-!
# Deadness is exact on acyclic graphs

`Alive` says which outputs carry a live value under the rules of the executor.  On a graph without
loops, one visit of all nodes in topological order records predicates that are true iff their output
is alive.
-/

namespace TfReading.Deadness

open Factory Outcome List

namespace Graph

def IsOrdinary (g : Graph) (n : Nat) : Prop :=
  match g.op n with
  | .source | .const _ | .other => True
  | _ => False

/-- Nodes whose deadness does not depend on the iteration of a loop.  The N-way switch has its own
rule and is left out, too. -/
def LoopFree (g : Graph) (n : Nat) : Prop :=
  g.op n ≠ .enter ∧ g.op n ≠ .exit ∧ g.op n ≠ .nextIteration ∧ g.op n ≠ .switchN

instance (g : Graph) (n : Nat) : Decidable (g.LoopFree n) :=
  inferInstanceAs (Decidable (_ ∧ _))

def TopologicalFrom (g : Graph) : List Nat → List Nat → Prop
  | _, [] => True
  | done, n :: order =>
    n ∉ done ∧ (∀ e ∈ g.inEdges n, e.src ∈ done) ∧ g.TopologicalFrom (n :: done) order

instance decidableTopologicalFrom (g : Graph) :
    (done order : List Nat) → Decidable (g.TopologicalFrom done order)
  | _, [] => isTrue trivial
  | done, n :: order =>
    have := decidableTopologicalFrom g (n :: done) order
    inferInstanceAs (Decidable (_ ∧ _ ∧ _))

def HasSlot (g : Graph) (n : Nat) : Option Nat → Prop
  | some output => output < g.numOutputs n
  | none => True

/-- What the definition of an operation says about its nodes: the number of outputs, and that a
switch has a boolean selector.  Data edges come from outputs that exist. -/
structure Typed (g : Graph) (n : Nat) : Prop where
  edges : ∀ e ∈ g.inEdges n, g.HasSlot e.src e.tensorId.output
  switch : g.op n = .switch → g.numOutputs n = 2 ∧ g.BoolSelector n
  merge : g.op n = .merge → g.numOutputs n = 2
  controlTrigger : g.op n = .controlTrigger → g.numOutputs n = 0
  recv : g.op n = .recv → g.numOutputs n = 1

end Graph

/-- The rules of the executor.  `boolValue` gives the values of the switch predicates and `isAlive`
the signals that the receives get. -/
inductive Alive (g : Graph) (σ : Assignment) : TensorId → Prop
  | ordinary {n : Nat} {output : Option Nat} (hop : g.IsOrdinary n)
    (hin : ∀ e ∈ g.inEdges n, Alive g σ e.tensorId) : Alive g σ ⟨n, output⟩
  | switch {n : Nat} {output : Option Nat} (hop : g.op n = .switch)
    (hin : ∀ e ∈ g.inEdges n, Alive g σ e.tensorId)
    (htaken : ∀ i, output = some i →
      i = if g.boolValue σ (g.selector n).1 (g.selector n).2 then 1 else 0) :
    Alive g σ ⟨n, output⟩
  | merge {n : Nat} {output : Option Nat} (hop : g.op n = .merge) {e : Edge} (he : e ∈ g.inEdges n)
    (hdata : e.isControlEdge = false) (hin : Alive g σ e.tensorId) : Alive g σ ⟨n, output⟩
  | controlTrigger {n : Nat} {output : Option Nat} (hop : g.op n = .controlTrigger) :
    Alive g σ ⟨n, output⟩
  | recv {n : Nat} {output : Option Nat} (hop : g.op n = .recv)
    (hin : ∀ e ∈ g.inEdges n, Alive g σ e.tensorId) (hsignal : σ.isAlive ⟨n, some 0⟩ = true) :
    Alive g σ ⟨n, output⟩

variable {σ : Assignment} {output : Option Nat}

theorem alive_iff {g : Graph} {n : Nat} :
    Alive g σ ⟨n, output⟩ ↔
      match g.op n with
      | .source | .const _ | .other => ∀ e ∈ g.inEdges n, Alive g σ e.tensorId
      | .switch => (∀ e ∈ g.inEdges n, Alive g σ e.tensorId) ∧ ∀ i, output = some i →
          i = if g.boolValue σ (g.selector n).1 (g.selector n).2 then 1 else 0
      | .merge => ∃ e ∈ g.inEdges n, e.isControlEdge = false ∧ Alive g σ e.tensorId
      | .controlTrigger => True
      | .recv => (∀ e ∈ g.inEdges n, Alive g σ e.tensorId) ∧ σ.isAlive ⟨n, some 0⟩ = true
      | _ => False := by
  constructor
  · intro h
    cases h with
    | ordinary hop =>
      rw [Graph.IsOrdinary] at hop
      split at hop
      next h => rwa [h]
      next h => rwa [h]
      next h => rwa [h]
      next => exact hop.elim
    | switch hop hin htaken =>
      rw [hop]
      exact ⟨hin, htaken⟩
    | merge hop he hdata hin =>
      rw [hop]
      exact ⟨_, he, hdata, hin⟩
    | controlTrigger hop =>
      rw [hop]
      trivial
    | recv hop hin hsignal =>
      rw [hop]
      exact ⟨hin, hsignal⟩
  · intro h
    split at h
    next hop => exact .ordinary (by rw [Graph.IsOrdinary, hop]; trivial) h
    next hop => exact .ordinary (by rw [Graph.IsOrdinary, hop]; trivial) h
    next hop => exact .ordinary (by rw [Graph.IsOrdinary, hop]; trivial) h
    next hop => exact .switch hop h.1 h.2
    next hop =>
      obtain ⟨e, he, hdata, hin⟩ := h
      exact .merge hop he hdata hin
    next hop => exact .controlTrigger hop
    next hop => exact .recv hop h.1 h.2
    next => exact h.elim

namespace Analysis

def handleNodes (g : Graph) (s : Analysis) (order : List Nat) : Except Error Analysis :=
  order.foldlM (handleNode g false false) s

variable {g : Graph} {s s' : Analysis} {n : Nat} {done : List Nat} {v : Nat → Bool}

/-- The predicates recorded so far are exact. -/
structure Exact (g : Graph) (done : List Nat) (s : Analysis) : Prop where
  valid : s.factory.Valid
  plain : ∀ t p, s.predicateMap t = some p → s.factory.Plain p
  visited : ∀ t p, s.predicateMap t = some p → t.node ∈ done
  exact : ∀ t p, s.predicateMap t = some p → ∀ σ v, s.factory.Models σ v →
    (v p = true ↔ Alive g σ t)
  recorded : ∀ m ∈ done, g.Typed m → ∀ output, g.HasSlot m output →
    ∃ p, s.predicateMap ⟨m, output⟩ = some p

theorem Exact.inputs (h : Exact g done s) {edges : List Edge} (hvisited : s.Visited edges)
    (hv : s.factory.Models σ v) {e : Edge} (he : e ∈ edges) :
    v (s.pred e) = true ↔ Alive g σ e.tensorId :=
  h.exact e.tensorId _ (hvisited e he) σ v hv

theorem Exact.inputsAlive (h : Exact g done s) (hvisited : s.Visited (g.inEdges n))
    (hv : s.factory.Models σ v) :
    inputsAlive g s n v = true ↔ ∀ e ∈ g.inEdges n, Alive g σ e.tensorId := by
  rw [Analysis.inputsAlive, junction_eq_iff]
  exact forall₂_congr fun e he => h.inputs hvisited hv he

theorem Exact.of_sets (h : Exact g done s) {outputs : List (Option Nat)}
    {value : Option Nat → Assignment → (Nat → Bool) → Bool} (hsets : Sets s n outputs value s')
    (hslots : g.Typed n → ∀ output, g.HasSlot n output → output ∈ outputs)
    (hvalue : ∀ output ∈ outputs, ∀ σ v, s.factory.Models σ v →
      (value output σ v = true ↔ Alive g σ ⟨n, output⟩)) : Exact g (n :: done) s' := by
  refine ⟨hsets.valid, fun t p hp => ?_, fun t p hp => ?_, fun t p hp σ v hv => ?_,
    fun m hm htyped output hslot => ?_⟩
  · by_cases ht : t.node = n ∧ t.output ∈ outputs
    · obtain ⟨rfl, hout⟩ := ht
      obtain ⟨q, hq, hplain, -⟩ := hsets.holds t.output hout
      exact Option.some.inj (hq.symm.trans hp) ▸ hplain
    · rw [hsets.others t ht] at hp
      exact (h.plain t p hp).extend hsets.grows.get
  · by_cases ht : t.node = n
    · exact ht ▸ mem_cons_self
    · rw [hsets.others t fun hin => ht hin.1] at hp
      exact mem_cons_of_mem n (h.visited t p hp)
  · by_cases ht : t.node = n ∧ t.output ∈ outputs
    · obtain ⟨rfl, hout⟩ := ht
      obtain ⟨q, hq, -, hval⟩ := hsets.holds t.output hout
      have hpq : q = p := Option.some.inj (hq.symm.trans hp)
      rw [← hpq, hval σ v hv]
      exact hvalue t.output hout σ v (hsets.grows.restrict hv)
    · rw [hsets.others t ht] at hp
      exact h.exact t p hp σ v (hsets.grows.restrict hv)
  · by_cases hin : m = n ∧ output ∈ outputs
    · obtain ⟨rfl, hout⟩ := hin
      obtain ⟨q, hq, -⟩ := hsets.holds output hout
      exact ⟨q, hq⟩
    · rw [hsets.others ⟨m, output⟩ hin]
      rcases mem_cons.mp hm with heq | hm
      · subst heq
        exact absurd ⟨rfl, hslots htyped output hslot⟩ hin
      · exact h.recorded m hm htyped output hslot

theorem mem_slots {k : Nat} (h : g.HasSlot n output) (hk : g.numOutputs n = k) :
    output ∈ (List.range k).map some ++ [none] := by
  cases output with
  | none => simp
  | some =>
    rw [Graph.HasSlot, hk] at h
    simp [h]

section

variable (h : Exact g done s)

include h

theorem Exact.plainInputs (edges : List Edge) : s.PlainInputs edges :=
  fun e _ p hp => h.plain e.tensorId p hp

theorem handleSwitch_exact (hop : g.op n = .switch) :
    Sat (fun _ => ¬(g.Typed n ∧ s.Visited (g.inEdges n))) (Exact g (n :: done))
      (handleSwitch g false s n) := by
  have hne : g.op n ≠ .switchN := by
    rw [hop]
    nofun
  refine (handleSwitch_sets h.valid (h.plainInputs _) hne).imp ?_ fun s' hpost => ?_
  · exact fun _ hno hboth => hno ⟨hboth.2, (hboth.1.switch hop).2⟩
  · refine h.of_sets hpost.2 (fun htyped output hslot => ?_) fun output hout σ v hv => ?_
    · exact mem_slots hslot (htyped.switch hop).1
    · rw [alive_iff, hop, ← h.inputsAlive hpost.1 hv]
      simp only [mem_cons, not_mem_nil, or_false] at hout
      rcases hout with rfl | rfl | rfl
      · cases hb : g.boolValue σ (g.selector n).1 (g.selector n).2 <;> simp [switchValue, hb]
      · cases hb : g.boolValue σ (g.selector n).1 (g.selector n).2 <;> simp [switchValue, hb]
      · simp [switchValue]

theorem handleMerge_exact (hop : g.op n = .merge) (hnew : n ∉ done)
    (hsrc : ∀ e ∈ g.inEdges n, g.op e.src ≠ .nextIteration) :
    Sat (fun _ => ¬(g.Typed n ∧ s.Visited (g.inEdges n))) (Exact g (n :: done))
      (handleMerge g false false s n) := by
  have hfirst : s.predicateMap ⟨n, some 0⟩ = none := by
    rw [Option.eq_none_iff_forall_ne_some]
    exact fun p hp => hnew (h.visited _ p hp)
  have hback : s.hasUnvisitedBackedge g n = false := by
    rw [hasUnvisitedBackedge, any_eq_false]
    intro e he
    simp [hsrc e he]
  refine (handleMerge_sets h.valid (h.plainInputs _) hfirst hback false).imp ?_ fun s' hpost => ?_
  · exact fun _ hno hboth => hno fun e he => hboth.2 e (mem_of_mem_filter he)
  · refine h.of_sets hpost.2 (fun htyped output hslot => ?_) fun output _ σ v hv => ?_
    · exact mem_slots hslot (htyped.merge hop)
    · rw [alive_iff, hop]
      -- `dataAlive` is a disjunction over the data edges.
      refine junction_eq_not_iff.trans ⟨fun hex => ?_, fun hex => ?_⟩
      · obtain ⟨e, he, hval⟩ := hex
        have hmem := mem_filter.mp he
        exact ⟨e, hmem.1, by simpa using hmem.2, (h.inputs hpost.1 hv he).mp hval⟩
      · obtain ⟨e, he, hdata, halive⟩ := hex
        have hmem : e ∈ (g.inEdges n).filter (fun e => !e.isControlEdge) :=
          mem_filter.mpr ⟨he, by simpa using hdata⟩
        exact ⟨e, hmem, (h.inputs hpost.1 hv hmem).mpr halive⟩

theorem handleControlTrigger_exact (hop : g.op n = .controlTrigger) :
    Exact g (n :: done)
      (setPredicates g false n [none] (s.make (·.makeTrue)).2 (s.make (·.makeTrue)).1) := by
  refine h.of_sets (handleControlTrigger_sets h.valid) (fun htyped output hslot => ?_) ?_
  · exact mem_slots hslot (htyped.controlTrigger hop)
  · intro output _ σ v _
    rw [alive_iff, hop]
    exact iff_of_true rfl trivial

theorem handleRecv_exact (hop : g.op n = .recv) :
    Sat (fun _ => ¬(g.Typed n ∧ s.Visited (g.inEdges n))) (Exact g (n :: done))
      (handleRecv g false s n) := by
  refine (handleRecv_sets h.valid (h.plainInputs _)).imp (fun _ hno hboth => hno hboth.2) fun s' hpost => ?_
  refine h.of_sets hpost.2 (fun htyped output hslot => ?_) fun output _ σ v hv => ?_
  · exact mem_slots hslot (htyped.recv hop)
  · rw [alive_iff, hop, Bool.and_eq_true, h.inputsAlive hpost.1 hv]

theorem handleGeneric_exact
    (hrule : ∀ σ output, Alive g σ ⟨n, output⟩ ↔ ∀ e ∈ g.inEdges n, Alive g σ e.tensorId) :
    Sat (fun _ => ¬(g.Typed n ∧ s.Visited (g.inEdges n))) (Exact g (n :: done))
      (handleGeneric g false s n) := by
  refine (handleGeneric_sets h.valid (h.plainInputs _)).imp (fun _ hno hboth => hno hboth.2) fun s' hpost => ?_
  refine h.of_sets hpost.2 (fun _ output hslot => mem_slots hslot rfl) fun output _ σ v hv => ?_
  rw [hrule, h.inputsAlive hpost.1 hv]

theorem handleNode_exact (hfree : g.LoopFree n) (hnew : n ∉ done)
    (hsrc : ∀ e ∈ g.inEdges n, g.op e.src ≠ .nextIteration) :
    Sat (fun _ => ¬(g.Typed n ∧ s.Visited (g.inEdges n))) (Exact g (n :: done))
      (handleNode g false false s n) := by
  rw [handleNode]
  split
  next hop => exact handleSwitch_exact h hop
  next hop => exact absurd hop hfree.2.2.2
  next hop => exact handleMerge_exact h hop hnew hsrc
  next hop => exact handleControlTrigger_exact h hop
  next hop => exact handleRecv_exact h hop
  next hop => exact handleGeneric_exact h fun σ output => by rw [alive_iff, hop]
  next hop => exact absurd hop hfree.2.2.1
  next hop => exact absurd hop hfree.1
  next hop => exact absurd hop hfree.2.1
  next hop => exact handleGeneric_exact h fun σ output => by rw [alive_iff, hop]
  next hop => exact handleGeneric_exact h fun σ output => by rw [alive_iff, hop]

end

theorem Exact.init (g : Graph) : Exact g [] .init := by
  exact ⟨⟨nofun, nofun⟩, nofun, nofun, nofun, nofun⟩

theorem tensorId_eta (e : Edge) : (⟨e.src, e.tensorId.output⟩ : TensorId) = e.tensorId := by
  cases e with
  | data | control => rfl

theorem handleNodes_exact {order : List Nat} (h : Exact g done s)
    (htopo : g.TopologicalFrom done order) (hfree : ∀ n ∈ done ++ order, g.LoopFree n) :
    Sat (fun _ => ¬∀ n ∈ done ++ order, g.Typed n)
      (fun s' => ∃ done', Exact g done' s' ∧ ∀ n ∈ done ++ order, n ∈ done') (handleNodes g s order) := by
  induction order generalizing s done with
  | nil => exact ⟨done, h, fun n hn => by simpa using hn⟩
  | cons n order ih =>
    obtain ⟨hnew, hsrc, hrest⟩ := htopo
    have hmem : ∀ m, m ∈ n :: done ++ order ↔ m ∈ done ++ n :: order := fun m => by
      simp [or_left_comm]
    have hn := (hmem n).mp mem_cons_self
    have hback : ∀ e ∈ g.inEdges n, g.op e.src ≠ .nextIteration := fun e he =>
      (hfree e.src (mem_append_left _ (hsrc e he))).2.2.1
    refine .bind ((handleNode_exact h (hfree n hn) hnew hback).imp ?_ fun _ hpost => hpost) ?_
    · -- In a typed graph the slots of all nodes that are done have been recorded.
      intro _ hno htyped
      refine hno ⟨htyped n hn, fun e he => ?_⟩
      have hdone := hsrc e he
      obtain ⟨p, hp⟩ := h.recorded e.src hdone (htyped e.src (mem_append_left _ hdone))
        e.tensorId.output ((htyped n hn).edges e he)
      rw [tensorId_eta] at hp
      rw [pred, hp]
      rfl
    · intro s1 h1
      refine (ih h1 hrest fun m hm => hfree m ((hmem m).mp hm)).imp ?_ ?_
      · exact fun _ hno htyped => hno fun m hm => htyped m ((hmem m).mp hm)
      · intro s' hpost
        obtain ⟨done', hexact, hall⟩ := hpost
        exact ⟨done', hexact, fun m hm => hall m ((hmem m).mpr hm)⟩

/-- A predicate is true iff its output is alive, for every assignment of the symbols; and if the
graph is typed then all outputs and control slots have their predicates. -/
theorem predicates_exact (g : Graph) (order : List Nat) (htopo : g.TopologicalFrom [] order)
    (hfree : ∀ n ∈ order, g.LoopFree n) :
    (∀ s, handleNodes g .init order = .ok s → (∀ σ, ∃ v, s.factory.Models σ v) ∧
      ∀ t p, s.predicateMap t = some p → ∀ σ v, s.factory.Models σ v →
        (v p = true ↔ Alive g σ t)) ∧
    ((∀ n ∈ order, g.Typed n) → ∃ s, handleNodes g .init order = .ok s ∧
      ∀ n ∈ order, ∀ output, g.HasSlot n output → ∃ p, s.predicateMap ⟨n, output⟩ = some p) := by
  have hrun := handleNodes_exact (.init g) htopo hfree
  refine ⟨fun s hs => ?_, fun htyped => ?_⟩
  · obtain ⟨done, hexact, -⟩ := hrun.of_ok hs
    exact ⟨hexact.valid.exists_models, hexact.exact⟩
  · obtain ⟨s, hs, done, hexact, hall⟩ :=
      (hrun.imp (fun _ hno => hno htyped) (fun _ h => h)).exists_ok
    exact ⟨s, hs, fun n hn output => hexact.recorded n (hall n hn) (htyped n hn) output⟩

/-- A switch on a received value, merged again under a control edge. -/
def diamond : Graph where
  node
    | 0 => ⟨.source, [], []⟩
    | 1 => ⟨.recv, [.bool], [.control 0]⟩
    | 2 => ⟨.switch, [.bool, .bool], [.data 1 0 0, .data 1 0 1]⟩
    | 3 => ⟨.other, [.bool], [.data 2 0 0]⟩
    | 4 => ⟨.controlTrigger, [], [.control 3]⟩
    | 5 => ⟨.merge, [.bool, .int32], [.data 3 0 0, .data 2 1 1, .control 4]⟩
    | _ => ⟨.other, [], []⟩
  controlFlowInfo _ := ⟨0, 0⟩

theorem diamond_exact : diamond.TopologicalFrom [] [0, 1, 2, 3, 4, 5] ∧
    (∀ n ∈ [0, 1, 2, 3, 4, 5], diamond.LoopFree n) ∧
    ∃ s, handleNodes diamond .init [0, 1, 2, 3, 4, 5] = .ok s ∧
      ∀ t p, s.predicateMap t = some p → ∀ σ v, s.factory.Models σ v →
        (v p = true ↔ Alive diamond σ t) := by
  have htopo : diamond.TopologicalFrom [] [0, 1, 2, 3, 4, 5] := by decide
  have hfree : ∀ n ∈ [0, 1, 2, 3, 4, 5], diamond.LoopFree n := by decide
  have hexact := predicates_exact diamond [0, 1, 2, 3, 4, 5] htopo hfree
  have hok : (handleNodes diamond .init [0, 1, 2, 3, 4, 5]).toOption.isSome = true := by
    decide +kernel
  obtain ⟨s, hsome⟩ := Option.isSome_iff_exists.mp hok
  have hs := eq_ok_of_toOption hsome
  exact ⟨htopo, hfree, s, hs, (hexact.1 s hs).2⟩

end Analysis
end TfReading.Deadness
