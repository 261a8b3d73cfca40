import TfReading.Deadness.Analysis
import TfReading.Deadness.Simplify
import TfReading.Library.Runs

/-!
# What the handlers set

If no recurrence is part of the predicates of its inputs, a handler gives the slots of its node
predicates with known values, and it leaves those of all other nodes and their values alone.
-/

namespace TfReading.Deadness

open Factory Outcome List

namespace Factory

variable {f : Factory} {operands : List Nat}

theorem makeAndPredicate_yields (hf : f.Valid) (hops : ∀ op ∈ operands, f.Plain op) :
    Yields f (f.makeAndPredicate operands) (fun _ v => junction true v operands) :=
  (level_sound 7).makeAndOr f operands true hf hops

theorem makeOrPredicate_yields (hf : f.Valid) (hops : ∀ op ∈ operands, f.Plain op) :
    Yields f (f.makeOrPredicate operands) (fun _ v => junction false v operands) :=
  (level_sound 7).makeAndOr f operands false hf hops

theorem makeNotPredicate_yields (hf : f.Valid) {pred : Nat} (hp : f.Plain pred) :
    Yields f (f.makeNotPredicate pred) (fun _ v => !v pred) :=
  (level_sound 7).makeNot f pred hf hp

theorem makeTrue_yields (hf : f.Valid) : Yields f f.makeTrue (fun _ _ => true) :=
  makeAndPredicate_yields hf (forall_mem_nil _)

theorem makeFalse_yields (hf : f.Valid) : Yields f f.makeFalse (fun _ _ => false) :=
  makeOrPredicate_yields hf (forall_mem_nil _)

theorem makeConstant_yields (hf : f.Valid) (b : Bool) :
    Yields f (if b then f.makeTrue else f.makeFalse) (fun _ _ => b) := by
  cases b with
  | false => exact makeFalse_yields hf
  | true => exact makeTrue_yields hf

end Factory

/-! ## Symbols -/

namespace Graph

variable {g : Graph} {f : Factory} {node output : Nat}

def boolValue (g : Graph) (σ : Assignment) (node output : Nat) : Bool :=
  match g.op node with
  | .const (.bool value) => value
  | _ => σ.boolValue ⟨node, some output⟩

def intValue (g : Graph) (σ : Assignment) (node output : Nat) : Int :=
  match g.op node with
  | .const (.int32 value) => value
  | _ => σ.intValue ⟨node, some output⟩

/-- The output is boolean, and if it is of a constant then that is a boolean, too. -/
structure BoolTensor (g : Graph) (node output : Nat) : Prop where
  type : (g.node node).outputTypes[output]? = some .bool
  const : ∀ value, g.op node = .const value → ∃ b, value = .bool b

def selector (g : Graph) (n : Nat) : Nat × Nat :=
  match g.inputEdge n 1 with
  | .ok pred => pred
  | .error _ => (0, 0)

structure BoolSelector (g : Graph) (n : Nat) : Prop where
  edge : g.inputEdge n 1 = .ok (g.selector n)
  bool : g.BoolTensor (g.selector n).1 (g.selector n).2

theorem selector_sat (n : Nat) :
    Sat (fun _ => ¬g.BoolSelector n) (fun pred => pred = g.selector n) (g.inputEdge n 1) := by
  cases h : g.inputEdge n 1 with
  | ok pred =>
    show pred = g.selector n
    rw [selector, h]
  | error =>
    intro hsel
    have hedge := hsel.edge
    rw [h] at hedge
    cases hedge

theorem symbol_yields (hf : f.Valid) (tensor : TensorId) (mustBeTrue : Bool) :
    Yields f (f.intern (.symbol tensor mustBeTrue)) (fun σ _ => σ.symbol tensor mustBeTrue) :=
  intern_yields hf (forall_mem_nil _) rfl fun _ _ _ h => h

theorem makeSymbolPredicate_true (hf : f.Valid) (node output : Nat) :
    Sat (fun _ => ¬g.BoolTensor node output)
      (fun r => Yields f r (fun σ _ => g.boolValue σ node output))
      (g.makeSymbolPredicate node output true f) := by
  unfold makeSymbolPredicate
  split
  next hty => exact fun h => hty.2 h.type
  next =>
    split
    next value hop _ =>
      refine (makeConstant_yields hf value).congr fun σ v _ => ?_
      rw [boolValue, hop]
    next value hno hop _ =>
      intro h
      obtain ⟨b, hb⟩ := h.const value hop
      exact hno b hb
    next hno =>
      refine (symbol_yields hf ⟨node, some output⟩ true).congr fun σ v _ => ?_
      rw [boolValue]
      split
      next value hop => exact absurd rfl (hno _ hop)
      next => rfl

theorem makeSymbolPredicate_false :
    g.makeSymbolPredicate node output false f =
      .ok (f.intern (.symbol ⟨node, some output⟩ false)) := by
  unfold makeSymbolPredicate
  rw [if_neg (by simp)]
  split
  next h => cases h
  next h => cases h
  next => rfl

theorem makeIntSymbolPredicate_sat (hf : f.Valid) (value : Int) :
    Sat (fun _ => True)
      (fun r => Yields f r (fun σ _ => decide (g.intValue σ node output = value)))
      (g.makeIntSymbolPredicate node output value f) := by
  unfold makeIntSymbolPredicate
  split
  · trivial
  · split
    next const hop =>
      have hmade := makeConstant_yields hf (decide (const = value))
      simp only [decide_eq_true_eq] at hmade
      refine hmade.congr fun σ v _ => ?_
      rw [intValue, hop]
    next => trivial
    next hint hconst =>
      refine intern_yields hf (forall_mem_nil _) rfl fun σ v p h => Eq.trans h ?_
      rw [intValue]
      split
      next const hop => exact absurd hop (hint const)
      next => rfl

end Graph

namespace Analysis

variable {g : Graph} {s s' s'' : Analysis} {track : Bool} {n : Nat}

def pred (s : Analysis) (e : Edge) : Nat := (s.predicateMap e.tensorId).getD 0

def PlainInputs (s : Analysis) (edges : List Edge) : Prop :=
  ∀ e ∈ edges, ∀ p, s.predicateMap e.tensorId = some p → s.factory.Plain p

def Visited (s : Analysis) (edges : List Edge) : Prop :=
  ∀ e ∈ edges, s.predicateMap e.tensorId = some (s.pred e)

theorem predsOf_sat (edges : List Edge) :
    Sat (fun _ => ¬s.Visited edges) (fun preds => preds = edges.map s.pred ∧ s.Visited edges)
      (s.predsOf edges) := by
  induction edges with
  | nil => exact ⟨rfl, forall_mem_nil _⟩
  | cons e edges ih =>
    rw [predsOf, mapM_cons, Visited, forall_mem_cons, map_cons, pred]
    cases s.predicateMap e.tensorId with
    | none => exact fun hvisited => nomatch hvisited.1
    | some p =>
      exact (ih.imp (fun _ hno hvisited => hno hvisited.2) (fun _ hp => hp)).bind
        fun preds hpreds => ⟨congrArg (p :: ·) hpreds.1, rfl, hpreds.2⟩

theorem PlainInputs.preds {edges : List Edge} (hin : s.PlainInputs edges) (h : s.Visited edges) :
    ∀ p ∈ edges.map s.pred, s.factory.Plain p := by
  intro p hp
  obtain ⟨e, he, rfl⟩ := mem_map.mp hp
  exact hin e he _ (h e he)

variable {f : Factory}

/-! ## Setting predicates -/

theorem setPredicates_factory (outputs : List (Option Nat)) (s : Analysis) (p : Nat) :
    (setPredicates g track n outputs s p).factory = s.factory := by
  induction outputs generalizing s with
  | nil => rfl
  | cons output outputs ih => exact ih _

variable {p : Nat} {outputs : List (Option Nat)}

theorem setPredicates_of_not_mem {t : TensorId}
    (ht : ¬(t.node = n ∧ t.output ∈ outputs)) (s : Analysis) :
    (setPredicates g track n outputs s p).predicateMap t = s.predicateMap t := by
  induction outputs generalizing s with
  | nil => rfl
  | cons output outputs ih =>
    have hne : t ≠ ⟨n, output⟩ := by
      intro heq
      rw [heq] at ht
      exact ht ⟨rfl, mem_cons_self⟩
    have hrest : ¬(t.node = n ∧ t.output ∈ outputs) := fun h =>
      ht ⟨h.1, mem_cons_of_mem output h.2⟩
    exact (ih hrest _).trans (Function.update_of_ne hne ..)

theorem setPredicates_of_mem {output : Option Nat} (ht : output ∈ outputs) (s : Analysis) :
    (setPredicates g track n outputs s p).predicateMap ⟨n, output⟩ = some p := by
  induction outputs generalizing s with
  | nil => exact absurd ht not_mem_nil
  | cons other outputs ih =>
    by_cases hin : output ∈ outputs
    · exact ih hin _
    · rcases mem_cons.mp ht with heq | ht
      · subst heq
        have hnot : ¬(n = n ∧ output ∈ outputs) := fun h => hin h.2
        exact (setPredicates_of_not_mem (t := ⟨n, output⟩) hnot _).trans (Function.update_self ..)
      · exact absurd ht hin

def Holds (s : Analysis) (n : Nat) (value : Assignment → (Nat → Bool) → Bool)
    (output : Option Nat) : Prop :=
  ∃ p, s.predicateMap ⟨n, output⟩ = some p ∧ s.factory.Plain p ∧
    ∀ σ v, s.factory.Models σ v → v p = value σ v

structure Sets (s : Analysis) (n : Nat) (outputs : List (Option Nat))
    (value : Option Nat → Assignment → (Nat → Bool) → Bool) (s' : Analysis) : Prop where
  valid : s'.factory.Valid
  grows : Extends s.factory s'.factory
  others : ∀ t, ¬(t.node = n ∧ t.output ∈ outputs) → s'.predicateMap t = s.predicateMap t
  holds : ∀ output ∈ outputs, s'.Holds n (value output) output

variable {outputs outputs' : List (Option Nat)}
    {value : Option Nat → Assignment → (Nat → Bool) → Bool} {preds branches : List Nat}

theorem Sets.of_yields {value0 : Assignment → (Nat → Bool) → Bool}
    (h : Yields s.factory (p, f) value0)
    (hvalue : ∀ output ∈ outputs, ∀ σ v, s.factory.Models σ v → value0 σ v = value output σ v) :
    Sets s n outputs value (setPredicates g track n outputs { s with factory := f } p) := by
  refine ⟨?_, ?_, fun t ht => setPredicates_of_not_mem ht _, fun output hout => ?_⟩
  · rw [setPredicates_factory]
    exact h.valid
  · rw [setPredicates_factory]
    exact h.grows
  · refine ⟨p, setPredicates_of_mem hout _, ?_⟩
    rw [setPredicates_factory]
    refine ⟨h.made, fun σ v hv => ?_⟩
    rw [h.value_eq σ v hv, hvalue output hout σ v (h.grows.restrict hv)]

theorem Sets.append (h : Sets s n outputs value s') (h' : Sets s' n outputs' value s'') :
    Sets s n (outputs ++ outputs') value s'' := by
  refine ⟨h'.valid, h.grows.trans h'.grows, fun t ht => ?_, fun output hout => ?_⟩
  · rw [h'.others t fun hin => ht ⟨hin.1, mem_append_right _ hin.2⟩,
      h.others t fun hin => ht ⟨hin.1, mem_append_left _ hin.2⟩]
  · by_cases hin : output ∈ outputs'
    · exact h'.holds output hin
    · obtain ⟨p, hp, hplain, hval⟩ := h.holds output ((mem_append.mp hout).resolve_right hin)
      refine ⟨p, ?_, hplain.extend h'.grows.get, fun σ v hv => hval σ v (h'.grows.restrict hv)⟩
      rw [h'.others _ fun h => hin h.2, hp]

theorem Sets.refl (hs : s.factory.Valid) (n : Nat) (value : Option Nat → Assignment → (Nat → Bool) → Bool) :
    Sets s n [] value s :=
  ⟨hs, .refl _, fun _ _ => rfl, forall_mem_nil _⟩

/-- Making predicates first sets nothing. -/
theorem Sets.of_extends (hext : Extends s.factory f)
    (h : Sets { s with factory := f } n outputs value s') : Sets s n outputs value s' :=
  { h with grows := hext.trans h.grows }

theorem Sets.setAnd (h : Sets s n outputs value s') (outputs' : List (Option Nat))
    (hpreds : ∀ p ∈ preds, s'.factory.Plain p)
    (hvalue : ∀ output ∈ outputs', ∀ σ v, s'.factory.Models σ v →
      junction true v preds = value output σ v) :
    Sets s n (outputs ++ outputs') value (setAnd g track n outputs' s' preds) :=
  h.append (.of_yields (makeAndPredicate_yields h.valid hpreds) hvalue)

theorem Sets.setAnd_snoc (h : Sets s n outputs value s') (outputs' : List (Option Nat))
    (hpreds : ∀ p ∈ preds, s'.factory.Plain p) (hp : s'.factory.Plain p)
    (hvalue : ∀ output ∈ outputs', ∀ σ v, s'.factory.Models σ v →
      (junction true v preds && v p) = value output σ v) :
    Sets s n (outputs ++ outputs') value (Analysis.setAnd g track n outputs' s' (preds ++ [p])) := by
  refine h.setAnd outputs' (forall_mem_append.mpr ⟨hpreds, forall_mem_singleton.mpr hp⟩)
    fun output hout σ v hv => ?_
  rw [junction_true_snoc, hvalue output hout σ v hv]

theorem plain_of_extends {l : List Nat} {f' : Factory} (hl : ∀ p ∈ l, f.Plain p)
    (h : Extends f f') : ∀ p ∈ l, f'.Plain p :=
  fun p hp => (hl p hp).extend h.get

/-! ## Handlers -/

def inputsAlive (g : Graph) (s : Analysis) (n : Nat) (v : Nat → Bool) : Bool :=
  junction true (fun e => v (s.pred e)) (g.inEdges n)

def dataAlive (g : Graph) (s : Analysis) (n : Nat) (v : Nat → Bool) : Bool :=
  junction false (fun e => v (s.pred e)) ((g.inEdges n).filter (fun e => !e.isControlEdge))

theorem handleGeneric_sets (hs : s.factory.Valid) (hin : s.PlainInputs (g.inEdges n)) :
    Sat (fun _ => ¬s.Visited (g.inEdges n))
      (fun s' => s.Visited (g.inEdges n) ∧
        Sets s n ((List.range (g.numOutputs n)).map some ++ [none]) (fun _ _ => inputsAlive g s n) s')
      (handleGeneric g track s n) := by
  refine (predsOf_sat (g.inEdges n)).bind fun preds hpreds => ?_
  obtain ⟨rfl, hvisited⟩ := hpreds
  refine ⟨hvisited, (Sets.refl hs n _).setAnd _ (hin.preds hvisited) ?_⟩
  exact fun _ _ _ v _ => junction_map ..

theorem handleRecv_sets (hs : s.factory.Valid) (hin : s.PlainInputs (g.inEdges n)) :
    Sat (fun _ => ¬s.Visited (g.inEdges n))
      (fun s' => s.Visited (g.inEdges n) ∧
        Sets s n [some 0, none] (fun _ σ v => inputsAlive g s n v && σ.isAlive ⟨n, some 0⟩) s')
      (handleRecv g track s n) := by
  refine (predsOf_sat (g.inEdges n)).bind fun preds hpreds => ?_
  have hsym := Graph.symbol_yields hs ⟨n, some 0⟩ false
  rw [g.makeSymbolPredicate_false]
  generalize s.factory.intern (.symbol ⟨n, some 0⟩ false) = r at hsym ⊢
  obtain ⟨rfl, hvisited⟩ := hpreds
  refine ⟨hvisited, .of_extends hsym.grows ((Sets.refl hsym.valid n _).setAnd_snoc [some 0, none]
    (plain_of_extends (hin.preds hvisited) hsym.grows) hsym.made ?_)⟩
  intro _ _ σ v hv
  rw [junction_map, hsym.value_eq σ v hv]
  rfl

theorem handleControlTrigger_sets (hs : s.factory.Valid) :
    Sets s n [none] (fun _ _ _ => true)
      (setPredicates g false n [none] (s.make (·.makeTrue)).2 (s.make (·.makeTrue)).1) :=
  .of_yields (makeTrue_yields hs) fun _ _ _ _ _ => rfl

def switchValue (g : Graph) (s : Analysis) (n : Nat) : Option Nat → Assignment → (Nat → Bool) → Bool
  | some 0, σ, v => inputsAlive g s n v && !g.boolValue σ (g.selector n).1 (g.selector n).2
  | some _, σ, v => inputsAlive g s n v && g.boolValue σ (g.selector n).1 (g.selector n).2
  | none, _, v => inputsAlive g s n v

theorem handleSwitch_sets (hs : s.factory.Valid) (hin : s.PlainInputs (g.inEdges n))
    (hop : g.op n ≠ .switchN) :
    Sat (fun _ => ¬(s.Visited (g.inEdges n) ∧ g.BoolSelector n))
      (fun s' => s.Visited (g.inEdges n) ∧ Sets s n [some 0, some 1, none] (switchValue g s n) s')
      (handleSwitch g track s n) := by
  refine ((predsOf_sat (g.inEdges n)).imp (fun _ hno h => hno h.1) (fun _ h => h)).bind
    fun preds hpreds => ?_
  obtain ⟨rfl, hvisited⟩ := hpreds
  refine ((g.selector_sat n).imp (fun _ hno h => hno h.2) (fun _ h => h)).bind fun pred hpred => ?_
  rw [if_pos hop, hpred]
  have hsym := g.makeSymbolPredicate_true hs (g.selector n).1 (g.selector n).2
  refine (hsym.imp (fun _ hno h => hno h.2.bool) (fun _ h => h)).bind fun r htrue => ?_
  have hfalse := makeNotPredicate_yields htrue.valid htrue.made
  have hgrows := htrue.grows.trans hfalse.grows
  set negated := r.2.makeNotPredicate r.1
  let s1 : Analysis := { s with factory := negated.2 }
  let preds := (g.inEdges n).map s.pred
  have hhas := plain_of_extends (hin.preds hvisited) hgrows
  have h0 : Sets s1 n [some 0] (switchValue g s n)
      (setAnd g track n [some 0] s1 (preds ++ [negated.1])) := by
    refine (Sets.refl (s := s1) hfalse.valid n _).setAnd_snoc [some 0] hhas hfalse.made fun output hout σ v hv => ?_
    rw [mem_singleton.mp hout, junction_map, hfalse.value_eq σ v hv,
      htrue.value_eq σ v (hfalse.grows.restrict hv)]
    rfl
  have hgrows1 := hfalse.grows.trans h0.grows
  have h1 : Sets s1 n [some 0, some 1] (switchValue g s n) (setAnd g track n [some 1]
      (setAnd g track n [some 0] s1 (preds ++ [negated.1])) (preds ++ [r.1])) := by
    refine h0.setAnd_snoc [some 1] (plain_of_extends hhas h0.grows) (htrue.made.extend hgrows1.get) ?_
    intro output hout σ v hv
    rw [mem_singleton.mp hout, junction_map, htrue.value_eq σ v (hgrows1.restrict hv)]
    rfl
  refine ⟨hvisited, .of_extends hgrows
    (h1.setAnd [none] (plain_of_extends hhas h1.grows) fun output hout σ v _ => ?_)⟩
  rw [mem_singleton.mp hout, junction_map]
  rfl

/-! ## Merges -/

theorem handleMerge_sets (hs : s.factory.Valid)
    (hin : s.PlainInputs ((g.inEdges n).filter fun e => !e.isControlEdge))
    (hnew : s.predicateMap ⟨n, some 0⟩ = none) (hback : s.hasUnvisitedBackedge g n = false)
    (mode : Bool) :
    Sat (fun _ => ¬s.Visited ((g.inEdges n).filter (fun e => !e.isControlEdge)))
      (fun s' => s.Visited ((g.inEdges n).filter (fun e => !e.isControlEdge)) ∧
        Sets s n mergeSlots (fun _ _ => dataAlive g s n) s')
      (handleMerge g track mode s n) := by
  rw [handleMerge, hnew, hback]
  refine (predsOf_sat _).bind fun preds hpreds => ?_
  obtain ⟨rfl, hvisited⟩ := hpreds
  refine ⟨hvisited, .of_yields (makeOrPredicate_yields hs (hin.preds hvisited)) ?_⟩
  exact fun _ _ _ v _ => junction_map ..

end Analysis
end TfReading.Deadness
