import TfReading.Deadness.Acyclic

/-!
# N-way switches

The outputs of a `_SwitchN` exclude each other and together are alive iff all inputs are.  The
control slot is set from the list of operands that the loop over the branches leaves behind, so it
is the predicate of the default branch.
-/

namespace TfReading.Deadness.Analysis

open Factory Outcome List

variable {g : Graph} {s s' : Analysis} {i n : Nat} {track : Bool}

/-- The branch that the index of an N-way switch selects.  An index of no branch selects the last. -/
def branchTaken (g : Graph) (σ : Assignment) (n : Nat) : Nat :=
  let index := g.intValue σ (g.selector n).1 (g.selector n).2
  if 0 ≤ index ∧ index < (g.numOutputs n - 1 : Nat) then index.toNat else g.numOutputs n - 1

theorem branchTaken_le (g : Graph) (σ : Assignment) (n : Nat) :
    branchTaken g σ n ≤ g.numOutputs n - 1 := by
  rw [branchTaken]
  split <;> omega

/-! ## What is set -/

/-- The control slot has the value of the last output. -/
def switchNValue (g : Graph) (s : Analysis) (n : Nat) (output : Option Nat) (σ : Assignment)
    (v : Nat → Bool) : Bool :=
  inputsAlive g s n v && decide (branchTaken g σ n = output.getD (g.numOutputs n - 1))

/-- The loop leaves the inputs together with the negations of the branches so far. -/
theorem switchBranches_sets {s1 : Analysis} {preds : List Nat} {k : Nat}
    (hk : i + k = g.numOutputs n - 1) (hs : s1.factory.Valid)
    (hplain : ∀ p ∈ preds, s1.factory.Plain p)
    (hpreds : ∀ σ v, s1.factory.Models σ v →
      junction true v preds = (inputsAlive g s n v && decide (i ≤ branchTaken g σ n))) :
    Sat (fun _ => True)
      (fun r => Sets s1 n ((range' i k).map some) (switchNValue g s n) r.2 ∧
        (∀ p ∈ r.1, r.2.factory.Plain p) ∧ ∀ σ v, r.2.factory.Models σ v →
          junction true v r.1 = switchNValue g s n none σ v)
      (switchBranches g track n (g.selector n) (range' i k) preds s1) := by
  induction k generalizing i preds s1 with
  | zero =>
    refine ⟨.refl hs n _, hplain, fun σ v hv => ?_⟩
    have hle := branchTaken_le g σ n
    rw [hpreds σ v hv, switchNValue, Option.getD_none]
    congr 2
    exact propext ⟨fun h => by omega, fun h => by omega⟩
  | succ k ih =>
    refine (g.makeIntSymbolPredicate_sat hs i).bind fun r hbranch => ?_
    have hplain1 := plain_of_extends hplain hbranch.grows
    have hvalue : ∀ σ v, r.2.Models σ v → v r.1 = decide (branchTaken g σ n = i) := by
      intro σ v hv
      rw [hbranch.value_eq σ v hv, decide_eq_decide, branchTaken]
      split <;> omega
    have h1 : Sets { s1 with factory := r.2 } n [some i] (switchNValue g s n)
        (setAnd g track n [some i] { s1 with factory := r.2 } (preds ++ [r.1])) := by
      refine (Sets.refl (s := { s1 with factory := r.2 }) hbranch.valid n _).setAnd_snoc [some i]
        hplain1 hbranch.made fun output hout σ v hv => ?_
      rw [mem_singleton.mp hout, hpreds σ v (hbranch.grows.restrict hv), hvalue σ v hv, switchNValue,
        Option.getD_some, Bool.and_assoc, ← Bool.decide_and]
      congr 2
      exact propext ⟨fun h => h.2, fun h => ⟨h.ge, h⟩⟩
    have hneg := makeNotPredicate_yields h1.valid (hbranch.made.extend h1.grows.get)
    have hgrows := h1.grows.trans hneg.grows
    refine .imp (ih (by omega) hneg.valid (forall_mem_append.mpr
      ⟨plain_of_extends hplain1 hgrows, forall_mem_singleton.mpr hneg.made⟩) (fun σ v hv => ?_))
      (fun _ h => h) (fun r hr => ?_)
    · have hv1 := hgrows.restrict hv
      rw [junction_true_snoc, hpreds σ v (hbranch.grows.restrict hv1)]
      refine (congrArg _ (hneg.value_eq σ v hv)).trans ?_
      rw [hvalue σ v hv1, Bool.and_assoc, ← decide_not, ← Bool.decide_and]
      congr 2
      exact propext ⟨fun h => by omega, fun h => by omega⟩
    · exact ⟨.of_extends hbranch.grows (h1.append (.of_extends hneg.grows hr.1)), hr.2⟩

theorem handleSwitchN_sets (hs : s.factory.Valid) (hin : s.PlainInputs (g.inEdges n))
    (hop : g.op n = .switchN) :
    Sat (fun _ => True)
      (fun s' => s.Visited (g.inEdges n) ∧ Sets s n
        ((range (g.numOutputs n - 1)).map some ++ [g.lastOutput n, none]) (switchNValue g s n) s')
      (handleSwitch g track s n) := by
  refine ((predsOf_sat (g.inEdges n)).imp (fun _ _ => trivial) (fun _ h => h)).bind
    fun preds hpreds => ?_
  obtain ⟨rfl, hvisited⟩ := hpreds
  refine ((g.selector_sat n).imp (fun _ _ => trivial) (fun _ h => h)).bind fun pred hpred => ?_
  rw [if_neg (fun h => h hop), hpred, range_eq_range']
  refine (switchBranches_sets (s := s) (Nat.zero_add _) hs (hin.preds hvisited) fun σ v _ => ?_).bind
    fun r hr => ?_
  · rw [junction_map, decide_eq_true (Nat.zero_le _), Bool.and_true]
    rfl
  obtain ⟨hsets, hplain, hpreds⟩ := hr
  have hlast : switchNValue g s n (g.lastOutput n) = switchNValue g s n none := by
    rw [Graph.lastOutput]
    split <;> rfl
  have h1 : Sets r.2 n [g.lastOutput n] (switchNValue g s n)
      (setAnd g track n [g.lastOutput n] r.2 r.1) := by
    refine (Sets.refl hsets.valid n _).setAnd [g.lastOutput n] hplain fun output hout σ v hv => ?_
    rw [mem_singleton.mp hout, hlast, hpreds σ v hv]
  refine ⟨hvisited, hsets.append
    (h1.setAnd [none] (plain_of_extends hplain h1.grows) fun output hout σ v hv => ?_)⟩
  rw [mem_singleton.mp hout, hpreds σ v (h1.grows.restrict hv)]

/-! ## What it means -/

def BranchesExclusive (g : Graph) (n : Nat) (s : Analysis) : Prop :=
  ∀ i < g.numOutputs n, ∀ j < g.numOutputs n, i ≠ j → ∀ p q, s.predicateMap ⟨n, some i⟩ = some p →
    s.predicateMap ⟨n, some j⟩ = some q → ∀ σ v, s.factory.Models σ v → ¬(v p = true ∧ v q = true)

/-- Going from `s` to `s'`, some output of `n` is alive iff all inputs are. -/
def BranchesCover (g : Graph) (n : Nat) (s s' : Analysis) : Prop :=
  ∀ σ v, s'.factory.Models σ v →
    ((∃ i < g.numOutputs n, ∃ p, s'.predicateMap ⟨n, some i⟩ = some p ∧ v p = true) ↔
      inputsAlive g s n v = true)

def ControlCovers (g : Graph) (n : Nat) (s s' : Analysis) : Prop :=
  ∀ p, s'.predicateMap ⟨n, none⟩ = some p → ∀ σ v, s'.factory.Models σ v →
    (v p = true ↔ inputsAlive g s n v = true)

def AlwaysDefault (g : Graph) (n : Nat) (s : Analysis) : Prop :=
  ∀ σ v, s.factory.Models σ v → inputsAlive g s n v = true → branchTaken g σ n = g.numOutputs n - 1

section

variable (hs : s.factory.Valid) (hin : s.PlainInputs (g.inEdges n)) (hop : g.op n = .switchN)
  (hout : 2 ≤ g.numOutputs n) (hrun : handleSwitch g track s n = .ok s')

include hs hin hop hout hrun

theorem switchN_slot (output : Option Nat) (hslot : g.HasSlot n output) :
    ∃ p, s'.predicateMap ⟨n, output⟩ = some p ∧ ∀ σ v, s'.factory.Models σ v →
      (v p = true ↔ inputsAlive g s n v = true ∧
        branchTaken g σ n = output.getD (g.numOutputs n - 1)) := by
  obtain ⟨-, hsets⟩ := (handleSwitchN_sets hs hin hop).of_ok hrun
  have hmem : output ∈ (range (g.numOutputs n - 1)).map some ++ [g.lastOutput n, none] := by
    rw [Graph.lastOutput, if_neg (by omega)]
    cases output with
    | none => simp
    | some i =>
      have hi : i < g.numOutputs n := hslot
      simp only [mem_append, mem_map, mem_range, Option.some.injEq, exists_eq_right, mem_cons]
      omega
  obtain ⟨p, hp, -, hvalue⟩ := hsets.holds output hmem
  refine ⟨p, hp, fun σ v hv => ?_⟩
  rw [hvalue σ v hv, switchNValue, Bool.and_eq_true, decide_eq_true_iff]

theorem controlCovers_iff : ControlCovers g n s s' ↔ AlwaysDefault g n s := by
  obtain ⟨hvisited, hsets⟩ := (handleSwitchN_sets hs hin hop).of_ok hrun
  obtain ⟨c, hc, hcontrol⟩ := switchN_slot hs hin hop hout hrun none trivial
  constructor
  · -- A valuation of the factory before the call extends to one after it.
    intro hcovers σ v hv halive
    obtain ⟨v', hv', hsame⟩ := hsets.grows.get.models hsets.valid hv
    have halive' : inputsAlive g s n v' = true := by
      rwa [inputsAlive, junction_congr_values fun e he =>
        hsame _ (hin e he _ (hvisited e he)).lt]
    exact ((hcontrol σ v' hv').mp ((hcovers c hc σ v' hv').mpr halive')).2
  · intro hdefault p hp σ v hv
    rw [hc, Option.some.injEq] at hp
    subst hp
    rw [hcontrol σ v hv]
    exact ⟨fun h => h.1, fun h => ⟨h, hdefault σ v (hsets.grows.restrict hv) h⟩⟩

end

/-- What `HandleSwitch` computes for an N-way switch, if no recurrence is part of its inputs. -/
theorem switchN_predicates (g : Graph) (s s' : Analysis) (n : Nat) (track : Bool)
    (hs : s.factory.Valid) (hin : s.PlainInputs (g.inEdges n)) (hop : g.op n = .switchN)
    (hout : 2 ≤ g.numOutputs n) (hrun : handleSwitch g track s n = .ok s') :
    (∀ σ, ∃ v, s'.factory.Models σ v) ∧
    (∀ output, g.HasSlot n output → ∃ p, s'.predicateMap ⟨n, output⟩ = some p) ∧
    BranchesExclusive g n s' ∧ BranchesCover g n s s' ∧
      (ControlCovers g n s s' ↔ AlwaysDefault g n s) := by
  have hslot := switchN_slot hs hin hop hout hrun
  obtain ⟨-, hsets⟩ := (handleSwitchN_sets hs hin hop).of_ok hrun
  refine ⟨hsets.valid.exists_models, fun output h => ?_, ?_, fun σ v hv => ⟨?_, fun halive => ?_⟩,
    controlCovers_iff hs hin hop hout hrun⟩
  · obtain ⟨p, hp, -⟩ := hslot output h
    exact ⟨p, hp⟩
  · intro i hi j hj hij p q hp hq σ v hv hboth
    obtain ⟨p', hp', hvp⟩ := hslot (some i) hi
    obtain ⟨q', hq', hvq⟩ := hslot (some j) hj
    cases hp.symm.trans hp'
    cases hq.symm.trans hq'
    exact hij (((hvp σ v hv).mp hboth.1).2.symm.trans ((hvq σ v hv).mp hboth.2).2)
  · rintro ⟨i, hi, p, hp, hvalue⟩
    obtain ⟨p', hp', hvp⟩ := hslot (some i) hi
    cases hp.symm.trans hp'
    exact ((hvp σ v hv).mp hvalue).1
  · have htaken := branchTaken_le g σ n
    have hlt : branchTaken g σ n < g.numOutputs n := by omega
    obtain ⟨p, hp, hvp⟩ := hslot (some (branchTaken g σ n)) hlt
    exact ⟨_, hlt, p, hp, (hvp σ v hv).mpr ⟨halive, rfl⟩⟩

/-- Two branches.  The operation of node 1 computes the index. -/
def twoWay (op : Op) : Graph where
  node
    | 0 => ⟨.source, [], []⟩
    | 1 => ⟨op, [.int32], [.control 0]⟩
    | 2 => ⟨.switchN, [.other, .other], [.data 1 0 0, .data 1 0 1]⟩
    | _ => ⟨.other, [], []⟩
  controlFlowInfo _ := ⟨0, 0⟩

theorem twoWay_run (op : Op) (htopo : (twoWay op).TopologicalFrom [] [0, 1])
    (hfree : ∀ n ∈ [0, 1], (twoWay op).LoopFree n)
    (hok : (handleNodes (twoWay op) .init [0, 1] >>=
      (handleSwitch (twoWay op) false · 2)).toOption.isSome = true) :
    ∃ s s' done, handleNodes (twoWay op) .init [0, 1] = .ok s ∧ Exact (twoWay op) done s ∧
      handleSwitch (twoWay op) false s 2 = .ok s' := by
  obtain ⟨s', hsome⟩ := Option.isSome_iff_exists.mp hok
  obtain ⟨s, hs, hrun⟩ := exists_of_bind_eq_ok (eq_ok_of_toOption hsome)
  obtain ⟨done, hexact, -⟩ := (handleNodes_exact (.init _) htopo hfree).of_ok hs
  exact ⟨s, s', done, hs, hexact, hrun⟩

/-- The first branch is taken, but the control slot is dead. -/
theorem twoWay_control_dead :
    ∃ s s', handleNodes (twoWay .other) .init [0, 1] = .ok s ∧
      handleSwitch (twoWay .other) false s 2 = .ok s' ∧ ¬ControlCovers (twoWay .other) 2 s s' := by
  obtain ⟨s, s', done, hs, hexact, hrun⟩ :=
    twoWay_run .other (by decide) (by decide) (by decide +kernel)
  refine ⟨s, s', hs, hrun, fun hcovers => ?_⟩
  have hin := hexact.plainInputs ((twoWay .other).inEdges 2)
  have hvisited := ((handleSwitchN_sets hexact.valid hin rfl).of_ok hrun).1
  let σ : Assignment := ⟨fun _ => true, fun _ => 0, fun _ => true⟩
  have hsource : Alive (twoWay .other) σ ⟨0, none⟩ := .ordinary trivial nofun
  have hindex : Alive (twoWay .other) σ ⟨1, some 0⟩ :=
    .ordinary trivial (forall_mem_singleton.mpr hsource)
  obtain ⟨v, hv⟩ := hexact.valid.exists_models σ
  have halive : inputsAlive (twoWay .other) s 2 v = true :=
    (hexact.inputsAlive hvisited hv).mpr
      (forall_mem_cons.mpr ⟨hindex, forall_mem_singleton.mpr hindex⟩)
  have hdefault := (controlCovers_iff hexact.valid hin rfl (by decide) hrun).mp hcovers
  exact absurd (hdefault σ v hv halive) (by decide)

/-- With an index outside the branches the control slot is right. -/
theorem twoWay_control_covers :
    ∃ s s', handleSwitch (twoWay (.const (.int32 7))) false s 2 = .ok s' ∧
      AlwaysDefault (twoWay (.const (.int32 7))) 2 s ∧
      ControlCovers (twoWay (.const (.int32 7))) 2 s s' := by
  obtain ⟨s, s', done, -, hexact, hrun⟩ :=
    twoWay_run (.const (.int32 7)) (by decide) (by decide) (by decide +kernel)
  have hdefault : AlwaysDefault (twoWay (.const (.int32 7))) 2 s := fun _ _ _ _ => rfl
  exact ⟨s, s', hrun, hdefault, (switchN_predicates _ s s' 2 false hexact.valid
    (hexact.plainInputs _) rfl (by decide) hrun).2.2.2.2.mpr hdefault⟩

end TfReading.Deadness.Analysis
