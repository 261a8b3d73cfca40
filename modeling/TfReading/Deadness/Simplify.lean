import Mathlib.Data.List.Induction
import TfReading.Deadness.Models

/-!
# Simplification is sound

Whatever a factory simplifies and whatever it reuses, the predicate it returns has the value of the
conjunction, disjunction or negation that was asked for, if no recurrence is part of the operands.
-/

namespace TfReading.Deadness

open Factory List

namespace Level

/-- Calls at this depth return what they are asked for. -/
structure Sound (l : Level) : Prop where
  makeNot : ∀ f pred, f.Valid → f.Plain pred → Yields f (l.makeNot pred f) (fun _ v => !v pred)
  makeAndOr : ∀ f operands isAnd, f.Valid → (∀ op ∈ operands, f.Plain op) →
    Yields f (l.makeAndOr operands isAnd f) (fun _ v => junction isAnd v operands)

variable {f : Factory} {σ : Assignment} {v : Nat → Bool} {ops : List Nat} {pred : Nat}
    {r : Nat × Factory}

theorem makeInternedAndOr_yields (hf : f.Valid) (hops : ∀ op ∈ ops, f.Plain op) (isAnd : Bool) :
    Yields f (f.makeInternedAndOr ops isAnd) (fun _ v => junction isAnd v ops) := by
  have hperm := perm_insertionSort (· ≤ ·) ops
  have hvalid : ∀ op ∈ (Predicate.andOr isAnd (ops.insertionSort (· ≤ ·))).operands, f.Plain op :=
    fun op hop => hops op (hperm.mem_iff.mp hop)
  refine (intern_yields hf hvalid rfl fun _ _ _ h => h).congr (fun σ v _ => junction_congr ?_)
  exact forall_congr' fun op => by rw [hperm.mem_iff]

/-! ## Negation -/

theorem includes_cacheNot (f : Factory) (pred result : Nat) :
    Includes f (f.cacheNot pred result) ∧ Includes (f.cacheNot pred result) f := by
  rw [cacheNot]
  split <;> exact ⟨fun _ _ hp => hp, fun _ _ hp => hp⟩

theorem Yields.cacheNot (hp : f.Plain pred) (h : Yields f r (fun _ v => !v pred)) :
    Yields f (r.1, r.2.cacheNot pred r.1) (fun _ v => !v pred) := by
  obtain ⟨hto, hfrom⟩ := includes_cacheNot r.2 pred r.1
  refine ⟨⟨fun p content hp => ?_, fun p result hc => ?_⟩, ⟨fun p content hp => ?_, ?_⟩,
    h.made.extend hto, fun σ v hv => ?_⟩
  · exact h.valid.operands p content (hfrom p content hp)
  · have hcached : p < r.2.size ∧
        (r.2.Plain p → r.2.Plain result ∧ ∀ σ v, r.2.Models σ v → v result = !v p) := by
      rw [Factory.cacheNot] at hc
      split at hc
      · exact h.valid.cached p result hc
      · rw [lookup_cons] at hc
        split at hc
        next heq =>
          rw [eq_of_beq heq, ← Option.some.inj hc]
          exact ⟨(hp.extend h.grows.get).lt, fun _ => ⟨h.made, h.value_eq⟩⟩
        next => exact h.valid.cached p result hc
    obtain ⟨hlt, hneg⟩ := hcached
    refine ⟨hto.lt hlt, fun hplain => ?_⟩
    obtain ⟨hplain, hvalue⟩ := hneg (hplain.extend hfrom)
    exact ⟨hplain.extend hto, fun σ v hv => hvalue σ v (hto.models_of hv)⟩
  · exact hto p content (h.grows.get p content hp)
  · intro hnone
    rw [Factory.cacheNot]
    split <;> exact h.grows.hasNoRecurrence hnone
  · exact h.value_eq σ v (hto.models_of hv)

theorem cached_yields (impl : Nat → Factory → Nat × Factory) (hf : f.Valid) (hp : f.Plain pred)
    (himpl : Yields f (impl pred f) (fun _ v => !v pred)) :
    Yields f (cached impl pred f) (fun _ v => !v pred) := by
  rw [cached]
  cases hc : f.makeNotCache.lookup pred with
  | some result =>
    obtain ⟨hplain, hvalue⟩ := (hf.cached pred result hc).2 hp
    exact ⟨hf, .refl f, hplain, hvalue⟩
  | none => exact Yields.cacheNot hp himpl

theorem internNot_yields (hf : f.Valid) (hp : f.Plain pred) :
    Yields f (f.intern (.not pred)) (fun _ v => !v pred) :=
  intern_yields hf (forall_mem_singleton.mpr hp) rfl fun _ _ _ h => h

theorem overflowed_sound : overflowed.Sound where
  makeNot _ _ hf hp := cached_yields (fun pred f => f.intern (.not pred)) hf hp (internNot_yields hf hp)
  makeAndOr _ _ isAnd hf hops := makeInternedAndOr_yields hf hops isAnd

structure YieldsAll (f : Factory) (r : List Nat × Factory)
    (values : (Nat → Bool) → List Bool) : Prop where
  valid : r.2.Valid
  grows : Extends f r.2
  made : ∀ p ∈ r.1, r.2.Plain p
  values_eq : ∀ σ v, r.2.Models σ v → r.1.map v = values v

theorem YieldsAll.junction_eq {r : List Nat × Factory} {l : List Nat} {g : (Nat → Bool) → Nat → Bool}
    (h : YieldsAll f r (fun v => l.map (g v))) (hv : r.2.Models σ v) (b : Bool) :
    junction b v r.1 = junction b (g v) l := by
  have hvalues := h.values_eq σ v hv
  apply eq_of_flag_iff
  rw [junction_eq_iff, junction_eq_iff, ← forall_mem_map (P := (· = b)), hvalues,
    forall_mem_map]

theorem YieldsAll.nil (hf : f.Valid) : YieldsAll f ([], f) (fun _ => []) :=
  ⟨hf, .refl f, forall_mem_nil _, fun _ _ _ => rfl⟩

theorem YieldsAll.cons {rs : List Nat × Factory} {value : (Nat → Bool) → Bool}
    {values : (Nat → Bool) → List Bool} (h : Yields f r (fun _ => value))
    (hs : YieldsAll r.2 rs values) :
    YieldsAll f (r.1 :: rs.1, rs.2) (fun v => value v :: values v) := by
  refine ⟨hs.valid, h.grows.trans hs.grows, ?_, fun σ v hv => ?_⟩
  · exact forall_mem_cons.mpr ⟨h.made.extend hs.grows.get, hs.made⟩
  · rw [map_cons, hs.values_eq σ v hv, h.value_eq σ v (hs.grows.restrict hv)]

variable {inner : Level} (hin : inner.Sound)

include hin

theorem makeNots_yields (hf : f.Valid) (hops : ∀ op ∈ ops, f.Plain op) :
    YieldsAll f (inner.makeNots ops f) (fun v => ops.map (fun op => !v op)) := by
  induction ops generalizing f with
  | nil => exact .nil hf
  | cons op ops ih =>
    have hnot := hin.makeNot f op hf (hops op mem_cons_self)
    refine .cons hnot (ih hnot.valid fun op' hop' => ?_)
    exact (hops op' (mem_cons_of_mem op hop')).extend hnot.grows.get

theorem makeNotPredicateImpl_yields (hf : f.Valid) (hp : f.Plain pred) :
    Yields f (inner.makeNotPredicateImpl pred f) (fun _ v => !v pred) := by
  rw [makeNotPredicateImpl]
  split
  next isAnd operands hget =>
    have hops : ∀ op ∈ operands, f.Plain op := (hp.operands hget).2
    have hnots := makeNots_yields hin hf hops
    have hmade := hin.makeAndOr _ _ (!isAnd) hnots.valid hnots.made
    refine .of_extends hnots.grows (hmade.congr fun σ v hv => ?_)
    have hv1 := hmade.grows.restrict hv
    have hhold : v pred = junction isAnd v operands := hnots.grows.restrict hv1 pred _ hget
    rw [hnots.junction_eq hv1, junction_not, hhold]
  next operand hget =>
    refine ⟨hf, .refl f, (hp.operands hget).2 operand mem_cons_self, fun σ v hv => ?_⟩
    have hhold : v pred = !v operand := hv pred _ hget
    rw [hhold, Bool.not_not]
  · exact internNot_yields hf hp

/-! ## Conjunction and disjunction -/

omit hin

variable {isAnd : Bool} {all common negatedOps operands : List Nat} {op p : Nat}

theorem operandsOf_iff :
    f.operandsOf isAnd p = some operands ↔ f.get p = some (.andOr isAnd operands) := by
  rw [operandsOf]
  split
  next kind ops hget =>
    rw [hget]
    by_cases heq : kind = isAnd
    · simp [heq]
    · simp [heq]
  next hno =>
    refine iff_of_false nofun fun hget => ?_
    exact hno _ _ hget

theorem operandsOf_value (hv : f.Models σ v)
    (h : f.operandsOf isAnd p = some operands) : v p = isAnd ↔ ∀ op ∈ operands, v op = isAnd := by
  have hhold : v p = junction isAnd v operands := hv p _ (operandsOf_iff.mp h)
  rw [hhold, junction_eq_iff]

theorem operandsOf_plain (hp : f.Plain p) (h : f.operandsOf isAnd p = some operands) :
    ∀ op ∈ operands, f.Plain op :=
  (hp.operands (operandsOf_iff.mp h)).2

theorem inlineOperand_spec (subops : List Nat) (acc : Flattened) :
    ∃ new, (subops.foldl inlineOperand acc).simplifiedOps = acc.simplifiedOps ++ new ∧
      (∀ x, x ∈ (subops.foldl inlineOperand acc).set ↔ x ∈ acc.set ∨ x ∈ new) ∧
      (∀ x ∈ new, x ∈ subops) ∧ ∀ x ∈ subops, x ∈ acc.set ∨ x ∈ new := by
  induction subops generalizing acc with
  | nil => exact ⟨[], by simp⟩
  | cons subop subops ih =>
    obtain ⟨new, hsimplified, hset, hfrom, hinto⟩ := ih (inlineOperand acc subop)
    have hfrom : ∀ x ∈ new, x ∈ subop :: subops := fun x hx => mem_cons_of_mem _ (hfrom x hx)
    rw [foldl_cons, hsimplified]
    by_cases hmem : subop ∈ acc.set
    · have heq : inlineOperand acc subop = acc := if_pos hmem
      rw [heq] at hset hinto ⊢
      exact ⟨new, rfl, hset, hfrom, forall_mem_cons.mpr ⟨.inl hmem, hinto⟩⟩
    · have heq : inlineOperand acc subop = ⟨subop :: acc.set, acc.simplifiedOps ++ [subop]⟩ :=
        if_neg hmem
      have hmove : ∀ x, x ∈ subop :: acc.set ∨ x ∈ new ↔ x ∈ acc.set ∨ x ∈ subop :: new := by
        intro x
        rw [mem_cons, mem_cons, or_assoc, or_left_comm]
      rw [heq] at hset hinto ⊢
      exact ⟨subop :: new, append_assoc .., fun x => (hset x).trans (hmove x),
        forall_mem_cons.mpr ⟨mem_cons_self, hfrom⟩,
        forall_mem_cons.mpr ⟨.inr mem_cons_self, fun x hx => (hmove x).mp (hinto x hx)⟩⟩

/-- An operand adds itself to the set, and as `new` the operands that stand for it. -/
theorem flattenOperand_spec (hf : f.Valid) (isAnd : Bool) (acc : Flattened) (hop : f.Plain op) :
    ∃ new, (flattenOperand f isAnd acc op).simplifiedOps = acc.simplifiedOps ++ new ∧
      (∀ P : Nat → Prop, (∀ x ∈ (flattenOperand f isAnd acc op).set, P x) ↔
        P op ∧ (∀ x ∈ acc.set, P x) ∧ ∀ x ∈ new, P x) ∧
      (∀ x ∈ new, f.Plain x) ∧ ∀ σ v, f.Models σ v →
        (v op = isAnd → ∀ x ∈ new, v x = isAnd) ∧
        ((∀ x ∈ acc.set, v x = isAnd) → (∀ x ∈ new, v x = isAnd) → v op = isAnd) := by
  rw [flattenOperand]
  split
  next hmem =>
    exact ⟨[], (append_nil _).symm,
      fun P => ⟨fun h => ⟨h op hmem, h, forall_mem_nil _⟩, fun h => h.2.1⟩, forall_mem_nil _,
      fun σ v _ => ⟨fun _ => forall_mem_nil _, fun h _ => h op hmem⟩⟩
  next =>
    split
    next subops hsub =>
      obtain ⟨new, hsimplified, hset, hfrom, hinto⟩ :=
        inlineOperand_spec subops ⟨op :: acc.set, acc.simplifiedOps⟩
      refine ⟨new, hsimplified, fun P => ?_, fun x hx => operandsOf_plain hop hsub x (hfrom x hx),
        fun σ v hv => ⟨fun h x hx => ?_, fun hold hnew => ?_⟩⟩
      · simp only [hset, or_imp, forall_and, forall_mem_cons, and_assoc]
      · exact (operandsOf_value hv hsub).mp h x (hfrom x hx)
      · refine (operandsOf_value hv hsub).mpr fun x hx => ?_
        have hne : x ≠ op := (hf.operands op _ (operandsOf_iff.mp hsub) x hx).ne
        rcases hinto x hx with hx | hx
        · exact hold x ((mem_cons.mp hx).resolve_left hne)
        · exact hnew x hx
    next =>
      refine ⟨[op], rfl, fun P => ?_, forall_mem_singleton.mpr hop,
        fun σ v _ => ⟨fun h => forall_mem_singleton.mpr h, fun _ h => h op mem_cons_self⟩⟩
      rw [forall_mem_cons, forall_mem_singleton]
      exact ⟨fun h => ⟨h.1, h.2, h.1⟩, fun h => ⟨h.1, h.2.1⟩⟩

/-- The state of the loop over the operands: `processed` are those it has seen. -/
structure FlatInv (f : Factory) (isAnd : Bool) (processed : List Nat) (acc : Flattened) :
    Prop where
  has : ∀ x ∈ acc.set, f.Plain x
  seen : ∀ x ∈ processed, x ∈ acc.set
  simplified : ∀ x ∈ acc.simplifiedOps, x ∈ acc.set
  of_processed : ∀ σ v, f.Models σ v → (∀ x ∈ processed, v x = isAnd) → ∀ x ∈ acc.set, v x = isAnd
  of_simplified : ∀ σ v, f.Models σ v → (∀ x ∈ acc.simplifiedOps, v x = isAnd) →
    ∀ x ∈ acc.set, v x = isAnd

theorem FlatInv.step (hf : f.Valid) {processed : List Nat} {acc : Flattened}
    (h : FlatInv f isAnd processed acc) (hop : f.Plain op) :
    FlatInv f isAnd (processed ++ [op]) (flattenOperand f isAnd acc op) := by
  obtain ⟨new, hsimplified, hset, hhas, hvalue⟩ := flattenOperand_spec hf isAnd acc hop
  obtain ⟨hself, hold, hnew⟩ := (hset (· ∈ (flattenOperand f isAnd acc op).set)).mp fun _ => id
  refine ⟨(hset _).mpr ⟨hop, h.has, hhas⟩, ?_, ?_, fun σ v hv hall => ?_, fun σ v hv hall => ?_⟩
  · exact forall_mem_append.mpr
      ⟨fun x hx => hold x (h.seen x hx), forall_mem_singleton.mpr hself⟩
  · rw [hsimplified]
    exact forall_mem_append.mpr ⟨fun x hx => hold x (h.simplified x hx), hnew⟩
  · rw [forall_mem_append, forall_mem_singleton] at hall
    exact (hset _).mpr
      ⟨hall.2, h.of_processed σ v hv hall.1, (hvalue σ v hv).1 hall.2⟩
  · rw [hsimplified, forall_mem_append] at hall
    have hset' := h.of_simplified σ v hv hall.1
    exact (hset _).mpr ⟨(hvalue σ v hv).2 hset' hall.2, hset', hall.2⟩

theorem flatten_inv (hf : f.Valid) (isAnd : Bool) (hops : ∀ op ∈ operands, f.Plain op) :
    FlatInv f isAnd operands (flatten f isAnd operands) := by
  induction operands using reverseRecOn with
  | nil =>
    exact ⟨forall_mem_nil _, forall_mem_nil _, forall_mem_nil _, fun _ _ _ _ => forall_mem_nil _,
      fun _ _ _ _ => forall_mem_nil _⟩
  | append_singleton ops op ih =>
    rw [forall_mem_append, forall_mem_singleton] at hops
    rw [flatten, foldl_append]
    exact (ih hops.1).step hf hops.2

def Negates (f : Factory) (ops negatedOps : List Nat) : Prop :=
  ∀ negated ∈ negatedOps, ∃ op ∈ ops, ∀ σ v, f.Models σ v → v negated = !v op

include hin

/-- `all` are the operands of the whole loop and `set` follows from them. -/
theorem negateOps_spec (isAnd : Bool) (set : List Nat)
    (hf : f.Valid) (hops : ∀ op ∈ ops, f.Plain op ∧ op ∈ all) (hneg : Negates f all negatedOps) :
    let r := inner.negateOps isAnd set ops negatedOps f
    r.2.Valid ∧ Extends f r.2 ∧
      (r.1 = none → ∀ σ v, r.2.Models σ v →
        ((∀ x ∈ all, v x = isAnd) → ∀ x ∈ set, v x = isAnd) → ¬∀ x ∈ all, v x = isAnd) := by
  induction ops generalizing f negatedOps with
  | nil => exact ⟨hf, .refl f, nofun⟩
  | cons op ops ih =>
    obtain ⟨hhas, hall⟩ := hops op mem_cons_self
    rw [negateOps]
    split
    next hmem =>
      refine ⟨hf, .refl f, fun _ σ v hv _ hflag => ?_⟩
      obtain ⟨op', hop', heq⟩ := hneg op hmem
      have hnot := heq σ v hv
      rw [hflag op hall, hflag op' hop'] at hnot
      cases isAnd <;> cases hnot
    next =>
      have hnot := hin.makeNot f op hf hhas
      split
      next negatedOp f1 heq =>
      rw [heq] at hnot
      split
      next hsub =>
        refine ⟨hnot.valid, hnot.grows, fun _ σ v hv hset hflag => ?_⟩
        obtain ⟨subops, hsubops, hin⟩ := (Option.any_eq_true _ _).mp hsub
        have hneg' : v negatedOp = isAnd := by
          refine (operandsOf_value hv hsubops).mpr fun x hx => hset hflag x ?_
          exact of_decide_eq_true (all_eq_true.mp hin x hx)
        have hnot' : v negatedOp = !v op := hnot.value_eq σ v hv
        rw [hneg', hflag op hall] at hnot'
        cases isAnd <;> cases hnot'
      next =>
        have hneg' : Negates f1 all (negatedOp :: negatedOps) := by
          refine forall_mem_cons.mpr ⟨⟨op, hall, hnot.value_eq⟩, fun negated hmem => ?_⟩
          obtain ⟨op', hop', heq'⟩ := hneg negated hmem
          exact ⟨op', hop', fun σ v hv => heq' σ v (hnot.grows.restrict hv)⟩
        have hrest := ih hnot.valid (fun x hx => ?_) hneg'
        · exact ⟨hrest.1, hnot.grows.trans hrest.2.1, hrest.2.2⟩
        · obtain ⟨hhas', hall'⟩ := hops x (mem_cons_of_mem _ hx)
          exact ⟨hhas'.extend hnot.grows.get, hall'⟩

omit hin in
/-- Nothing is rewritten if the operands are plain. -/
theorem rewriteRecurrences_eq (inner : Level) (negatedOps : List Nat) (hops : ∀ op ∈ ops, f.Plain op) :
    inner.rewriteRecurrences negatedOps ops f = (⟨[], []⟩, f) := by
  induction ops with
  | nil => rfl
  | cons op ops ih =>
    obtain ⟨hop, hrest⟩ := forall_mem_cons.mp hops
    rw [rewriteRecurrences]
    split
    next hget => exact absurd (hop.operands hget).1 (by simp [Predicate.isRecurrence])
    next => exact ih hrest

omit hin in
theorem applyRewrites_eq (inner : Level) (isAnd : Bool) (negatedOps : List Nat)
    (hops : ∀ op ∈ ops, f.Plain op) : inner.applyRewrites isAnd negatedOps ops f = (ops, f) := by
  rw [applyRewrites, rewriteRecurrences_eq inner negatedOps hops]
  split
  · simp
  · rfl

omit hin in
theorem commonInnerOperands_spec (hne : commonInnerOperands f isAnd common ops ≠ []) :
    (∀ op ∈ ops, ∃ subops, f.operandsOf (!isAnd) op = some subops ∧
        ∀ x ∈ commonInnerOperands f isAnd common ops, x ∈ subops) ∧
      (common ≠ [] → ∀ x ∈ commonInnerOperands f isAnd common ops, x ∈ common) := by
  induction ops generalizing common with
  | nil => exact ⟨forall_mem_nil _, fun _ x hx => hx⟩
  | cons op ops ih =>
    rw [commonInnerOperands] at hne ⊢
    cases hsub : f.operandsOf (!isAnd) op with
    | none =>
      rw [hsub] at hne
      exact absurd rfl hne
    | some subops =>
      rw [hsub] at hne
      dsimp only at hne ⊢
      generalize hc : (if common.isEmpty = true then subops
        else filter (fun x => decide (x ∈ common)) subops) = common' at hne ⊢
      split at hne
      · exact absurd rfl hne
      next hempty =>
        rw [if_neg hempty]
        obtain ⟨hrest, hinto⟩ := ih hne
        have hinto := hinto (by rwa [List.isEmpty_iff] at hempty)
        constructor
        · refine forall_mem_cons.mpr ⟨⟨subops, hsub, fun y hy => ?_⟩, hrest⟩
          have hy := hinto y hy
          rw [← hc] at hy
          split at hy
          · exact hy
          · exact mem_of_mem_filter hy
        · intro hcommon x hx
          have hx := hinto x hx
          rw [← hc, if_neg (by rwa [List.isEmpty_iff])] at hx
          exact of_decide_eq_true (mem_filter.mp hx).2

theorem factorOps_yields (common : List Nat) {subopsOf : Nat → List Nat}
    (hf : f.Valid) (hops : ∀ op ∈ ops, f.Plain op ∧ f.operandsOf (!isAnd) op = some (subopsOf op)) :
    YieldsAll f (inner.factorOps isAnd common ops f) (fun v => ops.map fun op =>
      junction (!isAnd) v ((subopsOf op).filter (· ∉ common))) := by
  induction ops generalizing f with
  | nil => exact .nil hf
  | cons op ops ih =>
    obtain ⟨hop, hsub⟩ := hops op mem_cons_self
    rw [factorOps, hsub, Option.getD_some]
    have hmade := hin.makeAndOr f ((subopsOf op).filter (· ∉ common)) (!isAnd) hf fun x hx =>
      operandsOf_plain hop hsub x (mem_of_mem_filter hx)
    refine .cons hmade (ih hmade.valid fun x hx => ?_)
    obtain ⟨hx, hget⟩ := hops x (mem_cons_of_mem _ hx)
    rw [operandsOf_iff] at hget ⊢
    exact ⟨hx.extend hmade.grows.get, hmade.grows.get x _ hget⟩

omit hin in
/-- An inner junction is what is common to all and the rest of it. -/
theorem all_eq_filter_and_common {b : Bool} {subops : List Nat}
    (hcommon : ∀ x ∈ common, x ∈ subops) :
    (∀ x ∈ subops, v x = b) ↔
      (∀ x ∈ subops.filter (· ∉ common), v x = b) ∧ ∀ x ∈ common, v x = b := by
  constructor
  · exact fun h => ⟨fun x hx => h x (mem_of_mem_filter hx), fun x hx => h x (hcommon x hx)⟩
  · intro h x hx
    by_cases hin : x ∈ common
    · exact h.2 x hin
    · exact h.1 x (mem_filter.mpr ⟨hx, decide_eq_true hin⟩)

theorem makeFactored_yields (isAnd : Bool) (hf : f.Valid) (hops : ∀ op ∈ ops, f.Plain op) :
    Yields f (inner.makeFactored ops isAnd f) (fun _ v => junction isAnd v ops) := by
  rw [makeFactored]
  split
  · exact makeInternedAndOr_yields hf hops isAnd
  next hempty =>
    rw [List.isEmpty_iff] at hempty
    obtain ⟨hsub, -⟩ := commonInnerOperands_spec hempty
    have hne : ops ≠ [] := by
      intro h
      rw [h] at hempty
      exact hempty rfl
    generalize commonInnerOperands f isAnd [] ops = common at hsub ⊢
    let subopsOf op := (f.operandsOf (!isAnd) op).getD []
    have hget : ∀ op ∈ ops, f.operandsOf (!isAnd) op = some (subopsOf op) := by
      intro op hop
      obtain ⟨subops, heq, -⟩ := hsub op hop
      simp only [subopsOf, heq, Option.getD_some]
    have hcommon : ∀ op ∈ ops, ∀ x ∈ common, x ∈ subopsOf op := by
      intro op hop
      obtain ⟨subops, heq, hmem⟩ := hsub op hop
      simpa only [subopsOf, heq, Option.getD_some] using hmem
    have hfactored := factorOps_yields hin common hf fun op hop => ⟨hops op hop, hget op hop⟩
    have hcommonHas : ∀ x ∈ common, f.Plain x := by
      obtain ⟨op, hop⟩ := exists_mem_of_ne_nil ops hne
      exact fun x hx => operandsOf_plain (hops op hop) (hget op hop) x (hcommon op hop x hx)
    have hinner := hin.makeAndOr _ _ isAnd hfactored.valid hfactored.made
    have hgrows := hfactored.grows.trans hinner.grows
    have houter := hin.makeAndOr _ (_ :: common) (!isAnd) hinner.valid (forall_mem_cons.mpr
      ⟨hinner.made, fun x hx => (hcommonHas x hx).extend hgrows.get⟩)
    refine (Yields.of_extends hgrows houter).congr fun σ v hv => ?_
    have hv2 := houter.grows.restrict hv
    have hv1 := hinner.grows.restrict hv2
    have hv0 := hfactored.grows.restrict hv1
    apply eq_of_flag_iff
    rw [junction_eq_iff, forall_mem_cons, hinner.value_eq σ v hv2, hfactored.junction_eq hv1]
    refine (junction_factor fun op hop => ?_).symm
    rw [operandsOf_value hv0 (hget op hop), all_eq_filter_and_common (hcommon op hop), junction_eq_iff]

theorem makeAndOrImpl_yields (hf : f.Valid) (hops : ∀ op ∈ operands, f.Plain op) :
    Yields f (inner.makeAndOrImpl operands isAnd f) (fun _ v => junction isAnd v operands) := by
  have hflat := flatten_inv hf isAnd hops
  have hsame : ∀ σ v, f.Models σ v → junction isAnd v (flatten f isAnd operands).simplifiedOps =
      junction isAnd v operands := by
    intro σ v hv
    refine junction_congr ⟨fun h x hx => ?_, fun h x hx => ?_⟩
    · exact hflat.of_simplified σ v hv h x (hflat.seen x hx)
    · exact hflat.of_processed σ v hv h x (hflat.simplified x hx)
  have hhas : ∀ op ∈ (flatten f isAnd operands).simplifiedOps, f.Plain op := fun op hop =>
    hflat.has op (hflat.simplified op hop)
  rw [makeAndOrImpl]
  split
  next op heq =>
    refine ⟨hf, .refl f, hhas op (heq ▸ mem_cons_self), fun σ v hv => ?_⟩
    rw [← hsame σ v hv, heq, junction_singleton]
  next =>
    have hnone : Negates f (flatten f isAnd operands).simplifiedOps [] := forall_mem_nil _
    have hneg := negateOps_spec hin isAnd (flatten f isAnd operands).set hf
      (fun op hop => ⟨hhas op hop, hop⟩) hnone
    split
    next f1 heq =>
      rw [heq] at hneg
      obtain ⟨hvalid, hgrows, hexcl⟩ := hneg
      have hmade := hin.makeAndOr f1 [] (!isAnd) hvalid (forall_mem_nil _)
      refine (Yields.of_extends hgrows hmade).congr fun σ v hv => ?_
      have hv1 := hmade.grows.restrict hv
      have hv0 := hgrows.restrict hv1
      have hnot := hexcl rfl σ v hv1 (hflat.of_simplified σ v hv0)
      rw [← junction_eq_iff, hsame σ v hv0] at hnot
      exact (Bool.eq_not.mpr hnot).symm
    next negatedOps f1 heq =>
      rw [heq] at hneg
      obtain ⟨hvalid, hgrows, -⟩ := hneg
      have hhas1 : ∀ op ∈ (flatten f isAnd operands).simplifiedOps, f1.Plain op :=
        fun op hop => (hhas op hop).extend hgrows.get
      rw [applyRewrites_eq inner isAnd negatedOps hhas1]
      have hmade := makeFactored_yields hin isAnd hvalid hhas1
      refine (Yields.of_extends hgrows hmade).congr fun σ v hv => ?_
      exact hsame σ v (hgrows.restrict (hmade.grows.restrict hv))

theorem next_sound : inner.next.Sound where
  makeNot _ _ hf hp := cached_yields _ hf hp (makeNotPredicateImpl_yields hin hf hp)
  makeAndOr _ _ _ hf hops := makeAndOrImpl_yields hin hf hops

end Level

theorem level_sound (room : Nat) : (level room).Sound := by
  induction room with
  | zero => exact Level.overflowed_sound
  | succ room ih => exact Level.next_sound ih

end TfReading.Deadness
