import TfReading.Util.Overflow

/-!
# `compiler/xla/service/while_loop_analysis.cc`: how often the body of a while loop runs

The analysis looks at the root of the condition, at the roots of the body's tuple and at their
operands.  Deeper instructions are names, whose meaning an `Interp` gives.
-/

namespace TfReading.WhileLoop

open Util

inductive PrimitiveType
  | s8 | s16 | s32 | s64 | u8 | u16 | u32 | u64 | other
deriving DecidableEq

namespace PrimitiveType

def bits : PrimitiveType → Nat
  | s8 | u8 => 8
  | s16 | u16 => 16
  | s32 | u32 => 32
  | s64 | u64 => 64
  | other => 0

def minimum : PrimitiveType → Int
  | s8 => -2 ^ 7
  | s16 => -2 ^ 15
  | s32 => -2 ^ 31
  | s64 => -2 ^ 63
  | _ => 0

def maximum (t : PrimitiveType) : Int := t.minimum + 2 ^ t.bits - 1

def wrap (t : PrimitiveType) (v : Int) : Int := (v - t.minimum) % 2 ^ t.bits + t.minimum

theorem minimum_le_wrap (t : PrimitiveType) (v : Int) : t.minimum ≤ t.wrap v := by
  rw [wrap]
  omega

theorem wrap_le_maximum (t : PrimitiveType) (v : Int) : t.wrap v ≤ t.maximum := by
  rw [wrap, maximum]
  omega

theorem wrap_of_mem {t : PrimitiveType} {v : Int} (h : t.minimum ≤ v) (h' : v ≤ t.maximum) :
    t.wrap v = v := by
  rw [maximum] at h'
  rw [wrap, Int.emod_eq_of_lt (by omega) (by omega)]
  omega

end PrimitiveType

structure Literal where
  elementType : PrimitiveType
  isEffectiveScalar : Bool
  firstElement : Int
  minimum_le : elementType.minimum ≤ firstElement
  le_maximum : firstElement ≤ elementType.maximum
deriving DecidableEq

inductive ComparisonDirection
  | eq | ne | ge | gt | le | lt
deriving DecidableEq

/-- An operand is told from another one by its `id`. -/
inductive Operand
  | constant (literal : Literal)
  | getTupleElement (id : Nat) (ofParameter : Bool) (tupleIndex : Nat)
  | other (id : Nat)
deriving DecidableEq

inductive Opcode
  | add | compare (direction : ComparisonDirection) | other (id : Nat)
deriving DecidableEq

structure Instruction where
  opcode : Opcode
  operands : List Operand

/-- What the verifier asks of the operands of an addition or a comparison. -/
def Instruction.Typed (shape : Nat → PrimitiveType) (i : Instruction) : Prop :=
  (∀ id, i.opcode ≠ .other id) → ∀ id k l, .getTupleElement id true k ∈ i.operands →
    .constant l ∈ i.operands → l.elementType = shape k

/-- A body or an initial value that is not a tuple is `none`, as is an element of the initial
value that the evaluator cannot evaluate. -/
structure WhileOp where
  shape : Nat → PrimitiveType
  condition : Instruction
  body : Option (List Instruction)
  init : Option (List (Option Literal))
  condition_typed : condition.Typed shape
  body_typed : ∀ us, body = some us → ∀ u ∈ us, u.Typed shape
  init_typed : ∀ ls, init = some ls → ∀ k l, ls[k]? = some (some l) → l.elementType = shape k

inductive Fault
  | nonConstantOperand | operandIndex
deriving DecidableEq

def Operand.isConstant : Operand → Bool
  | .constant _ => true
  | _ => false

def Operand.tupleIndex : Operand → Option Nat
  | .getTupleElement _ _ k => some k
  | _ => none

def Operand.isElement (k : Nat) : Operand → Bool
  | .getTupleElement _ true j => j = k
  | _ => false

def nonConstantOperand (i : Instruction) : Except Fault Operand :=
  match i.operands.filter (!·.isConstant) with
  | [] => .error .nonConstantOperand
  | o :: os => if ∀ p ∈ os, p = o then .ok o else .error .nonConstantOperand

def getGTEOperandIndex (i : Instruction) : Option Nat :=
  match i.operands.findSome? Operand.tupleIndex with
  | none => none
  | some k => if ∀ o ∈ i.operands, o.isConstant ∨ o.isElement k then some k else none

def operand {α : Type} (l : List α) (k : Nat) : Except Fault α :=
  match l[k]? with
  | none => .error .operandIndex
  | some a => .ok a

def getLoopInductionVarTupleIdx (w : WhileOp) : Except Fault (Option Nat) :=
  match getGTEOperandIndex w.condition, w.body with
  | some k, some us => do
    let u ← operand us k
    if getGTEOperandIndex u = some k ∧ w.init.isSome then .ok (some k) else .ok none
  | _, _ => .ok none

def literalAsScalarInt64 (l : Literal) : Option Int :=
  if !l.isEffectiveScalar then none
  else match l.elementType with
    | .other => none
    | .u64 => if 2 ^ 63 - 1 < l.firstElement then none else some l.firstElement
    | _ => some l.firstElement

def checkedAdd (a b : Int) : Option Int :=
  let result := toInt64 (a + b)
  if (a ≥ 0 ↔ b ≥ 0) ∧ ¬(result ≥ 0 ↔ a ≥ 0) then none else some result

def checkedSubtract (a b : Int) : Option Int :=
  let result := toInt64 (a - b)
  if ¬(a ≥ 0 ↔ b ≥ 0) ∧ (result ≥ 0 ↔ b ≥ 0) then none else some result

def Operand.constantEffectiveScalar : Operand → Option Literal
  | .constant l => if l.isEffectiveScalar then some l else none
  | _ => none

/-- The constant of a binary operation on `indvar` and an effective scalar, in either order. -/
def withBinaryOperandsAnyOrder (i : Instruction) (indvar : Operand) : Option Literal :=
  match i.operands with
  | [a, b] =>
    if a = indvar then b.constantEffectiveScalar
    else if b = indvar then a.constantEffectiveScalar else none
  | _ => none

def patternMatchLoopTripCount (w : WhileOp) (k : Nat) (indvarInit : Literal) :
    Except Fault (Option Int) :=
  match literalAsScalarInt64 indvarInit with
  | none => .ok none
  | some init => do
    let u ← operand (w.body.getD []) k
    let bodyIndvar ← nonConstantOperand u
    if u.opcode = .add ∧
        (withBinaryOperandsAnyOrder u bodyIndvar).any (·.firstElement = 1) then
      let condIndvar ← nonConstantOperand w.condition
      match (withBinaryOperandsAnyOrder w.condition condIndvar).bind literalAsScalarInt64 with
      | none => .ok none
      | some bound =>
        if w.condition.opcode = .compare .lt ∧ w.condition.operands.head? = some condIndvar then
          .ok ((checkedSubtract bound init).map (max 0))
        else if w.condition.opcode = .compare .le ∧
            w.condition.operands.head? = some condIndvar then
          .ok (((checkedSubtract bound init).bind (checkedAdd · 1)).map (max 0))
        else .ok none
    else .ok none

abbrev Tuple := Nat → Literal

/-- The meaning of what the analysis does not look into, and which roots the evaluator can
evaluate. -/
structure Interp where
  operand : Nat → Tuple → Literal
  value : Opcode → List Literal → Literal
  truth : Opcode → List Literal → Bool
  body : Tuple → Tuple
  evaluates : Instruction → Bool

def ComparisonDirection.holds (a b : Int) : ComparisonDirection → Bool
  | eq => a = b
  | ne => a ≠ b
  | ge => a ≥ b
  | gt => a > b
  | le => a ≤ b
  | lt => a < b

def Literal.add (a b : Literal) : Literal where
  elementType := a.elementType
  isEffectiveScalar := a.isEffectiveScalar
  firstElement := a.elementType.wrap (a.firstElement + b.firstElement)
  minimum_le := PrimitiveType.minimum_le_wrap _ _
  le_maximum := PrimitiveType.wrap_le_maximum _ _

variable (I : Interp)

def Operand.eval (t : Tuple) : Operand → Literal
  | .constant l => l
  | .getTupleElement _ true k => t k
  | .getTupleElement id false _ | .other id => I.operand id t

def Instruction.eval (i : Instruction) (t : Tuple) : Literal :=
  match i.opcode, i.operands.map (Operand.eval I t) with
  | .add, [a, b] => a.add b
  | op, ls => I.value op ls

def Instruction.truth (i : Instruction) (t : Tuple) : Bool :=
  match i.opcode, i.operands.map (Operand.eval I t) with
  | .compare d, [a, b] => d.holds a.firstElement b.firstElement
  | op, ls => I.truth op ls

/-- The search by evaluation, from turn `count` on.  The roots have no other operands than
constants and the induction variable, which `v` replaces. -/
def bruteForce (cond update : Instruction) : Nat → Nat → Literal → Option Int
  | 0, _, _ => none
  | turns + 1, count, v =>
    if !I.evaluates cond then none
    else if !cond.truth I fun _ => v then some count
    else if !I.evaluates update then none
    else bruteForce cond update turns (count + 1) (update.eval I fun _ => v)

def computeWhileLoopTripCount (w : WhileOp) (maxBruteForceIters : Nat) :
    Except Fault (Option Int) := do
  match ← getLoopInductionVarTupleIdx w with
  | none => .ok none
  | some k =>
    match ← operand (w.init.getD []) k with
    | none => .ok none
    | some init =>
      match ← patternMatchLoopTripCount w k init with
      | some n => .ok (some n)
      | none =>
        let u ← operand (w.body.getD []) k
        let _ ← nonConstantOperand u
        let _ ← nonConstantOperand w.condition
        .ok (bruteForce I w.condition u (maxBruteForceIters + 1) 0 init)

def WhileOp.step (w : WhileOp) (t : Tuple) : Tuple :=
  match w.body with
  | none => I.body t
  | some us => fun k => (us[k]?.map (·.eval I t)).getD (t k)

/-- From `t` the body runs exactly `n` times. -/
def WhileOp.ExitsAfter (w : WhileOp) (t : Tuple) (n : Nat) : Prop :=
  (∀ m < n, w.condition.truth I ((w.step I)^[m] t) = true) ∧
    w.condition.truth I ((w.step I)^[n] t) = false

section Analysis

variable {I} {i u : Instruction} {o : Operand} {l : Literal} {w : WhileOp} {k : Nat} {t : Tuple}

theorem literalAsScalarInt64_eq {v : Int} (h : literalAsScalarInt64 l = some v) :
    v = l.firstElement ∧ -2 ^ 63 ≤ v ∧ v < 2 ^ 63 := by
  have hmin := l.minimum_le
  have hmax := l.le_maximum
  cases ht : l.elementType <;>
    simp [literalAsScalarInt64, ht, PrimitiveType.minimum, PrimitiveType.maximum,
      PrimitiveType.bits] at h hmin hmax <;> omega

theorem checkedSubtract_eq {a b r : Int} (ha : -2 ^ 63 ≤ a ∧ a < 2 ^ 63)
    (hb : -2 ^ 63 ≤ b ∧ b < 2 ^ 63) (h : checkedSubtract a b = some r) :
    r = a - b ∧ -2 ^ 63 ≤ r ∧ r < 2 ^ 63 := by
  simp only [checkedSubtract, toInt64, Int.bmod_def] at h
  grind

theorem checkedAdd_one_eq {a r : Int} (ha : -2 ^ 63 ≤ a ∧ a < 2 ^ 63)
    (h : checkedAdd a 1 = some r) : r = a + 1 := by
  simp only [checkedAdd, toInt64, Int.bmod_def] at h
  grind

theorem nonConstantOperand_eq (hk : getGTEOperandIndex i = some k)
    (ho : nonConstantOperand i = .ok o) : ∃ id, o = .getTupleElement id true k := by
  have hmem : o ∈ i.operands ∧ (!o.isConstant) = true := by
    unfold nonConstantOperand at ho
    split at ho
    · cases ho
    · rename_i p os hp
      split at ho
      · cases ho
        exact List.mem_filter.mp (hp ▸ List.mem_cons_self)
      · cases ho
  unfold getGTEOperandIndex at hk
  split at hk
  · cases hk
  · split at hk
    · rename_i h
      cases hk
      have := h o hmem.1
      cases o with
      | getTupleElement id p => cases p <;> simp_all [Operand.isElement, Operand.isConstant]
      | constant | other => simp_all [Operand.isElement, Operand.isConstant]
    · cases hk

theorem constantEffectiveScalar_eq (h : o.constantEffectiveScalar = some l) :
    o = .constant l := by
  cases o with
  | constant =>
    rw [Operand.constantEffectiveScalar] at h
    split at h <;> cases h
    rfl
  | getTupleElement | other => cases h

theorem operands_of_match (h : withBinaryOperandsAnyOrder i o = some l) :
    i.operands = [o, .constant l] ∨ i.operands = [.constant l, o] := by
  unfold withBinaryOperandsAnyOrder at h
  split at h
  · rename_i a b hab
    split at h
    · rename_i ha
      exact .inl (by rw [hab, ha, constantEffectiveScalar_eq h])
    · split at h
      · rename_i hb
        exact .inr (by rw [hab, hb, constantEffectiveScalar_eq h])
      · cases h
  · cases h

def Increments (I : Interp) (w : WhileOp) (k : Nat) : Prop :=
  ∀ t : Tuple, (t k).elementType = w.shape k → (w.step I t k).elementType = w.shape k ∧
    (w.step I t k).firstElement = (w.shape k).wrap ((t k).firstElement + 1)

theorem Increments.iterate (h : Increments I w k) (ht : (t k).elementType = w.shape k) (m : Nat) :
    ((w.step I)^[m] t k).elementType = w.shape k ∧
      ((t k).firstElement + m ≤ (w.shape k).maximum →
        ((w.step I)^[m] t k).firstElement = (t k).firstElement + m) := by
  induction m with
  | zero => exact ⟨ht, fun _ => by simp⟩
  | succ m ih =>
    rw [Function.iterate_succ_apply']
    obtain ⟨htype, hval⟩ := h _ ih.1
    refine ⟨htype, fun hm => ?_⟩
    have hmin := ht ▸ (t k).minimum_le
    rw [hval, ih.2 (by omega), PrimitiveType.wrap_of_mem] <;> omega

/-- A loop that counts up to a value of its type reaches it before it wraps around. -/
theorem Increments.exitsAfter (h : Increments I w k) (ht : (t k).elementType = w.shape k)
    {limit : Int} (hlimit : limit ≤ (w.shape k).maximum)
    (hcond : ∀ t, w.condition.truth I t = decide ((t k).firstElement < limit)) :
    w.ExitsAfter I t (max 0 (limit - (t k).firstElement)).toNat := by
  have hmax := ht ▸ (t k).le_maximum
  constructor
  · intro m hm
    rw [hcond, (h.iterate ht m).2 (by omega)]
    exact decide_eq_true (by omega)
  · rw [hcond, (h.iterate ht _).2 (by omega)]
    exact decide_eq_false (by omega)

/-- A loop whose condition holds for every value of the type does not end. -/
theorem Increments.not_exitsAfter (h : Increments I w k) (ht : (t k).elementType = w.shape k)
    {bound : Int} (hbound : (w.shape k).maximum ≤ bound)
    (hcond : ∀ t, w.condition.truth I t = decide ((t k).firstElement ≤ bound)) (n : Nat) :
    ¬w.ExitsAfter I t n := by
  intro hexit
  have hle := ((w.step I)^[n] t k).le_maximum
  rw [(h.iterate ht n).1] at hle
  exact of_decide_eq_false ((hcond _).symm.trans hexit.2) (hle.trans hbound)

theorem increments_of_match {us : List Instruction} (hw : w.body = some us)
    (hu : us[k]? = some u) (hk : getGTEOperandIndex u = some k)
    (ho : nonConstantOperand u = .ok o) (hadd : u.opcode = .add)
    (hm : withBinaryOperandsAnyOrder u o = some l) (hone : l.firstElement = 1) :
    Increments I w k := by
  intro t ht
  obtain ⟨id, rfl⟩ := nonConstantOperand_eq hk ho
  have htyped := w.body_typed us hw u (List.mem_of_getElem? hu) (by simp [hadd]) id k l
  have hstep : w.step I t k = u.eval I t := by simp [WhileOp.step, hw, hu]
  rw [hstep, Instruction.eval, hadd]
  obtain hops | hops := operands_of_match hm
  · simp [hops, Operand.eval, Literal.add, ht, hone]
  · have hl := htyped (by simp [hops]) (by simp [hops])
    simp [hops, Operand.eval, Literal.add, hl, hone, add_comm]

theorem getLoopInductionVarTupleIdx_eq (h : getLoopInductionVarTupleIdx w = .ok (some k)) :
    getGTEOperandIndex w.condition = some k ∧ ∃ us u, w.body = some us ∧ us[k]? = some u ∧
      getGTEOperandIndex u = some k := by
  unfold getLoopInductionVarTupleIdx at h
  split at h
  · rename_i k' us hk hw
    cases hu : us[k']? with
    | none => simp [operand, hu, bind, Except.bind] at h
    | some u =>
      simp only [operand, hu, bind, Except.bind] at h
      split at h <;> cases h
      rename_i hc
      exact ⟨hk, us, u, hw, hu, hc.1⟩
  · cases h

theorem patternMatchLoopTripCount_some {init : Literal} {n : Int}
    (hu : operand (w.body.getD []) k = .ok u)
    (h : patternMatchLoopTripCount w k init = .ok (some n)) :
    (∃ o l, nonConstantOperand u = .ok o ∧ u.opcode = .add ∧
      withBinaryOperandsAnyOrder u o = some l ∧ l.firstElement = 1) ∧
    ∃ o l, nonConstantOperand w.condition = .ok o ∧ w.condition.operands.head? = some o ∧
      withBinaryOperandsAnyOrder w.condition o = some l ∧
      (w.condition.opcode = .compare .lt ∧ n = max 0 (l.firstElement - init.firstElement) ∨
        w.condition.opcode = .compare .le ∧
          n = max 0 (l.firstElement + 1 - init.firstElement)) := by
  unfold patternMatchLoopTripCount at h
  split at h
  · cases h
  rename_i v hv
  obtain ⟨rfl, hv⟩ := literalAsScalarInt64_eq hv
  simp only [hu, bind, Except.bind] at h
  split at h
  · cases h
  rename_i o ho
  split at h
  · rename_i hm
    obtain ⟨l, hl, hone⟩ := (Option.any_eq_true _ _).mp hm.2
    refine ⟨⟨o, l, ho, hm.1, hl, of_decide_eq_true hone⟩, ?_⟩
    split at h
    · cases h
    rename_i o ho
    split at h
    · cases h
    rename_i b hb
    obtain ⟨l, hl, hb⟩ := Option.bind_eq_some_iff.mp hb
    obtain ⟨rfl, hb⟩ := literalAsScalarInt64_eq hb
    split at h
    · rename_i hlt
      obtain ⟨r, hr, rfl⟩ := Option.map_eq_some_iff.mp (Except.ok.inj h)
      rw [(checkedSubtract_eq hb hv hr).1]
      exact ⟨o, l, ho, hlt.2, hl, .inl ⟨hlt.1, rfl⟩⟩
    · split at h
      · rename_i hle
        obtain ⟨r, hr, rfl⟩ := Option.map_eq_some_iff.mp (Except.ok.inj h)
        obtain ⟨q, hq, hr⟩ := Option.bind_eq_some_iff.mp hr
        obtain ⟨rfl, hq⟩ := checkedSubtract_eq hb hv hq
        rw [checkedAdd_one_eq hq hr, sub_add_eq_add_sub]
        exact ⟨o, l, ho, hle.2, hl, .inr ⟨hle.1, rfl⟩⟩
      · cases h
  · cases h

theorem truth_of_match {d : ComparisonDirection} (hk : getGTEOperandIndex w.condition = some k)
    (ho : nonConstantOperand w.condition = .ok o) (hhead : w.condition.operands.head? = some o)
    (hm : withBinaryOperandsAnyOrder w.condition o = some l)
    (hop : w.condition.opcode = .compare d) (t : Tuple) :
    w.condition.truth I t = d.holds (t k).firstElement l.firstElement ∧
      l.elementType = w.shape k := by
  obtain ⟨id, rfl⟩ := nonConstantOperand_eq hk ho
  have hops : w.condition.operands = [.getTupleElement id true k, .constant l] := by
    obtain hops | hops := operands_of_match hm
    · exact hops
    · simp [hops] at hhead
  have htyped := w.condition_typed (by simp [hop]) id k l
  exact ⟨by simp [Instruction.truth, hop, hops, Operand.eval], htyped (by simp [hops]) (by simp [hops])⟩

end Analysis

/-- A count that the pattern gives is the number of turns, unless the loop runs while the variable
is at most the maximum of its type. -/
theorem patternMatchLoopTripCount_exact_iff (w : WhileOp) (k maxIters : Nat) (init : Literal)
    (n : Int) (t : Tuple) (hk : getLoopInductionVarTupleIdx w = .ok (some k))
    (hinit : operand (w.init.getD []) k = .ok (some init)) (ht : t k = init)
    (hn : patternMatchLoopTripCount w k init = .ok (some n)) :
    computeWhileLoopTripCount I w maxIters = .ok (some n) ∧ 0 ≤ n ∧ w.ExitsAfter I t n.toNat ↔
      (w.condition.opcode = .compare .le → ∀ l, .constant l ∈ w.condition.operands →
        l.firstElement < l.elementType.maximum) := by
  obtain ⟨hcond, us, u, hw, hu, huk⟩ := getLoopInductionVarTupleIdx_eq hk
  have hop : operand (w.body.getD []) k = .ok u := by simp [operand, hw, hu]
  obtain ⟨⟨x, one, hx, hadd, hone, h1⟩, o, l, ho, hhead, hl, htrips⟩ :=
    patternMatchLoopTripCount_some hop hn
  have hinc : Increments I w k := increments_of_match hw hu huk hx hadd hone h1
  have htype : (t k).elementType = w.shape k := by
    cases hw' : w.init with
    | none => simp [hw', operand] at hinit
    | some ls =>
      refine ht ▸ w.init_typed ls hw' k init ?_
      rw [hw', operand] at hinit
      split at hinit <;> cases hinit
      assumption
  rw [and_iff_right (by simp [computeWhileLoopTripCount, hk, hinit, hn, bind, Except.bind])]
  subst ht
  obtain ⟨hlt, rfl⟩ | ⟨hle, rfl⟩ := htrips
  · have hc := truth_of_match (I := I) hcond ho hhead hl hlt
    refine iff_of_true ⟨le_max_left 0 _, hinc.exitsAfter htype ?_ fun t => (hc t).1⟩ ?_
    · exact (hc t).2 ▸ l.le_maximum
    · simp [hlt]
  · have hc := truth_of_match (I := I) hcond ho hhead hl hle
    refine ⟨fun h _ l' hl' => ?_, fun hmax => ⟨le_max_left 0 _, hinc.exitsAfter htype ?_ fun t =>
      (hc t).1.trans (decide_eq_decide.mpr Int.lt_add_one_iff.symm)⟩⟩
    · obtain ⟨id, rfl⟩ := nonConstantOperand_eq hcond ho
      obtain rfl : l' = l := by grind [operands_of_match hl]
      by_contra hbound
      exact hinc.not_exitsAfter htype ((hc t).2 ▸ not_lt.mp hbound) (fun t => (hc t).1) _ h.2
    · exact (hc t).2 ▸ hmax hle l (by grind [operands_of_match hl])

def byte (v : Fin 256) : Literal :=
  ⟨.u8, true, v, Int.natCast_nonneg _, Int.ofNat_le.mpr (Nat.le_of_lt_succ v.isLt)⟩

/-- `i = 0; while (i <= bound) ++i` on bytes. -/
def byteLoop (bound : Fin 256) : WhileOp where
  shape _ := .u8
  condition := ⟨.compare .le, [.getTupleElement 0 true 0, .constant (byte bound)]⟩
  body := some [⟨.add, [.getTupleElement 1 true 0, .constant (byte 1)]⟩]
  init := some [some (byte 0)]
  condition_typed := by
    intro _ _ _ l _ hl
    simp at hl
    rw [hl, byte]
  body_typed := by
    intro us hus u hu _ _ _ l _ hl
    cases hus
    simp at hu
    simp [hu] at hl
    rw [hl, byte]
  init_typed := by
    intro ls hls k l hl
    cases hls
    cases k <;> cases hl
    rfl

def someInterp : Interp := ⟨fun _ t => t 0, fun _ _ => byte 0, fun _ _ => false, id, fun _ => true⟩

theorem patternMatchLoopTripCount_exact_ten :
    computeWhileLoopTripCount someInterp (byteLoop 9) 128 = .ok (some 10) ∧ (0 : Int) ≤ 10 ∧
      (byteLoop 9).ExitsAfter someInterp (fun _ => byte 0) 10 :=
  (patternMatchLoopTripCount_exact_iff someInterp (byteLoop 9) 0 128 (byte 0) 10 (fun _ => byte 0)
    rfl rfl rfl rfl).mpr (by
      intro _ l hl
      simp [byteLoop] at hl
      rw [hl]
      decide)

theorem patternMatchLoopTripCount_diverges :
    patternMatchLoopTripCount (byteLoop 255) 0 (byte 0) = .ok (some 256) ∧
      computeWhileLoopTripCount someInterp (byteLoop 255) 128 = .ok (some 256) ∧
      ∀ n, ¬(byteLoop 255).ExitsAfter someInterp (fun _ => byte 0) n := by
  have hinc : Increments someInterp (byteLoop 255) 0 :=
    increments_of_match rfl rfl rfl rfl rfl rfl rfl
  exact ⟨rfl, rfl, hinc.not_exitsAfter rfl (le_refl _) fun _ => rfl⟩

end TfReading.WhileLoop
