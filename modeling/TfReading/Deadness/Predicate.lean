import Mathlib.Data.List.Sort

/-!
# The predicate factory of `compiler/jit/deadness_analysis.cc`

Predicates are interned: a factory holds one instance of each content, and the id of a predicate is
its place in the table.  Pointers to predicates are ids.  The depth of nested calls is limited, and
a call at the limit makes its predicate without simplifying it.
-/

namespace TfReading.Deadness

/-- The control slot of a node is its output `none`. -/
structure TensorId where
  node : Nat
  output : Option Nat
deriving DecidableEq, Repr

/-- `andOr true` is an `AndPredicate` and `andOr false` an `OrPredicate`. -/
inductive Predicate
  | andOr (isAnd : Bool) (operands : List Nat)
  | not (operand : Nat)
  | andRecurrence (start step : Nat) (frame : List Nat)
  | symbol (tensor : TensorId) (mustBeTrue : Bool)
  | intSymbol (tensor : TensorId) (mustHaveValue : Option Int)
deriving DecidableEq, Repr

def Predicate.operands : Predicate → List Nat
  | .andOr _ operands => operands
  | .not operand => [operand]
  | .andRecurrence start step _ => [start, step]
  | .symbol .. | .intSymbol .. => []

structure Factory where
  instances : List Predicate
  makeNotCache : List (Nat × Nat)
deriving DecidableEq, Repr

namespace Factory

def empty : Factory := ⟨[], []⟩

def size (f : Factory) : Nat := f.instances.length

def get (f : Factory) (p : Nat) : Option Predicate := f.instances[p]?

def operandsOf (f : Factory) (isAnd : Bool) (p : Nat) : Option (List Nat) :=
  match f.get p with
  | some (.andOr kind operands) => if kind = isAnd then some operands else none
  | _ => none

def intern (f : Factory) (content : Predicate) : Nat × Factory :=
  match f.instances.findIdx? (fun other => other = content) with
  | some p => (p, f)
  | none => (f.size, { f with instances := f.instances ++ [content] })

def makeInternedAndOr (simplifiedOps : List Nat) (isAnd : Bool) (f : Factory) : Nat × Factory :=
  f.intern (.andOr isAnd (simplifiedOps.insertionSort (· ≤ ·)))

/-- The cache keeps an entry that is there already. -/
def cacheNot (f : Factory) (pred result : Nat) : Factory :=
  if (f.makeNotCache.lookup pred).isSome then f
  else { f with makeNotCache := (pred, result) :: f.makeNotCache }

end Factory

/-- `MakeNotPredicate` and `MakeAndOrImpl` at one depth of the stack. -/
structure Level where
  makeNot : Nat → Factory → Nat × Factory
  makeAndOr : List Nat → Bool → Factory → Nat × Factory

namespace Level

/-- `MakeNotPredicate`, given `MakeNotPredicateImpl`. -/
def cached (impl : Nat → Factory → Nat × Factory) (pred : Nat) (f : Factory) : Nat × Factory :=
  match f.makeNotCache.lookup pred with
  | some result => (result, f)
  | none =>
    let (result, f₁) := impl pred f
    (result, f₁.cacheNot pred result)

def overflowed : Level where
  makeNot := cached fun pred f => f.intern (.not pred)
  makeAndOr operands isAnd f := f.makeInternedAndOr operands isAnd

variable (inner : Level)

def makeNots : List Nat → Factory → List Nat × Factory
  | [], f => ([], f)
  | op :: ops, f =>
    let (negated, f₁) := inner.makeNot op f
    let (rest, f₂) := makeNots ops f₁
    (negated :: rest, f₂)

def makeNotPredicateImpl (pred : Nat) (f : Factory) : Nat × Factory :=
  match f.get pred with
  | some (.andOr isAnd operands) =>
    -- `SimplifyUsingDeMorgan`
    let (newOperands, f₁) := inner.makeNots operands f
    inner.makeAndOr newOperands (!isAnd) f₁
  | some (.not operand) => (operand, f)
  | _ => f.intern (.not pred)

/-! ## MakeAndOrImpl -/

/-- The operands seen so far and the simplified ones among them. -/
structure Flattened where
  set : List Nat
  simplifiedOps : List Nat

def inlineOperand (acc : Flattened) (subop : Nat) : Flattened :=
  if subop ∈ acc.set then acc else ⟨subop :: acc.set, acc.simplifiedOps ++ [subop]⟩

/-- One turn of the loop over the operands. -/
def flattenOperand (f : Factory) (isAnd : Bool) (acc : Flattened) (op : Nat) : Flattened :=
  if op ∈ acc.set then acc
  else
    match f.operandsOf isAnd op with
    | some subops => subops.foldl inlineOperand ⟨op :: acc.set, acc.simplifiedOps⟩
    | none => ⟨op :: acc.set, acc.simplifiedOps ++ [op]⟩

def flatten (f : Factory) (isAnd : Bool) (operands : List Nat) : Flattened :=
  operands.foldl (flattenOperand f isAnd) ⟨[], []⟩

/-- The negations of the operands, or `none` once two operands exclude each other. -/
def negateOps (isAnd : Bool) (set : List Nat) :
    List Nat → List Nat → Factory → Option (List Nat) × Factory
  | [], negatedOps, f => (some negatedOps, f)
  | op :: ops, negatedOps, f =>
    if op ∈ negatedOps then (none, f)
    else
      let (negatedOp, f₁) := inner.makeNot op f
      if (f₁.operandsOf isAnd negatedOp).any (fun subops => subops.all (· ∈ set)) then (none, f₁)
      else negateOps isAnd set ops (negatedOp :: negatedOps) f₁

structure Rewritten where
  toRemove : List Nat
  toAdd : List Nat

/-- Simplifies `{S,&,X} & ~X` to `S`. -/
def rewriteRecurrences (negatedOps : List Nat) : List Nat → Factory → Rewritten × Factory
  | [], f => (⟨[], []⟩, f)
  | op :: ops, f =>
    match f.get op with
    | some (.andRecurrence start step _) =>
      if step ∈ negatedOps then
        let (negatedStep, f₁) := inner.makeNot step f
        let (rest, f₂) := rewriteRecurrences negatedOps ops f₁
        (⟨op :: negatedStep :: rest.toRemove, start :: rest.toAdd⟩, f₂)
      else rewriteRecurrences negatedOps ops f
    | _ => rewriteRecurrences negatedOps ops f

def applyRewrites (isAnd : Bool) (negatedOps simplifiedOps : List Nat) (f : Factory) :
    List Nat × Factory :=
  if isAnd then
    let (rewritten, f₁) := inner.rewriteRecurrences negatedOps simplifiedOps f
    (simplifiedOps.filter (· ∉ rewritten.toRemove) ++ rewritten.toAdd, f₁)
  else (simplifiedOps, f)

/-- The operands that all operands of the other kind have in common. -/
def commonInnerOperands (f : Factory) (isAnd : Bool) : List Nat → List Nat → List Nat
  | common, [] => common
  | common, op :: ops =>
    match f.operandsOf (!isAnd) op with
    | none => []
    | some subops =>
      let common' := if common.isEmpty then subops else subops.filter (· ∈ common)
      if common'.isEmpty then [] else commonInnerOperands f isAnd common' ops

/-- Recreates the operands without what they have in common. -/
def factorOps (isAnd : Bool) (common : List Nat) : List Nat → Factory → List Nat × Factory
  | [], f => ([], f)
  | op :: ops, f =>
    let subops := ((f.operandsOf (!isAnd) op).getD []).filter (· ∉ common)
    let (factored, f₁) := inner.makeAndOr subops (!isAnd) f
    let (rest, f₂) := factorOps isAnd common ops f₁
    (factored :: rest, f₂)

/-- `MakeAndOrImpl` from the search for common operands on. -/
def makeFactored (simplifiedOps : List Nat) (isAnd : Bool) (f : Factory) : Nat × Factory :=
  let common := commonInnerOperands f isAnd [] simplifiedOps
  if common.isEmpty then f.makeInternedAndOr simplifiedOps isAnd
  else
    let (factoredOps, f₁) := inner.factorOps isAnd common simplifiedOps f
    let (newInnerOp, f₂) := inner.makeAndOr factoredOps isAnd f₁
    inner.makeAndOr (newInnerOp :: common) (!isAnd) f₂

def makeAndOrImpl (operands : List Nat) (isAnd : Bool) (f : Factory) : Nat × Factory :=
  let flattened := flatten f isAnd operands
  match flattened.simplifiedOps with
  | [op] => (op, f)
  | simplifiedOps =>
    match inner.negateOps isAnd flattened.set simplifiedOps [] f with
    | (none, f₁) => inner.makeAndOr [] (!isAnd) f₁
    | (some negatedOps, f₁) =>
      let (rewrittenOps, f₂) := inner.applyRewrites isAnd negatedOps simplifiedOps f₁
      inner.makeFactored rewrittenOps isAnd f₂

def next : Level where
  makeNot := cached inner.makeNotPredicateImpl
  makeAndOr := inner.makeAndOrImpl

end Level

/-- `kMaxStackDepth` is 8, and a call from outside is at depth 1. -/
def level : Nat → Level
  | 0 => .overflowed
  | room + 1 => (level room).next

namespace Factory

def makeNotPredicate (f : Factory) (pred : Nat) : Nat × Factory := (level 7).makeNot pred f

def makeAndPredicate (f : Factory) (operands : List Nat) : Nat × Factory :=
  (level 7).makeAndOr operands true f

def makeOrPredicate (f : Factory) (operands : List Nat) : Nat × Factory :=
  (level 7).makeAndOr operands false f

def makeTrue (f : Factory) : Nat × Factory := f.makeAndPredicate []

def makeFalse (f : Factory) : Nat × Factory := f.makeOrPredicate []

def makeAndRecurrencePredicate (f : Factory) (start step : Nat) (frame : List Nat) :
    Nat × Factory :=
  f.intern (.andRecurrence start step frame)

end Factory
end TfReading.Deadness
