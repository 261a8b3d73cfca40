import TfReading.Deadness.Handlers

/-!
# Sequences of calls on a predicate factory

Every call makes its predicate of symbols and of predicates that were made before.  Since a call
only adds predicates, what was made keeps its values.
-/

namespace TfReading.Deadness

open Factory Outcome List

inductive Make
  | symbol (node outputIdx : Nat) (mustBeTrue : Bool)
  | intSymbol (node outputIdx : Nat) (mustHaveValue : Option Int)
  | not (pred : Nat)
  | andOr (isAnd : Bool) (operands : List Nat)

namespace Make

/-- The call while `stack_depth_` is `depth`. -/
def run (g : Graph) (depth : Nat) (f : Factory) : Make → Except Error (Nat × Factory)
  | .symbol node outputIdx mustBeTrue => g.makeSymbolPredicate node outputIdx mustBeTrue f
  | .intSymbol node outputIdx (some value) => g.makeIntSymbolPredicate node outputIdx value f
  | .intSymbol node outputIdx none =>
    if (g.node node).outputTypes[outputIdx]? ≠ some .int32 then .error .wrongType
    else .ok (f.intern (.intSymbol ⟨node, some outputIdx⟩ none))
  | .not pred => .ok ((level (7 - depth)).makeNot pred f)
  | .andOr isAnd operands => .ok ((level (7 - depth)).makeAndOr operands isAnd f)

def value (g : Graph) (σ : Assignment) (v : Nat → Bool) : Make → Bool
  | .symbol node outputIdx true => g.boolValue σ node outputIdx
  | .intSymbol node outputIdx (some value) => g.intValue σ node outputIdx = value
  | .symbol node outputIdx false | .intSymbol node outputIdx none => σ.isAlive ⟨node, some outputIdx⟩
  | .not pred => !v pred
  | .andOr isAnd operands => junction isAnd v operands

variable {g : Graph} {f : Factory}

end Make

variable {g : Graph} {f : Factory}

end TfReading.Deadness
