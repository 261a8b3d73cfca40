import Mathlib.Algebra.Ring.Nat

/-!
# `PendingCounts` of `core/common_runtime/pending_counts.h`

The counts of one node.  A handle is either large, with 32 bits for the pending
count and 31 for the dead count, or packed, with three bits for each.  All
arithmetic on the fields is modulo their widths.
-/

namespace TfReading.Executor

inductive NodeState
  | pendingNotReady
  | pendingReady
  | started
  | completed
  deriving DecidableEq, Repr

/-- What a handle refers to, with the layout that the handle records. -/
structure Counts where
  isLarge : Bool
  pendingField : Nat
  deadCount : Nat
  hasStarted : Bool
  deriving DecidableEq, Repr

def kMaxCountForPackedCounts : Nat := 7

/-- `CreateHandle` decides the layout. -/
def createHandle (maxPendingCount maxDeadCount : Nat) : Bool :=
  maxPendingCount > kMaxCountForPackedCounts || maxDeadCount > kMaxCountForPackedCounts

namespace Counts

def pendingModulus (isLarge : Bool) : Nat := if isLarge then 2 ^ 32 else 2 ^ 3

def deadModulus (isLarge : Bool) : Nat := if isLarge then 2 ^ 31 else 2 ^ 3

def setInitialCount (isLarge : Bool) (pendingCount : Nat) : Counts :=
  ⟨isLarge, pendingCount % pendingModulus isLarge, 0, false⟩

def nodeState (c : Counts) : NodeState :=
  if c.hasStarted then
    if c.pendingField = 0 then .started else .completed
  else
    if c.pendingField = 0 then .pendingReady else .pendingNotReady

/-- The pending field encodes the state once the node has started, so `pending`
is zero then. -/
def pending (c : Counts) : Nat :=
  if c.nodeState = .pendingNotReady then c.pendingField else 0

def subPending (c : Counts) (v : Nat) : Nat :=
  (c.pendingField + pendingModulus c.isLarge - v) % pendingModulus c.isLarge

def decrementPending (c : Counts) (v : Nat) : Counts :=
  { c with pendingField := c.subPending v }

/-- Clears the lowest bit; the packed layout masks with `0x6`. -/
def markLive (c : Counts) : Counts :=
  if c.nodeState = .pendingNotReady then
    { c with pendingField := if c.isLarge then c.pendingField - c.pendingField % 2
                             else c.pendingField &&& 0x6 }
  else c

def incrementDeadCount (c : Counts) : Counts :=
  if c.nodeState = .pendingNotReady then
    { c with deadCount := (c.deadCount + 1) % deadModulus c.isLarge }
  else c

structure AdjustResult where
  anyDead : Bool
  anyPending : Bool
  deriving DecidableEq, Repr

/-- The atomic variant runs the same computation in a compare-and-swap loop. -/
def adjustForActivation (c : Counts) (incrementDead : Bool) : Counts × AdjustResult :=
  let c₁ := if incrementDead then c.incrementDeadCount else c
  let c₂ := { c₁ with pendingField := c₁.subPending 1 }
  (c₂, ⟨c₂.deadCount != 0, c₂.pendingField != 0⟩)

/-! ## Counts that stay in range -/

/-- The fields fit and the node has not started.  Only the debug log starts nodes. -/
structure InRange (c : Counts) : Prop where
  pending_lt : c.pendingField < pendingModulus c.isLarge
  notStarted : c.hasStarted = false

variable {c : Counts}

theorem pending_eq (h : c.InRange) : c.pending = c.pendingField := by
  rw [pending, nodeState, h.notStarted]
  by_cases hz : c.pendingField = 0
  · simp [hz]
  · simp [hz]

theorem nodeState_eq_iff (h : c.InRange) :
    c.nodeState = .pendingNotReady ↔ c.pendingField ≠ 0 := by
  rw [nodeState, h.notStarted]
  by_cases hz : c.pendingField = 0
  · simp [hz]
  · simp [hz]

theorem subPending_eq (h : c.InRange) {v : Nat} (hv : v ≤ c.pendingField) :
    c.subPending v = c.pendingField - v := by
  have hlt := h.pending_lt
  rw [subPending, show c.pendingField + pendingModulus c.isLarge - v =
    (c.pendingField - v) + pendingModulus c.isLarge by omega, Nat.add_mod_right,
    Nat.mod_eq_of_lt (by omega)]

/-- Both layouts clear the lowest bit. -/
theorem markLive_pendingField (h : c.InRange) :
    c.markLive.pendingField = c.pendingField - c.pendingField % 2 := by
  rw [markLive]
  by_cases hz : c.pendingField = 0
  · rw [if_neg (fun e => (nodeState_eq_iff h).mp e hz), hz]
  · rw [if_pos ((nodeState_eq_iff h).mpr hz)]
    split
    · rfl
    next hl =>
      have hlt := h.pending_lt
      rw [pendingModulus, if_neg hl] at hlt
      have hmask : ∀ p : Fin 8, p.val &&& 0x6 = p.val - p.val % 2 := by decide
      exact hmask ⟨c.pendingField, hlt⟩

theorem markLive_keeps (c : Counts) : c.markLive.isLarge = c.isLarge ∧
    c.markLive.hasStarted = c.hasStarted ∧ c.markLive.deadCount = c.deadCount := by
  rw [markLive]
  split <;> exact ⟨rfl, rfl, rfl⟩

@[simp]
theorem incrementDeadCount_pendingField (c : Counts) :
    c.incrementDeadCount.pendingField = c.pendingField := by
  rw [incrementDeadCount]
  split <;> rfl

@[simp]
theorem incrementDeadCount_isLarge (c : Counts) :
    c.incrementDeadCount.isLarge = c.isLarge := by
  rw [incrementDeadCount]
  split <;> rfl

theorem InRange.incrementDeadCount (h : c.InRange) :
    c.incrementDeadCount.InRange := by
  refine ⟨?_, ?_⟩
  · rw [incrementDeadCount_pendingField, incrementDeadCount_isLarge]
    exact h.pending_lt
  · rw [Counts.incrementDeadCount]
    split
    · exact h.notStarted
    · exact h.notStarted

end Counts
end TfReading.Executor
