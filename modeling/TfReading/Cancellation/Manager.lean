import Mathlib.Data.List.AList

/-!
# Cancellation managers

`core/framework/cancellation.{h,cc}`.  Managers are addresses in a pool, since the links
between a manager and its children are pointers.  Each function here is what its source
does while it holds `mu_`; waiting and running callbacks happen without the lock and are
steps of their own.  `κ` is what a `CancelCallback` is to its owner.
-/

namespace TfReading.Cancellation

abbrev Token := Int

def kInvalidToken : Token := -1

/-- `gtl::FlatMap<CancellationToken, CancelCallback>`. -/
abbrev Callbacks (κ : Type) := AList fun _ : Token => κ

/-- `CancellationManager::State`, with `cancelled_notification` as the flag it holds. -/
structure State (κ : Type) where
  notified : Bool := false
  callbacks : Callbacks κ := ∅
  firstChild : Option Nat := none

structure Manager (κ : Type) where
  isCancelling : Bool := false
  isCancelled : Bool := false
  nextCancellationToken : Token := 0
  parent : Option Nat := none
  isRemovedFromParent : Bool := false
  prevSibling : Option Nat := none
  nextSibling : Option Nat := none
  state : Option (State κ) := none

/-- What the code would do with a pointer it must not follow. -/
inductive Fault
  /-- `state_` is read where it is null. -/
  | nullState
  /-- The list of children does not end. -/
  | endlessList
  deriving DecidableEq, Repr

variable {κ : Type} {a : Nat}

namespace Manager

/-- `is_cancelled_ || is_cancelling_`, which every locked section asks first. -/
def begun (m : Manager κ) : Bool := m.isCancelled || m.isCancelling

def callbacks (m : Manager κ) : Callbacks κ :=
  match m.state with
  | none => ∅
  | some st => st.callbacks

def firstChild (m : Manager κ) : Option Nat := m.state.bind State.firstChild

def notified (m : Manager κ) : Bool := m.state.any State.notified

def getCancellationToken (m : Manager κ) : Token × Manager κ :=
  (m.nextCancellationToken, { m with nextCancellationToken := m.nextCancellationToken + 1 })

def insertCallback (m : Manager κ) (token : Token) (callback : κ) : Manager κ :=
  let state := m.state.getD {}
  { m with state := some { state with callbacks := state.callbacks.insert token callback } }

def eraseCallback (m : Manager κ) (token : Token) : Manager κ :=
  { m with state := m.state.map fun st => { st with callbacks := st.callbacks.erase token } }

def registerCallback (m : Manager κ) (token : Token) (callback : κ) : Bool × Manager κ :=
  if m.begun then (false, m) else (true, m.insertCallback token callback)

/-- How `DeregisterCallback` leaves its locked section. -/
inductive Answer
  | returned (deregistered : Bool)
  /-- It waits for `cancelled_notification` and then returns false. -/
  | waits
  deriving DecidableEq, Repr

def deregisterCallback (m : Manager κ) (token : Token) : Answer × Manager κ :=
  if m.isCancelled then (.returned false, m)
  else if m.isCancelling then (if m.state.isSome then .waits else .returned false, m)
  else (.returned true, m.eraseCallback token)

def tryDeregisterCallback (m : Manager κ) (token : Token) : Bool × Manager κ :=
  if m.begun then (false, m) else (true, m.eraseCallback token)

def publish (m : Manager κ) : Manager κ := { m with isCancelling := false, isCancelled := true }

def notify (m : Manager κ) : Manager κ :=
  { m with state := m.state.map fun st => { st with notified := true } }

end Manager

abbrev Pool (κ : Type) := Nat → Manager κ

/-- A call of `StartCancel` that has passed its first locked section. -/
inductive Frame (κ : Type)
  /-- The callbacks and children still to be visited, and whether there is a notification. -/
  | visiting (self : Nat) (callbacks : List (Sigma fun _ : Token => κ)) (children : List Nat)
      (notification : Bool)
  /-- The second locked section is over, `Notify` is not. -/
  | published (self : Nat)

namespace Pool

def modify (pool : Pool κ) (a : Nat) (f : Manager κ → Manager κ) : Pool κ :=
  Function.update pool a (f (pool a))

theorem modify_apply (pool : Pool κ) (a b : Nat) (f : Manager κ → Manager κ) :
    pool.modify a f b = if b = a then f (pool a) else pool b := by
  simp [modify, Function.update_apply]

@[simp] theorem modify_self (pool : Pool κ) (a : Nat) (f : Manager κ → Manager κ) :
    pool.modify a f a = f (pool a) := by
  simp [modify]

theorem modify_of_ne (pool : Pool κ) {b : Nat} (f : Manager κ → Manager κ) (h : b ≠ a) :
    pool.modify a f b = pool b := by
  simp [modify, h]

theorem modify_field {β : Type} (get : Manager κ → β) (pool : Pool κ)
    {f : Manager κ → Manager κ} (h : get (f (pool a)) = get (pool a)) (b : Nat) :
    get (pool.modify a f b) = get (pool b) := by
  rw [modify_apply]
  split
  next hb => rw [hb, h]
  · rfl

/-- The loop of `StartCancel` that takes the children off their parent's list.  The children
found are pushed to the front, and `fuel` bounds the number of turns. -/
def detachChildren : Nat → Pool κ → Option Nat → List Nat → Except Fault (List Nat × Pool κ)
  | _, pool, none, found => .ok (found, pool)
  | 0, _, some _, _ => .error .endlessList
  | fuel + 1, pool, some child, found =>
    let pool := pool.modify child fun c => { c with isRemovedFromParent := true }
    detachChildren fuel pool (pool child).nextSibling (child :: found)

/-- The first locked section of `StartCancel`.  No frame means that it returned at once. -/
def startCancel (fuel : Nat) (pool : Pool κ) (self : Nat) :
    Except Fault (Option (Frame κ) × Pool κ) :=
  if (pool self).begun then .ok (none, pool)
  else
    let pool := pool.modify self fun m => { m with isCancelling := true }
    match (pool self).state with
    | none => .ok (some (.visiting self [] [] false), pool)
    | some st => do
      let pool := pool.modify self fun m => { m with state := some { st with callbacks := ∅ } }
      let (children, pool) ← detachChildren fuel pool st.firstChild []
      let pool := pool.modify self fun m =>
        { m with state := m.state.map fun st => { st with firstChild := none } }
      return (some (.visiting self st.callbacks.entries children true), pool)

def registerChild (pool : Pool κ) (self child : Nat) : Bool × Pool κ :=
  if (pool self).begun then
    (true, pool.modify child fun c => { c with isRemovedFromParent := true })
  else
    let state := (pool self).state.getD {}
    let currentHead := state.firstChild
    let pool := pool.modify self fun m => { m with state := some { state with firstChild := some child } }
    let pool := pool.modify child fun c => { c with prevSibling := none, nextSibling := currentHead }
    match currentHead with
    | none => (false, pool)
    | some head => (false, pool.modify head fun c => { c with prevSibling := some child })

/-- The part of `DeregisterChild` that leads past `child` in the forward direction. -/
def bypassForward (pool : Pool κ) (self child : Nat) : Except Fault (Pool κ) :=
  match (pool child).prevSibling with
  | none =>
    match (pool self).state with
    | none => .error .nullState
    | some st => .ok (pool.modify self fun m =>
        { m with state := some { st with firstChild := (pool child).nextSibling } })
  | some before => .ok (pool.modify before fun c =>
      { c with nextSibling := (pool child).nextSibling })

def bypassBackward (pool : Pool κ) (child : Nat) : Pool κ :=
  match (pool child).nextSibling with
  | none => pool
  | some after => pool.modify after fun c => { c with prevSibling := (pool child).prevSibling }

def unlinkChild (pool : Pool κ) (self child : Nat) : Except Fault (Pool κ) := do
  let pool ← pool.bypassForward self child
  let pool := pool.bypassBackward child
  return pool.modify child fun c => { c with isRemovedFromParent := true }

/-- The locked section of `DeregisterChild`, and whether it waits for the notification. -/
def deregisterChild (pool : Pool κ) (self child : Nat) : Except Fault (Bool × Pool κ) := do
  let pool ← if (pool child).isRemovedFromParent then .ok pool else pool.unlinkChild self child
  if (pool self).isCancelling then
    if (pool self).state.isSome then return (true, pool) else .error .nullState
  else return (false, pool)

def construct (pool : Pool κ) (self parent : Nat) : Pool κ :=
  let (cancelled, pool) :=
    registerChild (Function.update pool self { parent := some parent }) parent self
  modify pool self fun m => { m with isCancelled := cancelled }

end Pool
end TfReading.Cancellation
