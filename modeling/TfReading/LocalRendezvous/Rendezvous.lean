import Mathlib.Data.List.Infix
import TfReading.Cancellation.Manager

/-!
# The local rendezvous

`core/framework/local_rendezvous.{h,cc}`.  Items live in a heap and are linked into one queue
for each key; `new` takes an address that was never used.  The functions here are what the
source does while it holds `mu_`, and the single steps it makes without it.  A key stands for
its hash, since different keys are taken to have different hashes.
-/

namespace TfReading.LocalRendezvous

open Cancellation (Token kInvalidToken Manager)

inductive Status
  | ok
  | error (code : Nat) (message : String)
  deriving DecidableEq, Repr

def cancelled (message : String) : Status := .error 1 message

def derivedMarker : String := "[_Derived_]"

def makeDerived : Status → Status
  | .ok => .ok
  | .error code message =>
    if derivedMarker.toList <:+: message.toList then .error code message
    else .error code (derivedMarker ++ message)

/-- What `done` is called with for a receive that is cancelled. -/
def recvCancelled : Status := makeDerived (cancelled "RecvAsync is cancelled.")

def Status.update (status new : Status) : Status := if status = .ok then new else status

structure AllocatorAttributes where
  value : BitVec 32 := 0
  scopeId : Int := 0
  deriving DecidableEq, Repr

/-- `Rendezvous::Args`; device contexts and cancellation managers are addresses. -/
structure Args where
  deviceContext : Option Nat := none
  allocAttrs : AllocatorAttributes := {}
  cancellationManager : Option Nat := none
  deriving DecidableEq, Repr

/-- A `DoneCallback` is known by the number of the `RecvAsync` call that it was given to. -/
structure Invocation (Tensor : Type) where
  done : Nat
  status : Status
  sendArgs : Args
  recvArgs : Args
  value : Tensor
  isDead : Bool
  deriving DecidableEq, Repr

/-- The waiter of a receive: `done`, or the closure around it that first deregisters the
cancellation callback. -/
structure Waiter where
  done : Nat
  deregisters : Option (Nat × Token)
  deriving DecidableEq, Repr

inductive ItemState (Tensor : Type)
  | send (value : Tensor) (isDead : Bool)
  | recv (waiter : Waiter) (cancellationToken : Token)
  deriving DecidableEq, Repr

structure Entry (Tensor : Type) where
  args : Args
  state : ItemState Tensor
  deriving DecidableEq, Repr

structure Item (Tensor : Type) extends Entry Tensor where
  next : Option Nat := none

structure ItemQueue where
  head : Option Nat := none
  tail : Option Nat := none

/-- The closure `[this, token, key_hash]` that `RecvAsync` registers. -/
structure CancelCallback (Key : Type) where
  token : Token
  key : Key

/-- `gtl::FlatMap<uint64, ItemQueue>`. -/
abbrev Table (Key : Type) := AList fun _ : Key => ItemQueue

inductive Fault
  /-- A pointer that is null or dangling is followed. -/
  | badPointer
  /-- The state of a receive is read from a send. -/
  | wrongType
  | endlessList
  /-- `CHECK(!status.ok())`. -/
  | checkFailed
  deriving DecidableEq, Repr

structure Rendezvous (Key Tensor : Type) where
  heap : Nat → Option (Item Tensor) := fun _ => none
  /-- The addresses from here on have never been handed out. -/
  fresh : Nat := 0
  table : Table Key := ∅
  status : Status := .ok
  managers : Nat → Manager (CancelCallback Key) := fun _ => {}
  /-- The references that `RecvAsync` holds on the owner. -/
  refs : Int := 0

namespace Rendezvous

variable {Key Tensor : Type} [DecidableEq Key]

def deref (r : Rendezvous Key Tensor) : Option Nat → Except Fault (Item Tensor)
  | none => .error .badPointer
  | some a =>
    match r.heap a with
    | none => .error .badPointer
    | some item => .ok item

def write (r : Rendezvous Key Tensor) (a : Nat) (item : Item Tensor) : Rendezvous Key Tensor :=
  { r with heap := Function.update r.heap a (some item) }

def delete (r : Rendezvous Key Tensor) (a : Nat) : Except Fault (Rendezvous Key Tensor) := do
  let _ ← r.deref (some a)
  return { r with heap := Function.update r.heap a none }

def queue (r : Rendezvous Key Tensor) (key : Key) : ItemQueue := (r.table.lookup key).getD {}

def setQueue (r : Rendezvous Key Tensor) (key : Key) (q : ItemQueue) : Rendezvous Key Tensor :=
  { r with table := r.table.insert key q }

def eraseQueue (r : Rendezvous Key Tensor) (key : Key) : Rendezvous Key Tensor :=
  { r with table := r.table.erase key }

/-- `table_[key_hash]`, which makes an empty queue where there is none. -/
def touch (r : Rendezvous Key Tensor) (key : Key) : Rendezvous Key Tensor :=
  r.setQueue key (r.queue key)

def pushBack (r : Rendezvous Key Tensor) (key : Key) (item : Nat) :
    Except Fault (Rendezvous Key Tensor) :=
  match (r.queue key).head with
  | none => .ok (r.setQueue key ⟨some item, some item⟩)
  | some _ =>
    match (r.queue key).tail with
    | none => .error .badPointer
    | some tail => do
      let last ← r.deref (some tail)
      let r := r.write tail { last with next := some item }
      return r.setQueue key { r.queue key with tail := some item }

def enqueue (r : Rendezvous Key Tensor) (key : Key) (entry : Entry Tensor) :
    Except Fault (Rendezvous Key Tensor) :=
  let item := r.fresh
  ({ r with fresh := r.fresh + 1 }.write item { entry with next := none }).pushBack key item

/-- The head of the queue is taken off, and with the last item the queue itself. -/
def consume (r : Rendezvous Key Tensor) (key : Key) (item : Item Tensor) : Rendezvous Key Tensor :=
  match item.next with
  | none => r.eraseQueue key
  | some next => r.setQueue key { r.queue key with head := some next }

inductive Sent
  | returned (status : Status)
  | consumed (item : Nat)

def send (r : Rendezvous Key Tensor) (key : Key) (sendArgs : Args) (val : Tensor) (isDead : Bool) :
    Except Fault (Sent × Rendezvous Key Tensor) :=
  if r.status = .ok then
    let r := r.touch key
    let append : Except Fault (Sent × Rendezvous Key Tensor) := do
      let r ← r.enqueue key ⟨sendArgs, .send val isDead⟩
      return (.returned .ok, r)
    match (r.queue key).head with
    | none => append
    | some head => do
      let item ← r.deref (some head)
      match item.state with
      | .send _ _ => append
      | .recv _ _ => return (.consumed head, r.consume key item)
  else .ok (.returned r.status, r)

inductive Received
  | aborted (status : Status)
  | alreadyCancelled
  | waiting
  | consumed (item : Nat)

/-- The branch of `RecvAsync` for a message that has not arrived. -/
def await (r : Rendezvous Key Tensor) (key : Key) (recvArgs : Args) (done : Nat) :
    Except Fault (Received × Rendezvous Key Tensor) :=
  match recvArgs.cancellationManager with
  | none => do
    let r ← r.enqueue key ⟨recvArgs, .recv ⟨done, none⟩ kInvalidToken⟩
    return (.waiting, r)
  | some cm =>
    let r := { r with refs := r.refs + 1 }
    let (token, manager) := (r.managers cm).getCancellationToken
    let (registered, manager) := manager.registerCallback token ⟨token, key⟩
    let r := { r with managers := Function.update r.managers cm manager }
    if registered then do
      let r ← r.enqueue key ⟨recvArgs, .recv ⟨done, some (cm, token)⟩ token⟩
      return (.waiting, r)
    else .ok (.alreadyCancelled, { r with refs := r.refs - 1 })

def recvAsync (r : Rendezvous Key Tensor) (key : Key) (recvArgs : Args) (done : Nat) :
    Except Fault (Received × Rendezvous Key Tensor) :=
  if r.status = .ok then
    let r := r.touch key
    match (r.queue key).head with
    | none => r.await key recvArgs done
    | some head => do
      let item ← r.deref (some head)
      match item.state with
      | .recv _ _ => r.await key recvArgs done
      | .send _ _ => return (.consumed head, r.consume key item)
  else .ok (.aborted r.status, r)

/-- The locked section of `StartAbort`, which takes the whole table. -/
def startAbort (r : Rendezvous Key Tensor) (status : Status) :
    Except Fault (Table Key × Rendezvous Key Tensor) :=
  if status = .ok then .error .checkFailed
  else .ok (r.table, { r with status := r.status.update status, table := ∅ })

/-- The search of the cancellation callback: the item with `token` and the one before it. -/
def findToken (r : Rendezvous Key Tensor) (token : Token) :
    Nat → Option Nat → Option Nat → Except Fault (Option (Option Nat × Nat))
  | _, _, none => .ok none
  | 0, _, some _ => .error .endlessList
  | fuel + 1, prev, some curr => do
    let item ← r.deref (some curr)
    match item.state with
    | .send _ _ => .error .wrongType
    | .recv _ token' =>
      if token' = token then return some (prev, curr)
      else r.findToken token fuel (some curr) item.next

/-- The link to `curr`, from the queue or from `prev`, leads past it to `next`. -/
def bypass (r : Rendezvous Key Tensor) (key : Key) (prev : Option Nat) (curr : Nat)
    (next : Option Nat) : Except Fault (Rendezvous Key Tensor) :=
  if (r.queue key).head = some curr then .ok (r.setQueue key { r.queue key with head := next })
  else
    match prev with
    | none => .error .badPointer
    | some before => do
      let link ← r.deref (some before)
      return r.write before { link with next := next }

/-- The removal of `curr`, which follows `prev`, from a queue with more than one item. -/
def unlink (r : Rendezvous Key Tensor) (key : Key) (prev : Option Nat) (curr : Nat) :
    Except Fault (Rendezvous Key Tensor) := do
  let item ← r.deref (some curr)
  let r ← r.bypass key prev curr item.next
  if (r.queue key).tail = some curr then return r.setQueue key { r.queue key with tail := prev }
  else return r

/-- The locked section of the cancellation callback: the item it takes off the queue. -/
def cancelItem (r : Rendezvous Key Tensor) (callback : CancelCallback Key) :
    Except Fault (Option Nat × Rendezvous Key Tensor) :=
  let r := r.touch callback.key
  match (r.queue callback.key).head with
  | none => .ok (none, r)
  | some head => do
    let first ← r.deref (some head)
    match first.state with
    | .send _ _ => return (none, r)
    | .recv _ _ =>
      match ← r.findToken callback.token r.fresh none (some head) with
      | none => return (none, r)
      | some (prev, curr) =>
        if first.next = none then return (some curr, r.eraseQueue callback.key)
        else do
          let r ← r.unlink callback.key prev curr
          return (some curr, r)

/-- What a waiter does before it calls `done`. -/
def deregister (r : Rendezvous Key Tensor) (waiter : Waiter) : Rendezvous Key Tensor :=
  match waiter.deregisters with
  | none => r
  | some (cm, token) =>
    let (deregistered, manager) := (r.managers cm).tryDeregisterCallback token
    let r := { r with managers := Function.update r.managers cm manager }
    if deregistered then { r with refs := r.refs - 1 } else r

end Rendezvous
end TfReading.LocalRendezvous
