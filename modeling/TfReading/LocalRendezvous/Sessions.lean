import TfReading.LocalRendezvous.Rendezvous

/-!
# Calls one after another, with cancellation

Each call runs to its end before the next one starts.  `StartCancel` of a manager runs the
callbacks that `RecvAsync` registered, in an order that its hash map chooses; the managers
have no children.
-/

namespace TfReading.LocalRendezvous

open Cancellation (Token Pool Manager Callbacks)

abbrev Registrations (Key : Type) := List (Sigma fun _ : Token => CancelCallback Key)

structure Session (Key Tensor : Type) where
  rendezvous : Rendezvous Key Tensor := {}
  /-- The number of `RecvAsync` calls, which is the name of the next callback. -/
  received : Nat := 0
  invocations : List (Invocation Tensor) := []

inductive Operation (Key Tensor : Type)
  | send (key : Key) (sendArgs : Args) (val : Tensor) (isDead : Bool)
  | recvAsync (key : Key) (recvArgs : Args)
  | startCancel (manager : Nat) (order : Registrations Key → Registrations Key)

namespace Session

variable {Key Tensor : Type} [DecidableEq Key] [Inhabited Tensor]

def setRendezvous (s : Session Key Tensor) (r : Rendezvous Key Tensor) : Session Key Tensor :=
  { s with rendezvous := r }

def done (s : Session Key Tensor) (invocation : Invocation Tensor) : Session Key Tensor :=
  { s with invocations := s.invocations ++ [invocation] }

/-- The waiter of a receive that was taken out of its queue is called, and the item deleted. -/
def release (s : Session Key Tensor) (item : Nat) (status : Status) (sendArgs : Args)
    (value : Tensor) (isDead : Bool) : Except Fault (Session Key Tensor) := do
  let it ← s.rendezvous.deref (some item)
  match it.state with
  | .send _ _ => .error .wrongType
  | .recv waiter _ =>
    let s := s.setRendezvous (s.rendezvous.deregister waiter)
    let s := s.done ⟨waiter.done, status, sendArgs, it.args, value, isDead⟩
    let r ← s.rendezvous.delete item
    .ok (s.setRendezvous r)

def send (s : Session Key Tensor) (key : Key) (sendArgs : Args) (val : Tensor) (isDead : Bool) :
    Except Fault (Session Key Tensor) := do
  let (sent, r) ← s.rendezvous.send key sendArgs val isDead
  match sent with
  | .returned _ => .ok (s.setRendezvous r)
  | .consumed item => (s.setRendezvous r).release item .ok sendArgs val isDead

def recvAsync (s : Session Key Tensor) (key : Key) (recvArgs : Args) :
    Except Fault (Session Key Tensor) := do
  let n := s.received
  let (received, r) ← s.rendezvous.recvAsync key recvArgs n
  let s := { s with rendezvous := r, received := n + 1 }
  match received with
  | .aborted status => .ok (s.done ⟨n, status, {}, recvArgs, default, false⟩)
  | .alreadyCancelled => .ok (s.done ⟨n, recvCancelled, {}, recvArgs, default, false⟩)
  | .waiting => .ok s
  | .consumed item => do
    let it ← s.rendezvous.deref (some item)
    match it.state with
    | .recv _ _ => .error .wrongType
    | .send value isDead =>
      let s := s.done ⟨n, .ok, it.args, recvArgs, value, isDead⟩
      let r ← s.rendezvous.delete item
      .ok (s.setRendezvous r)

/-- The callback that `RecvAsync` registers. -/
def runCallback (s : Session Key Tensor) (callback : CancelCallback Key) :
    Except Fault (Session Key Tensor) := do
  let (item, r) ← s.rendezvous.cancelItem callback
  match item with
  | none => .ok (s.setRendezvous { r with refs := r.refs - 1 })
  | some item =>
    let s ← (s.setRendezvous r).release item recvCancelled {} default false
    .ok (s.setRendezvous { s.rendezvous with refs := s.rendezvous.refs - 1 })

def setManagers (s : Session Key Tensor) (managers : Pool (CancelCallback Key)) :
    Session Key Tensor :=
  s.setRendezvous { s.rendezvous with managers := managers }

def startCancel (s : Session Key Tensor) (manager : Nat)
    (order : Registrations Key → Registrations Key) : Except Fault (Session Key Tensor) :=
  match Pool.startCancel 0 s.rendezvous.managers manager with
  | .error _ => .error .endlessList
  | .ok (none, pool) => .ok (s.setManagers pool)
  | .ok (some (.published _), _) => .error .wrongType
  | .ok (some (.visiting _ callbacks _ _), pool) => do
    let s ← (order callbacks).foldlM (fun s x => s.runCallback x.2) (s.setManagers pool)
    .ok (s.setManagers (Pool.modify s.rendezvous.managers manager fun m => m.publish.notify))

def next (s : Session Key Tensor) : Operation Key Tensor → Except Fault (Session Key Tensor)
  | .send key sendArgs val isDead => s.send key sendArgs val isDead
  | .recvAsync key recvArgs => s.recvAsync key recvArgs
  | .startCancel manager order => s.startCancel manager order

end Session
end TfReading.LocalRendezvous
