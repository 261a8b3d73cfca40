import TfReading.Library.Runs
import TfReading.LocalRendezvous.Rendezvous

/-!
# Interleaved calls on a rendezvous

A call enters with its locked section, where it gets its number, and goes on without the lock
in single steps between which other calls may enter.  The history is part of the state: the
calls in the order in which they took the lock, what `Send` returned, and the callbacks.
-/

namespace TfReading.LocalRendezvous

inductive Call (Key Tensor : Type)
  | send (key : Key) (sendArgs : Args) (val : Tensor) (isDead : Bool)
  | recvAsync (key : Key) (recvArgs : Args)
  | startAbort (status : Status)

/-- What a call has still to do without the lock. -/
inductive Rest (Key Tensor : Type)
  /-- `Send` calls the waiter of the receive that it took. -/
  | notify (item : Nat) (sendArgs : Args) (val : Tensor) (isDead : Bool)
  /-- `RecvAsync` calls `done` with the message that it took. -/
  | deliver (item : Nat) (recvArgs : Args)
  /-- `RecvAsync` calls `done` with the status that it found. -/
  | report (status : Status) (recvArgs : Args)
  /-- The item is deleted, and `Send` returns. -/
  | delete (item : Nat) (result : Option Status)
  /-- `StartAbort` at `item` of a queue, with the queues of `table` to come. -/
  | abort (status : Status) (table : Table Key) (item : Option Nat)
  /-- `StartAbort` after it has dealt with the waiter of `item`. -/
  | release (status : Status) (table : Table Key) (item : Nat)

structure State (Key Tensor : Type) where
  rendezvous : Rendezvous Key Tensor := {}
  calls : List (Call Key Tensor) := []
  /-- The calls in progress, by their numbers. -/
  running : List (Nat × Rest Key Tensor) := []
  /-- What `Send` returned, by the number of the call. -/
  returned : List (Nat × Status) := []
  /-- The invocations of callbacks, each with the number of the call that made it. -/
  invocations : List (Nat × Invocation Tensor) := []

inductive Label (Key Tensor : Type)
  | enter (call : Call Key Tensor)
  /-- The call at `index` goes on; `choice` is the queue a hash map's order puts next. -/
  | resume (index choice : Nat)

namespace State

variable {Key Tensor : Type} [DecidableEq Key] [Inhabited Tensor]

def spawn (s : State Key Tensor) (n : Nat) (rest : Rest Key Tensor) : State Key Tensor :=
  { s with running := s.running ++ [(n, rest)] }

def returns (s : State Key Tensor) (n : Nat) (status : Status) : State Key Tensor :=
  { s with returned := s.returned ++ [(n, status)] }

def done (s : State Key Tensor) (n : Nat) (invocation : Invocation Tensor) : State Key Tensor :=
  { s with invocations := s.invocations ++ [(n, invocation)] }

def wake (s : State Key Tensor) (n : Nat) (waiter : Waiter) (status : Status)
    (sendArgs recvArgs : Args) (value : Tensor) (isDead : Bool) : State Key Tensor :=
  { s with rendezvous := s.rendezvous.deregister waiter }.done n
    ⟨waiter.done, status, sendArgs, recvArgs, value, isDead⟩

def enter (s : State Key Tensor) (call : Call Key Tensor) : Except Fault (State Key Tensor) :=
  let n := s.calls.length
  let s := { s with calls := s.calls ++ [call] }
  match call with
  | .send key sendArgs val isDead => do
    let (sent, r) ← s.rendezvous.send key sendArgs val isDead
    let s := { s with rendezvous := r }
    match sent with
    | .returned status => .ok (s.returns n status)
    | .consumed item => .ok (s.spawn n (.notify item sendArgs val isDead))
  | .recvAsync key recvArgs => do
    let (received, r) ← s.rendezvous.recvAsync key recvArgs n
    let s := { s with rendezvous := r }
    match received with
    | .aborted status => .ok (s.spawn n (.report status recvArgs))
    | .alreadyCancelled => .ok (s.spawn n (.report recvCancelled recvArgs))
    | .waiting => .ok s
    | .consumed item => .ok (s.spawn n (.deliver item recvArgs))
  | .startAbort status => do
    let (table, r) ← s.rendezvous.startAbort status
    .ok ({ s with rendezvous := r }.spawn n (.abort status table none))

/-- One step of call `n` without the lock, and what it has still to do then. -/
def continued (s : State Key Tensor) (n choice : Nat) :
    Rest Key Tensor → Except Fault (State Key Tensor × Option (Rest Key Tensor))
  | .notify item sendArgs val isDead => do
    let it ← s.rendezvous.deref (some item)
    match it.state with
    | .send _ _ => .error .wrongType
    | .recv waiter _ =>
      .ok (s.wake n waiter .ok sendArgs it.args val isDead, some (.delete item (some .ok)))
  | .deliver item recvArgs => do
    let it ← s.rendezvous.deref (some item)
    match it.state with
    | .recv _ _ => .error .wrongType
    | .send value isDead =>
      .ok (s.done n ⟨n, .ok, it.args, recvArgs, value, isDead⟩, some (.delete item none))
  | .report status recvArgs => .ok (s.done n ⟨n, status, {}, recvArgs, default, false⟩, none)
  | .delete item result => do
    let r ← s.rendezvous.delete item
    let s := { s with rendezvous := r }
    match result with
    | none => .ok (s, none)
    | some status => .ok (s.returns n status, none)
  | .abort status table none =>
    match table.entries with
    | [] => .ok (s, none)
    | entries =>
      match entries[choice]? with
      | none => .ok (s, some (.abort status table none))
      | some ⟨key, queue⟩ => .ok (s, some (.abort status (table.erase key) queue.head))
  | .abort status table (some item) => do
    let it ← s.rendezvous.deref (some item)
    match it.state with
    | .send _ _ => .ok (s, some (.release status table item))
    | .recv waiter _ =>
      .ok (s.wake n waiter status {} {} default false, some (.release status table item))
  | .release status table item => do
    let it ← s.rendezvous.deref (some item)
    let r ← s.rendezvous.delete item
    .ok ({ s with rendezvous := r }, some (.abort status table it.next))

def next (s : State Key Tensor) : Label Key Tensor → Except Fault (State Key Tensor)
  | .enter call => s.enter call
  | .resume index choice =>
    match s.running[index]? with
    | none => .ok s
    | some (n, rest) => do
      let (s, rest) ← s.continued n choice rest
      .ok { s with running := s.running.take index ++ rest.toList.map (Prod.mk n) ++
        s.running.drop (index + 1) }

def Unmanaged : Label Key Tensor → Prop
  | .enter (.recvAsync _ recvArgs) => recvArgs.cancellationManager = none
  | .enter (.send _ _ _ _) => True
  | .enter (.startAbort _) => True
  | .resume _ _ => True

end State

def system (Key Tensor : Type) [DecidableEq Key] [Inhabited Tensor] :
    System (State Key Tensor) (Label Key Tensor) where
  init s := s = {}
  step s a s' := State.Unmanaged a ∧ s.next a = .ok s'

end TfReading.LocalRendezvous
