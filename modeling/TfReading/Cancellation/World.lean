import TfReading.Cancellation.Manager
import TfReading.Library.Runs

/-!
# Interleaved calls on a tree of cancellation managers

A call that goes on after its first locked section is a thread.  The log is the history of
the run, newest event first; what a manager's users may still do is read off it.
-/

namespace TfReading.Cancellation

variable {κ : Type}

inductive Event (κ : Type)
  /-- A child was constructed, and `RegisterChild` returned `cancelled`. -/
  | child (self parent : Nat) (cancelled : Bool)
  /-- `RegisterCallback` returned `registered`. -/
  | register (self : Nat) (token : Token) (callback : κ) (registered : Bool)
  /-- `DeregisterCallback` or `TryDeregisterCallback` returned `deregistered`. -/
  | deregister (self : Nat) (token : Token) (deregistered : Bool)
  /-- `StartCancel` passed its first locked section as the first call to do so. -/
  | began (self : Nat)
  | ran (self : Nat) (token : Token) (callback : κ)
  /-- The destructor has been entered and has been through `DeregisterChild`. -/
  | closing (self : Nat)
  | destroyed (self : Nat)

inductive Thread (κ : Type)
  /-- `StartCancel`, with the calls it has made on children in front. -/
  | startCancel (frames : List (Frame κ))
  /-- `DeregisterCallback` waits for the notification. -/
  | deregisterCallback (self : Nat) (token : Token)
  /-- The destructor in `DeregisterChild`, which waits for the notification of `awaited`. -/
  | closing (self : Nat) (awaited : Option Nat)
  /-- The destructor in its own `StartCancel`. -/
  | destructor (self : Nat) (frames : List (Frame κ))

namespace Thread

def frames : Thread κ → List (Frame κ)
  | .startCancel frames => frames
  | .destructor _ frames => frames
  | .deregisterCallback _ _ => []
  | .closing _ _ => []

/-- The manager that a destructor is running on, and what it still waits for. -/
def closer : Thread κ → Option (Nat × Option Nat)
  | .closing self awaited => some (self, awaited)
  | .destructor self _ => some (self, none)
  | .startCancel _ => none
  | .deregisterCallback _ _ => none

end Thread

structure World (κ : Type) where
  managers : Pool κ
  /-- The number of managers constructed, and the address of the next one. -/
  made : Nat
  threads : List (Thread κ)
  log : List (Event κ)

inductive Label (κ : Type)
  | create
  | createChild (parent : Nat)
  | getCancellationToken (self : Nat)
  | registerCallback (self : Nat) (token : Token) (callback : κ)
  | deregisterCallback (self : Nat) (token : Token)
  | tryDeregisterCallback (self : Nat) (token : Token)
  | startCancel (self : Nat)
  | destroy (self : Nat)
  /-- The thread at `index` goes on; `choice` is the callback a hash map's order puts next. -/
  | resume (index choice : Nat)

namespace World

def initial : World κ := ⟨fun _ => {}, 0, [], []⟩

def record (w : World κ) (e : Event κ) : World κ := { w with log := e :: w.log }

def spawn (w : World κ) (t : Thread κ) : World κ := { w with threads := w.threads ++ [t] }

def modify (w : World κ) (self : Nat) (f : Manager κ → Manager κ) : World κ :=
  { w with managers := w.managers.modify self f }

def startCancel (w : World κ) (self : Nat) : Except Fault (World κ × List (Frame κ)) := do
  let (frame, pool) ← w.managers.startCancel w.made self
  let w := { w with managers := pool }
  match frame with
  | none => return (w, [])
  | some frame => return (w.record (.began self), [frame])

/-- What `StartCancel` does next without the lock, or in its second locked section. -/
def advance (w : World κ) (choice : Nat) :
    List (Frame κ) → Except Fault (World κ × List (Frame κ))
  | [] => .ok (w, [])
  | .visiting self [] [] notification :: rest =>
    .ok (w.modify self Manager.publish, if notification then .published self :: rest else rest)
  | .visiting self [] (child :: children) notification :: rest => do
    let (w, frames) ← w.startCancel child
    return (w, frames ++ .visiting self [] children notification :: rest)
  | .visiting self (callback :: callbacks) children notification :: rest =>
    match (callback :: callbacks)[choice]? with
    | none => .ok (w, .visiting self (callback :: callbacks) children notification :: rest)
    | some ⟨token, chosen⟩ =>
      .ok (w.record (.ran self token chosen),
        .visiting self ((callback :: callbacks).eraseIdx choice) children notification :: rest)
  | .published self :: rest => .ok (w.modify self Manager.notify, rest)

/-- One step of a thread: the threads that stand in its place afterwards. -/
def continued (w : World κ) (choice : Nat) : Thread κ → Except Fault (World κ × List (Thread κ))
  | .startCancel [] => .ok (w, [])
  | .startCancel (frame :: rest) => do
    let (w, frames) ← w.advance choice (frame :: rest)
    return (w, [.startCancel frames])
  | .deregisterCallback self token => .ok (w.record (.deregister self token false), [])
  | .closing self _ =>
    if (w.managers self).state.isSome then do
      let (w, frames) ← w.startCancel self
      return (w, [.destructor self frames])
    else .ok (w, [.destructor self []])
  | .destructor self [] => .ok (w.record (.destroyed self), [])
  | .destructor self (frame :: rest) => do
    let (w, frames) ← w.advance choice (frame :: rest)
    return (w, [.destructor self frames])

/-- `self` has been constructed and its destructor has not been entered. -/
def Live (w : World κ) (self : Nat) : Prop := self < w.made ∧ Event.closing self ∉ w.log

/-- `token` was handed out by `self` and no registration has used it. -/
def Fresh (w : World κ) (self : Nat) (token : Token) : Prop :=
  token < (w.managers self).nextCancellationToken ∧
    ∀ callback registered, Event.register self token callback registered ∉ w.log

/-- What the callers owe, and what a waiting thread waits for.  A parent outlives its children,
and a manager that is being cancelled without ever having registered anything gets none. -/
def Enabled (w : World κ) : Label κ → Prop
  | .create => True
  | .createChild parent => w.Live parent ∧
      ((w.managers parent).isCancelling = true → (w.managers parent).state.isSome = true)
  | .getCancellationToken self => w.Live self
  | .registerCallback self token _ => w.Live self ∧ w.Fresh self token
  | .deregisterCallback self _ => w.Live self
  | .tryDeregisterCallback self _ => w.Live self
  | .startCancel self => w.Live self
  | .destroy self => w.Live self ∧
      ∀ child < w.made, (w.managers child).parent = some self → Event.destroyed child ∈ w.log
  | .resume index _ =>
    match w.threads[index]? with
    | none => False
    | some (.deregisterCallback self _) => (w.managers self).notified = true
    | some (.closing _ awaited) => ∀ parent ∈ awaited, (w.managers parent).notified = true
    | some (.startCancel _) => True
    | some (.destructor _ _) => True

def next (w : World κ) : Label κ → Except Fault (World κ)
  | .create => .ok { w with managers := Function.update w.managers w.made {}, made := w.made + 1 }
  | .createChild parent =>
    let pool := w.managers.construct w.made parent
    .ok { w with
      managers := pool
      made := w.made + 1
      log := .child w.made parent (pool w.made).isCancelled :: w.log }
  | .getCancellationToken self => .ok (w.modify self fun m => m.getCancellationToken.2)
  | .registerCallback self token callback =>
    let (registered, m) := (w.managers self).registerCallback token callback
    .ok ((w.modify self fun _ => m).record (.register self token callback registered))
  | .deregisterCallback self token =>
    match (w.managers self).deregisterCallback token with
    | (.returned deregistered, m) =>
      .ok ((w.modify self fun _ => m).record (.deregister self token deregistered))
    | (.waits, m) => .ok ((w.modify self fun _ => m).spawn (.deregisterCallback self token))
  | .tryDeregisterCallback self token =>
    let (deregistered, m) := (w.managers self).tryDeregisterCallback token
    .ok ((w.modify self fun _ => m).record (.deregister self token deregistered))
  | .startCancel self => do
    let (w, frames) ← w.startCancel self
    return w.spawn (.startCancel frames)
  | .destroy self =>
    match (w.managers self).parent with
    | none => .ok ((w.record (.closing self)).spawn (.closing self none))
    | some parent => do
      let (waits, pool) ← w.managers.deregisterChild parent self
      let w := { w with managers := pool }
      return (w.record (.closing self)).spawn (.closing self (if waits then some parent else none))
  | .resume index choice =>
    match w.threads[index]? with
    | none => .ok w
    | some thread => do
      let (w, threads) ← w.continued choice thread
      return { w with threads := w.threads.take index ++ threads ++ w.threads.drop (index + 1) }

end World

def system (κ : Type) : System (World κ) (Label κ) where
  init w := w = World.initial
  step w a w' := w.Enabled a ∧ w.next a = .ok w'

end TfReading.Cancellation
