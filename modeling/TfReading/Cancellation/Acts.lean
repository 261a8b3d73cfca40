import Mathlib.Data.Multiset.Bind
import TfReading.Cancellation.Siblings
import TfReading.Cancellation.World

/-!
# What one step can do

The threads matter only through the `StartCancel` calls and the destructors in progress.
`Act` lists what a step can do to those, to the managers and to the log; every step of the
system is a sequence of such acts.
-/

namespace TfReading.Cancellation

open List

variable {κ : Type} {awaited : Option Nat} {e : Event κ}

/-- Cancellation of `self` has begun: by a `StartCancel`, or since it was constructed under a
parent whose cancellation had. -/
def Begun (self : Nat) (log : List (Event κ)) : Prop :=
  Event.began self ∈ log ∨ ∃ parent, Event.child self parent true ∈ log

def ChildOf (log : List (Event κ)) (parent child : Nat) : Prop :=
  Event.child child parent false ∈ log ∧ Event.closing child ∉ log ∧ Event.began parent ∉ log

def Registered (self : Nat) (token : Token) (callback : κ) : List (Event κ) → Prop
  | [] => False
  | .register self' token' callback' registered :: past =>
    (self' = self ∧ token' = token ∧ callback' = callback ∧ registered = true) ∨
      Registered self token callback past
  | .deregister self' token' deregistered :: past =>
    ¬(self' = self ∧ token' = token ∧ deregistered = true) ∧ Registered self token callback past
  | .child _ _ _ :: past => Registered self token callback past
  | .began _ :: past => Registered self token callback past
  | .ran _ _ _ :: past => Registered self token callback past
  | .closing _ :: past => Registered self token callback past
  | .destroyed _ :: past => Registered self token callback past

/-- `StartCancel` began on the manager while the callback was registered. -/
def BegunWith (self : Nat) (token : Token) (callback : κ) (log : List (Event κ)) : Prop :=
  ∃ later past, log = later ++ .began self :: past ∧ Registered self token callback past

/-- What an event says about the events before it. -/
def Event.Lawful : Event κ → List (Event κ) → Prop
  | .child _ parent cancelled, past => cancelled = true ↔ Begun parent past
  | .register self token _ registered, past => (registered = false ↔ Begun self past) ∧
      ∀ callback registered, Event.register self token callback registered ∉ past
  | .deregister self _ deregistered, past => deregistered = false ↔ Begun self past
  | .began self, past => ¬Begun self past
  | .ran _ _ _, _ => True
  | .closing _, _ => True
  | .destroyed _, _ => True

def LawfulLog : List (Event κ) → Prop
  | [] => True
  | e :: past => e.Lawful past ∧ LawfulLog past

def Event.self : Event κ → Nat
  | .child self _ _ => self
  | .register self _ _ _ => self
  | .deregister self _ _ => self
  | .began self => self
  | .ran self _ _ => self
  | .closing self => self
  | .destroyed self => self

theorem LawfulLog.at {later past : List (Event κ)}
    (h : LawfulLog (later ++ e :: past)) : e.Lawful past ∧ LawfulLog past := by
  induction later with
  | nil => exact h
  | cons _ later ih => exact ih h.2

theorem Registered.exists_register {self : Nat} {token : Token} {callback : κ}
    {log : List (Event κ)} (h : Registered self token callback log) :
    Event.register self token callback true ∈ log := by
  induction log with
  | nil => exact h.elim
  | cons e log ih =>
    cases e with
    | register =>
      rcases h with ⟨rfl, rfl, rfl, rfl⟩ | h
      · exact mem_cons_self
      · exact mem_cons_of_mem _ (ih h)
    | deregister => exact mem_cons_of_mem _ (ih h.2)
    | child _ _ _ | began _ | ran _ _ _ | closing _ | destroyed _ =>
      exact mem_cons_of_mem _ (ih h)

/-- The part of a world that the acts are about. -/
structure View (κ : Type) where
  managers : Pool κ
  made : Nat
  /-- The `StartCancel` calls in progress. -/
  frames : Multiset (Frame κ)
  /-- The destructors in progress, each with what it waits for. -/
  closers : Multiset (Nat × Option Nat)
  log : List (Event κ)

def framesOf (threads : List (Thread κ)) : Multiset (Frame κ) := threads.flatMap Thread.frames

def closersOf (threads : List (Thread κ)) : Multiset (Nat × Option Nat) :=
  threads.filterMap Thread.closer

@[simp] theorem framesOf_append (ts ts' : List (Thread κ)) :
    framesOf (ts ++ ts') = framesOf ts + framesOf ts' := by
  simp only [framesOf, flatMap_append, Multiset.coe_add]

@[simp] theorem closersOf_append (ts ts' : List (Thread κ)) :
    closersOf (ts ++ ts') = closersOf ts + closersOf ts' := by
  simp only [closersOf, filterMap_append, Multiset.coe_add]

@[simp] theorem closersOf_nil : closersOf ([] : List (Thread κ)) = 0 := rfl

@[simp] theorem framesOf_startCancel (frames : List (Frame κ)) :
    framesOf [.startCancel frames] = frames := by
  simp [framesOf, Thread.frames]

@[simp] theorem framesOf_destructor (self : Nat) (frames : List (Frame κ)) :
    framesOf [.destructor self frames] = frames := by
  simp [framesOf, Thread.frames]

@[simp] theorem framesOf_closing (self : Nat) (awaited : Option Nat) :
    framesOf [(.closing self awaited : Thread κ)] = 0 := rfl

@[simp] theorem closersOf_startCancel (frames : List (Frame κ)) :
    closersOf [.startCancel frames] = 0 := rfl

@[simp] theorem closersOf_closing (self : Nat) (awaited : Option Nat) :
    closersOf [(.closing self awaited : Thread κ)] = {(self, awaited)} := rfl

@[simp] theorem closersOf_destructor (self : Nat) (frames : List (Frame κ)) :
    closersOf [.destructor self frames] = {(self, none)} := rfl

/-- What an act sees of a world whose calls in progress are `frames` and `closers`. -/
def World.viewOf (w : World κ) (frames : Multiset (Frame κ))
    (closers : Multiset (Nat × Option Nat)) : View κ :=
  ⟨w.managers, w.made, frames, closers, w.log⟩

def World.view (w : World κ) : View κ := w.viewOf (framesOf w.threads) (closersOf w.threads)

/-- What the destructor's `DeregisterChild` does: what it waits for, and the managers after it. -/
def Pool.leave (pool : Pool κ) (self : Nat) : Except Fault (Option Nat × Pool κ) :=
  match (pool self).parent with
  | none => .ok (none, pool)
  | some parent => do
    let (waits, pool) ← pool.deregisterChild parent self
    return (if waits then some parent else none, pool)

theorem Pool.leave_ok {pool pool' : Pool κ} {self : Nat}
    (h : pool.leave self = .ok (awaited, pool')) :
    ((pool self).parent = none ∧ awaited = none ∧ pool' = pool) ∨
    ∃ parent waits, (pool self).parent = some parent ∧
      pool.deregisterChild parent self = .ok (waits, pool') ∧
      awaited = if waits then some parent else none := by
  rw [Pool.leave] at h
  cases hp : (pool self).parent with
  | none =>
    rw [hp] at h
    cases h
    exact .inl ⟨rfl, rfl, rfl⟩
  | some parent =>
    rw [hp] at h
    cases hd : pool.deregisterChild parent self with
    | error =>
      simp only [hd] at h
      cases h
    | ok r =>
      simp only [hd] at h
      cases h
      exact .inr ⟨parent, r.1, rfl, hd, rfl⟩

theorem Pool.leave_bare {pool pool' : Pool κ} {self : Nat}
    (h : pool.leave self = .ok (awaited, pool')) (a : Nat) : (pool' a).bare = (pool a).bare := by
  rcases leave_ok h with h | ⟨parent, waits, -, hd, -⟩
  · rw [h.2.2]
  · exact deregisterChild_bare hd a

inductive Act : View κ → View κ → Prop
  | create (v : View κ) :
      Act v { v with managers := Function.update v.managers v.made {}, made := v.made + 1 }
  | createChild (v : View κ) (parent : Nat) (hp : parent < v.made)
      (hlive : Event.closing parent ∉ v.log)
      (hstate : (v.managers parent).isCancelling = true → (v.managers parent).state.isSome = true) :
      Act v { v with
        managers := v.managers.construct v.made parent
        made := v.made + 1
        log := .child v.made parent (v.managers.construct v.made parent v.made).isCancelled :: v.log }
  | takeToken (v : View κ) (self : Nat) :
      Act v { v with managers := v.managers.modify self fun m => m.getCancellationToken.2 }
  | register (v : View κ) (self : Nat) (token : Token) (callback : κ) (hself : self < v.made)
      (hfresh : ∀ callback registered, Event.register self token callback registered ∉ v.log)
      (hb : (v.managers self).begun = false) :
      Act v { v with
        managers := v.managers.modify self fun m => m.insertCallback token callback
        log := .register self token callback true :: v.log }
  | refuse (v : View κ) (self : Nat) (token : Token) (callback : κ) (hself : self < v.made)
      (hfresh : ∀ callback registered, Event.register self token callback registered ∉ v.log)
      (hb : (v.managers self).begun = true) :
      Act v { v with log := .register self token callback false :: v.log }
  | deregister (v : View κ) (self : Nat) (token : Token) (hself : self < v.made)
      (hb : (v.managers self).begun = false) :
      Act v { v with
        managers := v.managers.modify self fun m => m.eraseCallback token
        log := .deregister self token true :: v.log }
  | keep (v : View κ) (self : Nat) (token : Token) (hself : self < v.made)
      (hb : (v.managers self).begun = true) :
      Act v { v with log := .deregister self token false :: v.log }
  | begin (v : View κ) (self : Nat) (l : List Nat) (hself : self < v.made)
      (hb : (v.managers self).begun = false) (hl : v.managers.Siblings self l) :
      Act v { v with
        managers := v.managers.detached self l
        frames := .visiting self (v.managers self).callbacks.entries l.reverse
          (v.managers self).state.isSome ::ₘ v.frames
        log := .began self :: v.log }
  | run (v : View κ) (self : Nat) (callbacks : List (Sigma fun _ : Token => κ)) (choice : Nat)
      (token : Token) (callback : κ) (children : List Nat) (notification : Bool)
      (rest : Multiset (Frame κ))
      (hframes : v.frames = .visiting self callbacks children notification ::ₘ rest)
      (hchoice : callbacks[choice]? = some ⟨token, callback⟩) :
      Act v { v with
        frames := .visiting self (callbacks.eraseIdx choice) children notification ::ₘ rest
        log := .ran self token callback :: v.log }
  | skip (v : View κ) (self child : Nat) (children : List Nat) (notification : Bool)
      (rest : Multiset (Frame κ))
      (hframes : v.frames = .visiting self [] (child :: children) notification ::ₘ rest)
      (hb : (v.managers child).begun = true) :
      Act v { v with frames := .visiting self [] children notification ::ₘ rest }
  | publish (v : View κ) (self : Nat) (notification : Bool) (rest : Multiset (Frame κ))
      (hframes : v.frames = .visiting self [] [] notification ::ₘ rest) :
      Act v { v with
        managers := v.managers.modify self Manager.publish
        frames := (if notification then {.published self} else 0) + rest }
  | notify (v : View κ) (self : Nat) (rest : Multiset (Frame κ))
      (hframes : v.frames = .published self ::ₘ rest) :
      Act v { v with managers := v.managers.modify self Manager.notify, frames := rest }
  | close (v : View κ) (self : Nat) (awaited : Option Nat) (pool : Pool κ) (hself : self < v.made)
      (hlive : Event.closing self ∉ v.log)
      (hchildren : ∀ child < v.made, (v.managers child).parent = some self →
        Event.destroyed child ∈ v.log)
      (hleave : v.managers.leave self = .ok (awaited, pool)) :
      Act v { v with
        managers := pool
        closers := (self, awaited) ::ₘ v.closers
        log := .closing self :: v.log }
  | proceed (v : View κ) (self : Nat) (awaited : Option Nat) (rest : Multiset (Nat × Option Nat))
      (hclosers : v.closers = (self, awaited) ::ₘ rest)
      (hnotified : ∀ parent ∈ awaited, (v.managers parent).notified = true) :
      Act v { v with closers := (self, none) ::ₘ rest }
  | destroy (v : View κ) (self : Nat) (rest : Multiset (Nat × Option Nat))
      (hclosing : Event.closing self ∈ v.log) (hclosers : v.closers = (self, none) ::ₘ rest) :
      Act v { v with closers := rest, log := .destroyed self :: v.log }

end TfReading.Cancellation
