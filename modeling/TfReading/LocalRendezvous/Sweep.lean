import TfReading.LocalRendezvous.Sessions
import TfReading.LocalRendezvous.Unlink

/-!
# Running the callbacks of a manager

Each callback erases the first entry of its key that has its token, whichever manager that
entry is registered with.  `sweep` is the effect of a list of callbacks on the queues.
-/

namespace TfReading.LocalRendezvous

open List Function

open Cancellation (Token Manager)

variable {Key Tensor : Type} {e : Entry Tensor} {token : Token}

def Entry.token? (e : Entry Tensor) : Option Token :=
  match e.state with
  | .recv _ token => some token
  | .send _ _ => none

def Entry.manager? (e : Entry Tensor) : Option Nat :=
  match e.state with
  | .recv _ _ => e.args.cancellationManager
  | .send _ _ => none

theorem Entry.hasToken_iff :
    e.hasToken token = true ↔ e.token? = some token := by
  cases h : e.state <;> simp [hasToken, token?, h]

theorem Entry.token?_of_manager? {m : Nat} (h : e.manager? = some m) :
    ∃ w t, e.state = .recv w t ∧ e.token? = some t ∧ e.args.cancellationManager = some m := by
  cases hs : e.state with
  | send => simp [manager?, hs] at h
  | recv w t => exact ⟨w, t, rfl, by simp [token?, hs], by simpa [manager?, hs] using h⟩

/-- What `done` of a waiting receive is called with by a cancellation. -/
def Entry.cancellation [Inhabited Tensor] (e : Entry Tensor) : Option (Invocation Tensor) :=
  match e.state with
  | .recv waiter _ => some ⟨waiter.done, recvCancelled, {}, e.args, default, false⟩
  | .send _ _ => none

theorem Listed.unique {heap : Nat → Option (Item Tensor)} {p : Option Nat}
    {l l' : List (Cell Tensor)} (h : Listed heap p l) (h' : Listed heap p l') : l = l' := by
  induction l generalizing p l' with
  | nil =>
    have hp : p = none := h.chain
    rw [hp] at h'
    exact h'.eq_nil.symm
  | cons c l ih =>
    have hp := h.head_eq
    subst hp
    obtain ⟨item, l1, hitem, rfl, hrest⟩ := h'.cons_inv
    obtain ⟨next, hitem', hrest'⟩ := h.cons_item
    rw [hitem] at hitem'
    cases hitem'
    rw [ih hrest' hrest]

variable [DecidableEq Key] {waiter : Waiter}

def sweepOne (q : Key → List (Cell Tensor)) (callback : CancelCallback Key) :
    Key → List (Cell Tensor) :=
  Function.update q callback.key ((q callback.key).eraseP fun c => c.2.hasToken callback.token)

def sweep : (Key → List (Cell Tensor)) → Registrations Key → Key → List (Cell Tensor)
  | q, [] => q
  | q, x :: todo => sweep (sweepOne q x.2) todo

def swept [Inhabited Tensor] : (Key → List (Cell Tensor)) → Registrations Key → List (Invocation Tensor)
  | _, [] => []
  | q, x :: todo =>
    (((q x.2.key).find? fun c => c.2.hasToken x.2.token).bind fun c => c.2.cancellation).toList ++
      swept (sweepOne q x.2) todo

/-- The callbacks only take out entries with `P`. -/
def AllFound (P : Cell Tensor → Prop) : (Key → List (Cell Tensor)) → Registrations Key → Prop
  | _, [] => True
  | q, x :: todo =>
    (∀ c ∈ (q x.2.key).find? fun c => c.2.hasToken x.2.token, P c) ∧ AllFound P (sweepOne q x.2) todo

/-- The waiter of an entry finds the cancellation of its manager begun. -/
def Entry.Refused (e : Entry Tensor) (managers : Nat → Manager (CancelCallback Key)) : Prop :=
  ∀ w t, e.state = .recv w t → ∀ x ∈ w.deregisters, (managers x.1).begun = true

def Uniform (q : Key → List (Cell Tensor)) : Prop :=
  ∀ key, (∀ c ∈ q key, c.2.isRecv = true) ∨ ∀ c ∈ q key, c.2.isRecv = false

theorem sweepOne_subset (q : Key → List (Cell Tensor)) (callback : CancelCallback Key) (key : Key) :
    (sweepOne q callback key).Sublist (q key) := by
  by_cases hk : key = callback.key
  · subst hk
    rw [sweepOne, update_self]
    exact eraseP_sublist
  · rw [sweepOne, update_of_ne hk]

theorem Uniform.sweepOne {q : Key → List (Cell Tensor)} (h : Uniform q) (callback : CancelCallback Key) :
    Uniform (sweepOne q callback) := fun key =>
  (h key).imp (fun hall c hc => hall c ((sweepOne_subset q callback key).subset hc))
    fun hall c hc => hall c ((sweepOne_subset q callback key).subset hc)

namespace Rendezvous

variable {r r' : Rendezvous Key Tensor} {q : Key → List (Cell Tensor)}

theorem Stored.congr (h : r.Stored q) (hheap : r'.heap = r.heap) (hfresh : r'.fresh = r.fresh)
    (htable : r'.table = r.table) : r'.Stored q :=
  ⟨fun k => by rw [hheap, htable]; exact h.queues k, h.apart,
    fun a ha => by rw [hheap]; exact h.unused a (hfresh ▸ ha)⟩

omit [DecidableEq Key] in
theorem managers_deregister (h : ∀ x ∈ waiter.deregisters, (r.managers x.1).begun = true) :
    (r.deregister waiter).managers = r.managers := by
  obtain ⟨done, deregisters⟩ := waiter
  cases deregisters with
  | none => rfl
  | some x =>
    have hx := h x rfl
    simp [deregister, Cancellation.Manager.tryDeregisterCallback, hx]

end Rendezvous

namespace Session

variable [Inhabited Tensor] {s : Session Key Tensor} {q : Key → List (Cell Tensor)}

omit [Inhabited Tensor] in
theorem release_spec (h : s.rendezvous.Stored q) {c : Cell Tensor}
    (hc : (s.rendezvous.heap c.1).map Item.toEntry = some c.2) (hout : ∀ k, ∀ d ∈ q k, d.1 ≠ c.1)
    (hstate : c.2.state = .recv waiter token) (status : Status)
    (sendArgs : Args) (value : Tensor) (isDead : Bool) :
    ∃ s', s.release c.1 status sendArgs value isDead = .ok s' ∧ s'.rendezvous.Stored q ∧
      s'.rendezvous.status = s.rendezvous.status ∧
      s'.rendezvous.managers = (s.rendezvous.deregister waiter).managers ∧
      s'.received = s.received ∧
      s'.invocations = s.invocations ++ [⟨waiter.done, status, sendArgs, c.2.args, value, isDead⟩] := by
  obtain ⟨item, hitem, hentry⟩ := Option.map_eq_some_iff.1 hc
  obtain ⟨hheap, hfresh, htable, hstatus⟩ := s.rendezvous.deregister_eq waiter
  have hread : s.rendezvous.deref (some c.1) = .ok item := by rw [Rendezvous.deref, hitem]
  have hitem' : (s.rendezvous.deregister waiter).heap c.1 = some item := by rw [hheap, hitem]
  obtain ⟨hdelete, hstored⟩ := Rendezvous.delete_spec (h.congr hheap hfresh htable) hitem' hout
  have hwaiter : item.state = .recv waiter token := by rw [← hstate, ← hentry]
  have hargs : item.args = c.2.args := by rw [← hentry]
  let heap' := update (s.rendezvous.deregister waiter).heap c.1 none
  refine ⟨{ s with
    rendezvous := { s.rendezvous.deregister waiter with heap := heap' }
    invocations := s.invocations ++ [⟨waiter.done, status, sendArgs, c.2.args, value, isDead⟩] },
    ?_, hstored, hstatus, rfl, rfl, rfl⟩
  simp only [release, hread, bind, Except.bind, hwaiter, setRendezvous, done, hdelete, hargs]
  rfl

theorem runCallback_spec (h : s.rendezvous.Stored q) (huniform : Uniform q)
    (callback : CancelCallback Key) :
    ∃ s', s.runCallback callback = .ok s' ∧ s'.rendezvous.Stored (sweepOne q callback) ∧
      s'.rendezvous.status = s.rendezvous.status ∧ s'.received = s.received ∧
      s'.invocations = s.invocations ++
        (((q callback.key).find? fun c => c.2.hasToken callback.token).bind
          fun c => c.2.cancellation).toList ∧
      ((∀ c ∈ (q callback.key).find? fun c => c.2.hasToken callback.token,
          c.2.Refused s.rendezvous.managers) →
        s'.rendezvous.managers = s.rendezvous.managers) := by
  cases hfind : (q callback.key).find? fun c => c.2.hasToken callback.token with
  | none =>
    have hno : ∀ c ∈ q callback.key, c.2.hasToken callback.token = false := by
      simpa using find?_eq_none.1 hfind
    have hsame : sweepOne q callback = q := by
      rw [sweepOne, eraseP_of_forall_not (by simpa using hno), update_eq_self]
    have hcancel := Rendezvous.cancelItem_none callback h (huniform _) hno
    refine ⟨s.setRendezvous { s.rendezvous.touch callback.key with
      refs := (s.rendezvous.touch callback.key).refs - 1 }, ?_, ?_, rfl, rfl, ?_, fun _ => rfl⟩
    · rw [runCallback, hcancel]
      rfl
    · rw [hsame]
      exact (h.touch callback.key).congr rfl rfl rfl
    · simp [setRendezvous]
  | some c =>
    obtain ⟨hc, l1, l2, hq, hno⟩ := find?_eq_some_iff_append.1 hfind
    have hmem : c ∈ q callback.key := by simp [hq]
    have hno' : ∀ d ∈ l1, d.2.hasToken callback.token = false := by simpa using hno
    have herase : sweepOne q callback = update q callback.key (l1 ++ l2) := by
      rw [sweepOne, hq, eraseP_append_right _ (by simpa using hno')]
      simp [hc]
    obtain ⟨waiter, hstate⟩ : ∃ waiter, c.2.state = .recv waiter callback.token := by
      cases hs : c.2.state with
      | send => simp [Entry.hasToken, hs] at hc
      | recv w t =>
        have ht : t = callback.token := by simpa [Entry.hasToken, hs] using hc
        exact ⟨w, by rw [ht]⟩
    have hrecv : ∀ d ∈ q callback.key, d.2.isRecv = true := by
      refine (huniform callback.key).resolve_right fun hsend => ?_
      have hfalse := hsend c hmem
      simp [Entry.isRecv, hstate] at hfalse
    obtain ⟨r', hcancel, hstored, hkeeps⟩ :=
      Rendezvous.cancelItem_some callback h hq hrecv hno' hc
    have hnodup := (h.queueOk callback.key).1.nodup
    rw [hq, map_append, map_cons, nodup_middle, nodup_cons,
      ← map_append] at hnodup
    have hlive : ((s.setRendezvous r').rendezvous.heap c.1).map Item.toEntry = some c.2 := by
      have hkept : r'.heap c.1 = s.rendezvous.heap c.1 := by
        refine hkeeps.heap c.1 fun hw => hnodup.1 ?_
        obtain ⟨d, hd, heq⟩ := hw
        exact heq ▸ mem_map_of_mem (mem_append_left _ hd)
      show (r'.heap c.1).map Item.toEntry = some c.2
      rw [hkept]
      exact (h.queueOk callback.key).1.entries c hmem
    have hout : ∀ k, ∀ d ∈ update q callback.key (l1 ++ l2) k, d.1 ≠ c.1 := by
      intro k d hd heq
      by_cases hk : k = callback.key
      · rw [hk, update_self] at hd
        exact hnodup.1 (heq ▸ mem_map_of_mem hd)
      · rw [update_of_ne hk] at hd
        exact hk (h.apart k callback.key d c hd hmem heq)
    obtain ⟨s', hrelease, hstored', hstatus, hmanagers, hreceived, hinvocations⟩ :=
      release_spec hstored hlive hout hstate recvCancelled {} default false
    refine ⟨s'.setRendezvous { s'.rendezvous with refs := s'.rendezvous.refs - 1 }, ?_, ?_, ?_, hreceived,
      ?_, fun hbegun => ?_⟩
    · rw [runCallback, hcancel]
      simp only [bind, Except.bind, hrelease]
    · rw [herase]
      exact hstored'.congr rfl rfl rfl
    · exact hstatus.trans hkeeps.status
    · show s'.invocations = _
      rw [hinvocations]
      simp [Entry.cancellation, hstate, setRendezvous]
    · have hrefused : ∀ x ∈ waiter.deregisters, (r'.managers x.1).begun = true := by
        rw [hkeeps.managers]
        exact hbegun c rfl waiter _ hstate
      show s'.rendezvous.managers = s.rendezvous.managers
      rw [hmanagers, ← hkeeps.managers]
      exact Rendezvous.managers_deregister hrefused

theorem runCallbacks_spec (todo : Registrations Key) (h : s.rendezvous.Stored q) (huniform : Uniform q) :
    ∃ s', todo.foldlM (fun s x => runCallback s x.2) s = .ok s' ∧
      s'.rendezvous.Stored (sweep q todo) ∧ s'.rendezvous.status = s.rendezvous.status ∧
      s'.received = s.received ∧ s'.invocations = s.invocations ++ swept q todo ∧
      (AllFound (fun c => c.2.Refused s.rendezvous.managers) q todo →
        s'.rendezvous.managers = s.rendezvous.managers) := by
  induction todo generalizing s q with
  | nil => exact ⟨s, rfl, h, rfl, rfl, by simp [swept], fun _ => rfl⟩
  | cons x todo ih =>
    obtain ⟨s1, hrun, hstored, hstatus, hreceived, hinvocations, hmanagers⟩ :=
      runCallback_spec h huniform x.2
    obtain ⟨s', hfold, hstored', hstatus', hreceived', hinvocations', hmanagers'⟩ :=
      ih hstored (huniform.sweepOne x.2)
    refine ⟨s', ?_, hstored', hstatus'.trans hstatus, hreceived'.trans hreceived, ?_, fun hall => ?_⟩
    · rw [foldlM_cons, hrun]
      exact hfold
    · rw [hinvocations', hinvocations, swept, append_assoc]
    · have hsame := hmanagers hall.1
      rw [← hsame] at hall ⊢
      exact hmanagers' hall.2

end Session
end TfReading.LocalRendezvous
