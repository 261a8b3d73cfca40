import TfReading.LocalRendezvous.Queues

/-!
# The locked sections on lists

What `Send` and `RecvAsync` do to the queues while they hold the lock, by what they find at
the head of the queue of their key.
-/

namespace TfReading.LocalRendezvous

open Cancellation (Token kInvalidToken)

variable {Key Tensor : Type} [DecidableEq Key]

namespace Rendezvous

variable {r r' r'' : Rendezvous Key Tensor} {q : Key → List (Cell Tensor)} {key : Key}
  {c : Cell Tensor} {l : List (Cell Tensor)}

omit [DecidableEq Key] in
theorem Keeps.trans {written : Nat → Prop} (h : Keeps r r' fun _ => False)
    (h' : Keeps r' r'' written) : Keeps r r'' written where
  heap a ha := (h'.heap a ha).trans (h.heap a id)
  fresh := le_trans h.fresh h'.fresh
  status := h'.status.trans h.status
  managers := h'.managers.trans h.managers
  refs := h'.refs.trans h.refs

theorem keeps_touch (r : Rendezvous Key Tensor) (key : Key) : Keeps r (r.touch key) fun _ => False :=
  ⟨fun _ _ => rfl, le_rfl, rfl, rfl, rfl⟩

omit [DecidableEq Key] in
/-- A waiter changes only its manager and the references. -/
theorem deregister_eq (r : Rendezvous Key Tensor) (waiter : Waiter) :
    (r.deregister waiter).heap = r.heap ∧ (r.deregister waiter).fresh = r.fresh ∧
    (r.deregister waiter).table = r.table ∧ (r.deregister waiter).status = r.status := by
  obtain ⟨done, deregisters⟩ := waiter
  cases deregisters with
  | none => exact ⟨rfl, rfl, rfl, rfl⟩
  | some =>
    simp only [deregister]
    split <;> exact ⟨rfl, rfl, rfl, rfl⟩

theorem Stored.deref_head (h : r.Stored q) (hq : q key = c :: l) :
    (r.queue key).head = some c.1 ∧
      ∃ next, r.deref (some c.1) = .ok { c.2 with next := next } ∧ Listed r.heap next l := by
  have hlisted := (h.queueOk key).1
  rw [hq] at hlisted
  obtain ⟨next, hitem, hrest⟩ := hlisted.cons_item
  refine ⟨hlisted.head_eq, next, ?_, hrest⟩
  rw [deref, hitem]

theorem Stored.head_none (h : r.Stored q) (hq : q key = []) : (r.queue key).head = none := by
  have hlisted := (h.queueOk key).1
  rw [hq] at hlisted
  exact hlisted.chain

def Appended (r r' : Rendezvous Key Tensor) (q : Key → List (Cell Tensor)) (key : Key)
    (entry : Entry Tensor) : Prop :=
  r'.Stored (Function.update q key (q key ++ [(r.fresh, entry)])) ∧
    Keeps r r' fun a => a = r.fresh ∨ ∃ c ∈ q key, c.1 = a

def Consumed (r r' : Rendezvous Key Tensor) (q : Key → List (Cell Tensor)) (key : Key)
    (l : List (Cell Tensor)) : Prop :=
  r'.Stored (Function.update q key l) ∧ Keeps r r' fun _ => False

theorem touch_enqueue (h : r.Stored q) (key : Key) (entry : Entry Tensor) :
    ∃ r', (r.touch key).enqueue key entry = .ok r' ∧ Appended r r' q key entry := by
  obtain ⟨r', henqueue, -, hstored, hkeeps⟩ := enqueue_spec (h.touch key) key entry
  exact ⟨r', henqueue, hstored, (keeps_touch r key).trans hkeeps⟩

theorem touch_consume (h : r.Stored q) (hq : q key = c :: l) {next : Option Nat}
    (hrest : Listed r.heap next l) :
    Consumed r ((r.touch key).consume key { c.2 with next := next }) q key l := by
  have hcons : q key = (c.1, ({ c.2 with next := next } : Item Tensor).toEntry) :: l := hq
  obtain ⟨hstored, hkeeps⟩ := consume_spec (h.touch key) hcons hrest
  exact ⟨hstored, (keeps_touch r key).trans hkeeps⟩

section Send

variable (sendArgs : Args) (val : Tensor) (isDead : Bool)

theorem send_push (h : r.Stored q) (hok : r.status = .ok)
    (hhead : ∀ c ∈ (q key).head?, c.2.isRecv = false) :
    ∃ r', r.send key sendArgs val isDead = .ok (.returned .ok, r') ∧
      Appended r r' q key ⟨sendArgs, .send val isDead⟩ := by
  obtain ⟨r', henqueue, happended⟩ := touch_enqueue h key ⟨sendArgs, .send val isDead⟩
  refine ⟨r', ?_, happended⟩
  rw [send, if_pos hok]
  cases hq : q key with
  | nil =>
    simp only [queue_touch, h.head_none hq, henqueue]
    rfl
  | cons c =>
    obtain ⟨hhd, next, hread, -⟩ := (h.touch key).deref_head hq
    have hsend : c.2.isRecv = false := hhead c (by simp [hq])
    simp only [hhd, hread, henqueue]
    cases hstate : c.2.state with
    | send => simp only [bind, Except.bind, hstate]; rfl
    | recv => simp [Entry.isRecv, hstate] at hsend

theorem send_pop (h : r.Stored q) (hok : r.status = .ok) (hq : q key = c :: l)
    (hrecv : c.2.isRecv = true) :
    ∃ r', r.send key sendArgs val isDead = .ok (.consumed c.1, r') ∧ Consumed r r' q key l := by
  obtain ⟨hhd, next, hread, hrest⟩ := (h.touch key).deref_head hq
  refine ⟨_, ?_, touch_consume h hq hrest⟩
  obtain ⟨w, t, hstate⟩ := Entry.isRecv_iff.1 hrecv
  rw [send, if_pos hok]
  simp only [hhd, hread, bind, Except.bind, hstate]
  rfl

end Send

section RecvAsync

variable (recvArgs : Args) (done : Nat)

theorem recvAsync_await (h : r.Stored q) (hok : r.status = .ok)
    (hhead : ∀ c ∈ (q key).head?, c.2.isRecv = true) :
    r.recvAsync key recvArgs done = (r.touch key).await key recvArgs done := by
  rw [recvAsync, if_pos hok]
  cases hq : q key with
  | nil => simp only [queue_touch, h.head_none hq]
  | cons c =>
    obtain ⟨hhd, next, hread, -⟩ := (h.touch key).deref_head hq
    have hrecv : c.2.isRecv = true := hhead c (by simp [hq])
    obtain ⟨w, t, hstate⟩ := Entry.isRecv_iff.1 hrecv
    simp only [hhd, hread, bind, Except.bind, hstate]

theorem recvAsync_push (h : r.Stored q) (hok : r.status = .ok)
    (hhead : ∀ c ∈ (q key).head?, c.2.isRecv = true) (hcm : recvArgs.cancellationManager = none) :
    ∃ r', r.recvAsync key recvArgs done = .ok (.waiting, r') ∧
      Appended r r' q key ⟨recvArgs, .recv ⟨done, none⟩ kInvalidToken⟩ := by
  obtain ⟨r', henqueue, happended⟩ :=
    touch_enqueue h key ⟨recvArgs, .recv ⟨done, none⟩ kInvalidToken⟩
  refine ⟨r', ?_, happended⟩
  rw [recvAsync_await recvArgs done h hok hhead, await, hcm]
  simp only [henqueue]
  rfl

theorem recvAsync_pop (h : r.Stored q) (hok : r.status = .ok) (hq : q key = c :: l)
    (hsend : c.2.isRecv = false) :
    ∃ r', r.recvAsync key recvArgs done = .ok (.consumed c.1, r') ∧ Consumed r r' q key l := by
  obtain ⟨hhd, next, hread, hrest⟩ := (h.touch key).deref_head hq
  refine ⟨_, ?_, touch_consume h hq hrest⟩
  rw [recvAsync, if_pos hok]
  cases hstate : c.2.state with
  | send =>
    simp only [hhd, hread, bind, Except.bind, hstate]
    rfl
  | recv => simp [Entry.isRecv, hstate] at hsend

variable {m : Nat}

theorem await_cancelled (hcm : recvArgs.cancellationManager = some m)
    (hbegun : (r.managers m).begun = true) :
    r.await key recvArgs done = .ok (.alreadyCancelled, { r with
      managers := Function.update r.managers m (r.managers m).getCancellationToken.2 }) := by
  have hregister : ∀ t callback, (r.managers m).getCancellationToken.2.registerCallback t callback =
      (false, (r.managers m).getCancellationToken.2) := by
    intro t callback
    have hbegun' : (r.managers m).getCancellationToken.2.begun = true := hbegun
    rw [Cancellation.Manager.registerCallback, hbegun']
    rfl
  rw [await, hcm]
  simp only [hregister, Bool.false_eq_true, if_false, Int.add_sub_cancel]

theorem await_registered (h : r.Stored q) (hcm : recvArgs.cancellationManager = some m)
    (hopen : (r.managers m).begun = false) :
    let t := (r.managers m).nextCancellationToken
    ∃ r', r.await key recvArgs done = .ok (.waiting, r') ∧ r'.status = r.status ∧
      r'.Stored (Function.update q key
        (q key ++ [(r.fresh, ⟨recvArgs, .recv ⟨done, some (m, t)⟩ t⟩)])) ∧
      r'.managers = Function.update r.managers m
        ((r.managers m).getCancellationToken.2.insertCallback t ⟨t, key⟩) := by
  intro t
  let manager := (r.managers m).getCancellationToken.2.insertCallback t ⟨t, key⟩
  have hregister : (r.managers m).getCancellationToken.2.registerCallback t ⟨t, key⟩ =
      (true, manager) := by
    have hopen' : (r.managers m).getCancellationToken.2.begun = false := hopen
    rw [Cancellation.Manager.registerCallback, hopen']
    rfl
  let r1 : Rendezvous Key Tensor := { r with
    refs := r.refs + 1
    managers := Function.update r.managers m manager }
  have hstored : r1.Stored q := { h with }
  obtain ⟨r', henqueue, -, hstored', hkeeps⟩ :=
    enqueue_spec hstored key ⟨recvArgs, .recv ⟨done, some (m, t)⟩ t⟩
  refine ⟨r', ?_, hkeeps.status, hstored', hkeeps.managers⟩
  have hawait : r.await key recvArgs done =
      (do let r ← r1.enqueue key ⟨recvArgs, .recv ⟨done, some (m, t)⟩ t⟩; return (.waiting, r)) := by
    rw [await, hcm]
    simp only [Cancellation.Manager.getCancellationToken] at hregister ⊢
    simp only [t] at hregister
    simp only [hregister, if_true]
    rfl
  rw [hawait, henqueue]
  rfl

end RecvAsync

end Rendezvous
end TfReading.LocalRendezvous
