import TfReading.Cancellation.Callbacks
import TfReading.LocalRendezvous.Listing

/-!
# The callbacks of waiting receives

Between calls the callbacks of every manager are those of the receives that were registered
with it and wait.  `Send` and `RecvAsync` keep this.
-/

namespace TfReading.LocalRendezvous

open List Rendezvous

open Cancellation (Token Pool Manager kInvalidToken)
open Function

variable {Key Tensor : Type} [DecidableEq Key]

namespace Session

structure Good (s : Session Key Tensor) (q : Key → List (Cell Tensor)) : Prop where
  stored : s.rendezvous.Stored q
  ok : s.rendezvous.status = .ok
  uniform : Uniform q
  /-- The waiter of a receive deregisters its token with its manager. -/
  waiters : ∀ key, ∀ c ∈ q key, ∀ w t, c.2.state = .recv w t →
    w.done < s.received ∧ w.deregisters = c.2.args.cancellationManager.map fun m => (m, t)
  /-- The manager of a waiting receive is not cancelled, and has handed out its token. -/
  managers : ∀ key, ∀ c ∈ q key, ∀ m t, c.2.manager? = some m → c.2.token? = some t →
    (s.rendezvous.managers m).begun = false ∧ t < (s.rendezvous.managers m).nextCancellationToken
  callbacks : ∀ m t cb, (s.rendezvous.managers m).callbacks.lookup t = some cb ↔
    cb.token = t ∧ ∃ c ∈ q cb.key, c.2.manager? = some m ∧ c.2.token? = some t
  tokens : ∀ key key' c c' m, c ∈ q key → c' ∈ q key' → c.2.manager? = some m →
    c'.2.manager? = some m → c.2.token? = c'.2.token? → c = c'
  dones : ∀ key key' c c', c ∈ q key → c' ∈ q key' → ∀ w t w' t', c.2.state = .recv w t →
    c'.2.state = .recv w' t' → w.done = w'.done → c = c'
  childless : ∀ m, (s.rendezvous.managers m).firstChild = none

variable {s s' : Session Key Tensor} {q q' : Key → List (Cell Tensor)} {c : Cell Tensor} {m : Nat}

namespace Good

theorem shrink (h : Good s q) (hstored : s'.rendezvous.Stored q') (hok : s'.rendezvous.status = .ok)
    (hsub : ∀ key, ∀ c ∈ q' key, c ∈ q key) (hreceived : s.received ≤ s'.received)
    (hmanagers : ∀ key, ∀ c ∈ q' key, ∀ m, c.2.manager? = some m →
      (s'.rendezvous.managers m).begun = (s.rendezvous.managers m).begun ∧
      (s'.rendezvous.managers m).nextCancellationToken =
        (s.rendezvous.managers m).nextCancellationToken)
    (hcallbacks : ∀ m t cb, (s'.rendezvous.managers m).callbacks.lookup t = some cb ↔
      cb.token = t ∧ ∃ c ∈ q' cb.key, c.2.manager? = some m ∧ c.2.token? = some t)
    (hchildless : ∀ m, (s'.rendezvous.managers m).firstChild = none) : Good s' q' where
  stored := hstored
  ok := hok
  uniform key := (h.uniform key).imp (fun hall c hc => hall c (hsub key c hc))
    fun hall c hc => hall c (hsub key c hc)
  waiters key c hc w t hstate := by
    have hw := h.waiters key c (hsub key c hc) w t hstate
    exact ⟨lt_of_lt_of_le hw.1 hreceived, hw.2⟩
  managers key c hc m t hm ht := by
    have hold := h.managers key c (hsub key c hc) m t hm ht
    rw [(hmanagers key c hc m hm).1, (hmanagers key c hc m hm).2]
    exact hold
  callbacks := hcallbacks
  tokens key key' c c' m hc hc' := h.tokens key key' c c' m (hsub key c hc) (hsub key' c' hc')
  dones key key' c c' hc hc' := h.dones key key' c c' (hsub key c hc) (hsub key' c' hc')
  childless := hchildless

variable {key : Key}

theorem push (h : Good s q) {a : Nat} {e : Entry Tensor}
    (hstored : s'.rendezvous.Stored (update q key (q key ++ [(a, e)])))
    (hok : s'.rendezvous.status = .ok) (hkind : ∀ c ∈ q key, c.2.isRecv = e.isRecv)
    (hreceived : s.received ≤ s'.received)
    (hwaiter : ∀ w t, e.state = .recv w t → s.received ≤ w.done ∧ w.done < s'.received ∧
      w.deregisters = e.args.cancellationManager.map fun m => (m, t))
    (hmanagers : ∀ m, (s'.rendezvous.managers m).begun = (s.rendezvous.managers m).begun ∧
      (s.rendezvous.managers m).nextCancellationToken ≤
        (s'.rendezvous.managers m).nextCancellationToken ∧
      (s'.rendezvous.managers m).firstChild = (s.rendezvous.managers m).firstChild)
    (hnew : ∀ m t, e.manager? = some m → e.token? = some t →
      (s'.rendezvous.managers m).begun = false ∧
      (s.rendezvous.managers m).nextCancellationToken ≤ t ∧
      t < (s'.rendezvous.managers m).nextCancellationToken)
    (hcallbacks : ∀ m t cb, (s'.rendezvous.managers m).callbacks.lookup t = some cb ↔
      (s.rendezvous.managers m).callbacks.lookup t = some cb ∨
        cb = ⟨t, key⟩ ∧ e.manager? = some m ∧ e.token? = some t) :
    Good s' (update q key (q key ++ [(a, e)])) := by
  have hmem : ∀ k c, c ∈ update q key (q key ++ [(a, e)]) k ↔
      c ∈ q k ∨ k = key ∧ c = (a, e) := by
    intro k c
    by_cases hk : k = key
    · subst hk
      simp
    · simp [hk]
  constructor
  · exact hstored
  · exact hok
  · intro k
    by_cases hk : k = key
    · subst hk
      have hall : ∀ c ∈ update q k (q k ++ [(a, e)]) k, c.2.isRecv = e.isRecv := by
        intro c hc
        obtain hc | ⟨-, rfl⟩ := (hmem k c).1 hc
        · exact hkind c hc
        · rfl
      cases hb : e.isRecv with
      | true => exact .inl (hb ▸ hall)
      | false => exact .inr (hb ▸ hall)
    · rw [update_of_ne hk]
      exact h.uniform k
  · intro k c hc w t hstate
    obtain hc | ⟨-, rfl⟩ := (hmem k c).1 hc
    · have hold := h.waiters k c hc w t hstate
      exact ⟨lt_of_lt_of_le hold.1 hreceived, hold.2⟩
    · exact (hwaiter w t hstate).2
  · intro k c hc m t hm ht
    obtain hc | ⟨-, rfl⟩ := (hmem k c).1 hc
    · have hold := h.managers k c hc m t hm ht
      rw [(hmanagers m).1]
      exact ⟨hold.1, Int.lt_of_lt_of_le hold.2 (hmanagers m).2.1⟩
    · exact ⟨(hnew m t hm ht).1, (hnew m t hm ht).2.2⟩
  · intro m t cb
    rw [hcallbacks, h.callbacks]
    constructor
    · rintro (⟨htoken, c, hc, hrest⟩ | ⟨rfl, hrest⟩)
      · exact ⟨htoken, c, (hmem _ c).2 (.inl hc), hrest⟩
      · exact ⟨rfl, (a, e), (hmem _ _).2 (.inr ⟨rfl, rfl⟩), hrest⟩
    · rintro ⟨rfl, c, hc, hrest⟩
      obtain hc | ⟨rfl, rfl⟩ := (hmem _ c).1 hc
      · exact .inl ⟨rfl, c, hc, hrest⟩
      · exact .inr ⟨rfl, hrest⟩
  · -- A new token is larger than all that were handed out before.
    have hfresh : ∀ k c m, c ∈ q k → c.2.manager? = some m → e.manager? = some m →
        c.2.token? ≠ e.token? := by
      intro k c m hc hm he heq
      obtain ⟨w, t, -, ht, -⟩ := Entry.token?_of_manager? hm
      have hold := (h.managers k c hc m t hm ht).2
      have hnext := (hnew m t he (heq ▸ ht)).2.1
      exact Int.lt_irrefl _ (Int.lt_of_lt_of_le hold hnext)
    intro k k' c c' m hc hc' hm hm' heq
    obtain hc | ⟨-, rfl⟩ := (hmem k c).1 hc
    · obtain hc' | ⟨-, rfl⟩ := (hmem k' c').1 hc'
      · exact h.tokens k k' c c' m hc hc' hm hm' heq
      · exact absurd heq (hfresh k c m hc hm hm')
    · obtain hc' | ⟨-, rfl⟩ := (hmem k' c').1 hc'
      · exact absurd heq.symm (hfresh k' c' m hc' hm' hm)
      · rfl
  · have hlate : ∀ k c w t w' t', c ∈ q k → c.2.state = .recv w t → e.state = .recv w' t' →
        w.done ≠ w'.done := by
      intro k c w t w' t' hc hstate hstate'
      exact ((h.waiters k c hc w t hstate).1.trans_le (hwaiter w' t' hstate').1).ne
    intro k k' c c' hc hc' w t w' t' hstate hstate' heq
    obtain hc | ⟨-, rfl⟩ := (hmem k c).1 hc
    · obtain hc' | ⟨-, rfl⟩ := (hmem k' c').1 hc'
      · exact h.dones k k' c c' hc hc' w t w' t' hstate hstate' heq
      · exact absurd heq (hlate k c w t w' t' hc hstate hstate')
    · obtain hc' | ⟨-, rfl⟩ := (hmem k' c').1 hc'
      · exact absurd heq.symm (hlate k' c' w' t' w t hc' hstate' hstate)
      · rfl
  · exact fun m => (hmanagers m).2.2.trans (h.childless m)

theorem kind_of_head (h : Good s q) {b : Bool}
    (hhead : ∀ c ∈ (q key).head?, c.2.isRecv = b) : ∀ c ∈ q key, c.2.isRecv = b := by
  cases hq : q key with
  | nil => simp
  | cons d =>
    have hd : d.2.isRecv = b := hhead d (by simp [hq])
    have hkind := h.uniform key
    rw [hq] at hkind
    cases hkind with
    | inl hall | inr hall =>
      exact fun c hc => (hall c hc).trans ((hall d mem_cons_self).symm.trans hd)

variable {l : List (Cell Tensor)}

theorem subset_tail (hq : q key = c :: l)
    (k : Key) (d : Cell Tensor) (hd : d ∈ update q key l k) : d ∈ q k := by
  by_cases hk : k = key
  · subst hk
    rw [update_self] at hd
    exact hq ▸ mem_cons_of_mem _ hd
  · rwa [update_of_ne hk] at hd

theorem ne_of_tail (h : Good s q) (hq : q key = c :: l) (k : Key)
    (d : Cell Tensor) (hd : d ∈ update q key l k) : d.1 ≠ c.1 := by
  intro heq
  by_cases hk : k = key
  · have hnodup := (h.stored.queueOk key).1.nodup
    rw [hq, map_cons, nodup_cons] at hnodup
    rw [hk, update_self] at hd
    exact hnodup.1 (heq ▸ mem_map_of_mem hd)
  · rw [update_of_ne hk] at hd
    exact hk (h.stored.apart k key d c hd (hq ▸ mem_cons_self) heq)

/-- Taking the head off the queue of `key` does not touch the callbacks of other receives. -/
theorem callbacks_tail (h : Good s q)
    (hq : q key = c :: l) (m : Nat) (t : Token) (cb : CancelCallback Key) :
    (cb.token = t ∧ ∃ d ∈ update q key l cb.key, d.2.manager? = some m ∧
        d.2.token? = some t) ↔
      (s.rendezvous.managers m).callbacks.lookup t = some cb ∧
        ¬(c.2.manager? = some m ∧ c.2.token? = some t) := by
  rw [h.callbacks]
  constructor
  · intro hd
    obtain ⟨htoken, d, hd, hm, ht⟩ := hd
    refine ⟨⟨htoken, d, subset_tail hq _ d hd, hm, ht⟩, fun hcm => h.ne_of_tail hq _ d hd ?_⟩
    rw [h.tokens _ _ d c m (subset_tail hq _ d hd) (hq ▸ mem_cons_self) hm hcm.1
      (ht.trans hcm.2.symm)]
  · intro hd
    obtain ⟨⟨htoken, d, hd, hm, ht⟩, hcm⟩ := hd
    refine ⟨htoken, d, ?_, hm, ht⟩
    by_cases hk : cb.key = key
    · rw [hk, hq] at hd
      rw [hk, update_self]
      exact (mem_cons.1 hd).resolve_left fun heq => hcm (heq ▸ ⟨hm, ht⟩)
    · rwa [update_of_ne hk]

theorem taken (h : Good s q) (hq : q key = c :: l) {r' : Rendezvous Key Tensor}
    (hconsumed : Rendezvous.Consumed s.rendezvous r' q key l) :
    (r'.heap c.1).map Item.toEntry = some c.2 ∧
      ∀ k, ∀ d ∈ update q key l k, d.1 ≠ c.1 := by
  refine ⟨?_, h.ne_of_tail hq⟩
  rw [hconsumed.2.heap c.1 id]
  exact (h.stored.queueOk key).1.entries c (hq ▸ mem_cons_self)

omit [DecidableEq Key] in
/-- The head of a queue decides what a call does. -/
theorem head_cases (q : Key → List (Cell Tensor)) (key : Key) (b : Bool) :
    (∀ c ∈ (q key).head?, c.2.isRecv = b) ∨ ∃ c l, q key = c :: l ∧ c.2.isRecv = !b := by
  cases hq : q key with
  | nil => exact .inl (by simp)
  | cons c l =>
    by_cases hc : c.2.isRecv = b
    · exact .inl (by simpa using hc)
    · exact .inr ⟨c, l, rfl, Bool.eq_not.2 hc⟩

end Good

omit [DecidableEq Key] in
theorem managers_deregister_some {r : Rendezvous Key Tensor} {done : Nat} {t : Token}
    (h : (r.managers m).begun = false) : (r.deregister ⟨done, some (m, t)⟩).managers =
      update r.managers m ((r.managers m).eraseCallback t) := by
  simp [deregister, Manager.tryDeregisterCallback, h]

namespace Good

theorem send (h : Good s q) (key : Key) (sendArgs : Args) (val : Tensor) (isDead : Bool) :
    ∃ s' q', s.send key sendArgs val isDead = .ok s' ∧ Good s' q' := by
  obtain hhead | ⟨c, l, hq, hrecv⟩ := head_cases q key false
  · obtain ⟨r', hsend, hstored, hkeeps⟩ :=
      send_push sendArgs val isDead h.stored h.ok hhead
    refine ⟨s.setRendezvous r', _, ?_, h.push hstored (hkeeps.status.trans h.ok)
      (h.kind_of_head hhead) le_rfl (by simp) (fun m => ?_) (by simp [Entry.manager?])
      fun m t cb => ?_⟩
    · rw [Session.send, hsend]
      rfl
    · simp only [setRendezvous, hkeeps.managers]
      exact ⟨trivial, Int.le_refl _, trivial⟩
    · simp [setRendezvous, hkeeps.managers, Entry.manager?]
  · obtain ⟨r', hsend, hconsumed⟩ := send_pop sendArgs val isDead h.stored h.ok hq hrecv
    obtain ⟨hlive, hout⟩ := h.taken hq hconsumed
    obtain ⟨w, t, hstate⟩ := Entry.isRecv_iff.1 hrecv
    have hc : c ∈ q key := hq ▸ mem_cons_self
    have hstored : (s.setRendezvous r').rendezvous.Stored (update q key l) := hconsumed.1
    obtain ⟨s', hrelease, hstored', hstatus, hmanagers, hreceived, -⟩ :=
      release_spec hstored hlive hout hstate .ok sendArgs val isDead
    have hw := (h.waiters key c hc w t hstate).2
    have htoken : c.2.token? = some t := by simp [Entry.token?, hstate]
    have hmanager : c.2.manager? = c.2.args.cancellationManager := by simp [Entry.manager?, hstate]
    have hsend' : s.send key sendArgs val isDead = .ok s' := by
      rw [Session.send, hsend]
      exact hrelease
    refine ⟨s', update q key l, hsend', ?_⟩
    have hr' : (s.setRendezvous r').rendezvous = r' := rfl
    rw [hr'] at hmanagers
    obtain ⟨done, deregisters⟩ := w
    cases hcm : c.2.args.cancellationManager with
    | none =>
      rw [hcm] at hw hmanager
      cases hw
      have hsame : s'.rendezvous.managers = s.rendezvous.managers := hmanagers.trans hconsumed.2.managers
      refine h.shrink hstored' (hstatus.trans (hconsumed.2.status.trans h.ok)) (subset_tail hq)
        hreceived.ge (fun _ _ _ _ _ => by rw [hsame]; exact ⟨rfl, rfl⟩) (fun m t cb => ?_)
        (hsame ▸ h.childless)
      rw [h.callbacks_tail hq, hsame, hmanager]
      simp
    | some m =>
      rw [hcm] at hw hmanager
      cases hw
      have hopen := (h.managers key c hc m t hmanager htoken).1
      have hopen' : (r'.managers m).begun = false := by rw [hconsumed.2.managers]; exact hopen
      rw [managers_deregister_some hopen', hconsumed.2.managers] at hmanagers
      have hfields : ∀ m', (s'.rendezvous.managers m').begun = (s.rendezvous.managers m').begun ∧
          (s'.rendezvous.managers m').nextCancellationToken =
            (s.rendezvous.managers m').nextCancellationToken ∧
          (s'.rendezvous.managers m').firstChild = (s.rendezvous.managers m').firstChild := by
        intro m'
        rw [hmanagers]
        by_cases hm' : m' = m
        · rw [hm', update_self]
          refine ⟨rfl, rfl, ?_⟩
          cases hstate : (s.rendezvous.managers m).state <;>
            simp [Manager.firstChild, Manager.eraseCallback, hstate]
        · rw [update_of_ne hm']
          exact ⟨rfl, rfl, rfl⟩
      refine h.shrink hstored' (hstatus.trans (hconsumed.2.status.trans h.ok)) (subset_tail hq)
        hreceived.ge (fun _ _ _ m' _ => ⟨(hfields m').1, (hfields m').2.1⟩) (fun m' t' cb => ?_)
        fun m' => (hfields m').2.2.trans (h.childless m')
      rw [h.callbacks_tail hq, hmanagers, hmanager, htoken]
      by_cases hm' : m' = m
      · subst hm'
        rw [update_self, Manager.lookup_eraseCallback]
        by_cases ht' : t' = t
        · simp [ht']
        · simp [ht', Ne.symm ht']
      · rw [update_of_ne hm']
        simp [Ne.symm hm']

variable [Inhabited Tensor]

variable {recvArgs : Args} {key : Key}

theorem recvAsync_pop (h : Good s q)
    {l : List (Cell Tensor)} (hq : q key = c :: l) (hsend : c.2.isRecv = false) :
    ∃ s' q', s.recvAsync key recvArgs = .ok s' ∧ Good s' q' := by
  obtain ⟨r', hrecv, hconsumed⟩ :=
    Rendezvous.recvAsync_pop recvArgs s.received h.stored h.ok hq hsend
  obtain ⟨hlive, hout⟩ := h.taken hq hconsumed
  obtain ⟨item, hitem, hentry⟩ := Option.map_eq_some_iff.1 hlive
  obtain ⟨hdelete, hstored⟩ := Rendezvous.delete_spec hconsumed.1 hitem hout
  have hread : r'.deref (some c.1) = .ok item := by rw [Rendezvous.deref, hitem]
  cases hstate : c.2.state with
  | recv => simp [Entry.isRecv, hstate] at hsend
  | send v d =>
    have hitemstate : item.state = .send v d := by rw [← hstate, ← hentry]
    have hmanager : c.2.manager? = none := by simp [Entry.manager?, hstate]
    refine ⟨{ s with
      rendezvous := { r' with heap := update r'.heap c.1 none }
      received := s.received + 1
      invocations := s.invocations ++ [⟨s.received, .ok, item.args, recvArgs, v, d⟩] },
      update q key l, ?_, ?_⟩
    · rw [Session.recvAsync, hrecv]
      simp only [bind, Except.bind, hread, hitemstate, done, hdelete, setRendezvous]
    · have hsame : r'.managers = s.rendezvous.managers := hconsumed.2.managers
      refine h.shrink hstored (hconsumed.2.status.trans h.ok) (subset_tail hq) (Nat.le_succ _)
        (fun _ _ _ m _ => ?_) (fun m t cb => ?_) (hsame ▸ h.childless)
      · simp only [hsame]
        exact ⟨trivial, trivial⟩
      · rw [h.callbacks_tail hq, hmanager]
        simp [hsame]

theorem recvAsync_unmanaged (h : Good s q)
    (hhead : ∀ c ∈ (q key).head?, c.2.isRecv = true) (hcm : recvArgs.cancellationManager = none) :
    ∃ s' q', s.recvAsync key recvArgs = .ok s' ∧ Good s' q' := by
  obtain ⟨r', hrecv, hstored, hkeeps⟩ :=
    recvAsync_push recvArgs s.received h.stored h.ok hhead hcm
  refine ⟨{ s with rendezvous := r', received := s.received + 1 }, _, ?_, h.push hstored
    (hkeeps.status.trans h.ok) (h.kind_of_head hhead) (Nat.le_succ _) ?_ (fun m => ?_)
    (by simp [Entry.manager?, hcm]) fun m t cb => ?_⟩
  · rw [Session.recvAsync, hrecv]
    rfl
  · intro w t hstate
    cases hstate
    simp [hcm]
  · simp only [hkeeps.managers]
    exact ⟨trivial, Int.le_refl _, trivial⟩
  · simp [hkeeps.managers, Entry.manager?, hcm]

theorem recvAsync_cancelled (h : Good s q)
    (hhead : ∀ c ∈ (q key).head?, c.2.isRecv = true) (hcm : recvArgs.cancellationManager = some m)
    (hbegun : (s.rendezvous.managers m).begun = true) :
    ∃ s' q', s.recvAsync key recvArgs = .ok s' ∧ Good s' q' := by
  let managers := Pool.modify s.rendezvous.managers m fun n => n.getCancellationToken.2
  have hawait := recvAsync_await recvArgs s.received h.stored h.ok hhead
  have hcancelled : (s.rendezvous.touch key).await key recvArgs s.received = _ :=
    await_cancelled recvArgs s.received hcm hbegun
  refine ⟨{ s with
    rendezvous := { s.rendezvous.touch key with managers := managers }
    received := s.received + 1
    invocations := s.invocations ++ [⟨s.received, recvCancelled, {}, recvArgs, default, false⟩] },
    q, ?_, h.shrink ((h.stored.touch key).congr rfl rfl rfl) h.ok (fun _ _ hc => hc) (Nat.le_succ _)
      (fun k c hc m' hm' => ?_) (fun m' t cb => ?_) fun m' => ?_⟩
  · rw [Session.recvAsync, hawait, hcancelled]
    rfl
  · have hne : m' ≠ m := by
      intro heq
      obtain ⟨w, t, -, ht, -⟩ := Entry.token?_of_manager? hm'
      rw [heq] at hm'
      rw [(h.managers k c hc m t hm' ht).1] at hbegun
      cases hbegun
    simp only [managers, Pool.modify_of_ne _ _ hne]
    exact ⟨trivial, trivial⟩
  · have hsame : (managers m').callbacks = _ := Pool.modify_field Manager.callbacks _ rfl m'
    rw [← h.callbacks, ← hsame]
  · exact (Pool.modify_field Manager.firstChild _ rfl m').trans (h.childless m')

theorem recvAsync_registered (h : Good s q)
    (hhead : ∀ c ∈ (q key).head?, c.2.isRecv = true) (hcm : recvArgs.cancellationManager = some m)
    (hopen : (s.rendezvous.managers m).begun = false) :
    ∃ s' q', s.recvAsync key recvArgs = .ok s' ∧ Good s' q' := by
  let t := (s.rendezvous.managers m).nextCancellationToken
  have hawait := recvAsync_await recvArgs s.received h.stored h.ok hhead
  obtain ⟨r', hregistered, hstatus, hstored, hmanagers⟩ :=
    await_registered recvArgs s.received (h.stored.touch key) hcm hopen
  let manager := (s.rendezvous.managers m).getCancellationToken.2.insertCallback t ⟨t, key⟩
  have hmanagers' : r'.managers = update s.rendezvous.managers m manager := hmanagers
  have hself : r'.managers m = manager := by rw [hmanagers', update_self]
  have hother : ∀ m' ≠ m, r'.managers m' = s.rendezvous.managers m' := fun m' hm' => by
    rw [hmanagers', update_of_ne hm']
  refine ⟨{ s with rendezvous := r', received := s.received + 1 }, _, ?_, h.push hstored
    (hstatus.trans h.ok) (h.kind_of_head hhead) (Nat.le_succ _) ?_ (fun m' => ?_) ?_
    fun m' t' cb => ?_⟩
  · rw [Session.recvAsync, hawait, hregistered]
    rfl
  · intro w t' hstate
    cases hstate
    simp [hcm]
  · by_cases hm' : m' = m
    · subst hm'
      simp only [hself]
      refine ⟨rfl, Int.le_of_lt (Int.lt_succ _), ?_⟩
      cases hst : (s.rendezvous.managers m').state <;>
        simp [manager, Manager.firstChild, Manager.insertCallback, Manager.getCancellationToken, hst]
    · simp only [hother m' hm']
      exact ⟨trivial, Int.le_refl _, trivial⟩
  · intro m' t' hm ht
    have hmm : m = m' := Option.some.inj (hcm.symm.trans hm)
    have htt : t = t' := Option.some.inj ht
    subst hmm htt
    simp only [hself]
    exact ⟨hopen, Int.le_refl _, Int.lt_succ _⟩
  · show (r'.managers m').callbacks.lookup t' = some cb ↔
      (s.rendezvous.managers m').callbacks.lookup t' = some cb ∨
        cb = ⟨t', key⟩ ∧ recvArgs.cancellationManager = some m' ∧ some t = some t'
    rw [hcm]
    by_cases hm' : m' = m
    · subst hm'
      rw [hself, Manager.lookup_insertCallback]
      by_cases ht' : t' = t
      · -- The token is new, so nothing was registered under it.
        have hnone : (s.rendezvous.managers m').callbacks.lookup t ≠ some cb := by
          intro hsome
          obtain ⟨-, c, hc, hm, hct⟩ := (h.callbacks m' t cb).1 hsome
          exact Int.lt_irrefl _ (h.managers _ c hc m' t hm hct).2
        rw [ht']
        simp only [if_true, Option.some.injEq]
        constructor
        · exact fun heq => .inr (by simp [heq])
        · exact fun hor => (hor.resolve_left hnone).1.symm
      · rw [if_neg ht']
        constructor
        · exact .inl
        · exact fun hor => hor.resolve_right fun hnew => ht' (Option.some.inj hnew.2.2).symm
    · rw [hother m' hm']
      simp [Ne.symm hm']

theorem recvAsync (h : Good s q) (key : Key) (recvArgs : Args) :
    ∃ s' q', s.recvAsync key recvArgs = .ok s' ∧ Good s' q' := by
  obtain hhead | ⟨c, l, hq, hsend⟩ := head_cases q key true
  · cases hcm : recvArgs.cancellationManager with
    | none => exact h.recvAsync_unmanaged hhead hcm
    | some m =>
      cases hbegun : (s.rendezvous.managers m).begun with
      | true => exact h.recvAsync_cancelled hhead hcm hbegun
      | false => exact h.recvAsync_registered hhead hcm hbegun
  · exact h.recvAsync_pop hq hsend

end Good
end Session

end TfReading.LocalRendezvous
