import TfReading.LocalRendezvous.Registered

/-!
# Cancelling a manager

A cancellation that tells the receives apart calls exactly the waiting receives of its
manager, and any other calls a receive of another manager instead.
-/

namespace TfReading.LocalRendezvous

open List

open Cancellation (Token Pool Manager kInvalidToken)

variable {Key Tensor : Type} [DecidableEq Key] {key : Key}

theorem Rendezvous.Stored.listed_eq {r : Rendezvous Key Tensor} {q : Key → List (Cell Tensor)}
    {l : List (Cell Tensor)} (h : r.Stored q)
    (hl : Listed r.heap (r.queue key).head l) : l = q key :=
  hl.unique (h.queueOk key).1

namespace Session

/-- No receive of another manager stands in front of a receive of `m` with the same token. -/
def Distinguished (s : Session Key Tensor) (m : Nat) : Prop :=
  ∀ key l, Listed s.rendezvous.heap (s.rendezvous.queue key).head l → l.Pairwise (Tells m)

/-- The step from `s` to `s'` called exactly the waiting receives of `m`, each once and as
cancelled, and left all others in their queues and in order. -/
structure Targeted [Inhabited Tensor] (s s' : Session Key Tensor) (m : Nat) : Prop where
  called : ∃ new, s'.invocations = s.invocations ++ new ∧ new.Nodup ∧ ∀ inv, inv ∈ new ↔
    ∃ key l, Listed s.rendezvous.heap (s.rendezvous.queue key).head l ∧
      ∃ c ∈ l, c.2.manager? = some m ∧ c.2.cancellation = some inv
  kept : ∀ key l, Listed s.rendezvous.heap (s.rendezvous.queue key).head l →
    Listed s'.rendezvous.heap (s'.rendezvous.queue key).head
      (l.filter fun c => c.2.manager? != some m)

variable {s s' : Session Key Tensor} {q : Key → List (Cell Tensor)} {m : Nat}
  {order : Registrations Key → Registrations Key}

theorem distinguished_iff (h : s.rendezvous.Stored q) :
    s.Distinguished m ↔ ∀ key, (q key).Pairwise (Tells m) := by
  constructor
  · exact fun hd key => hd key (q key) (h.queueOk key).1
  · exact fun htells key l hl => h.listed_eq hl ▸ htells key

end Session

/-! ## The sections of a manager without children -/

section Childless

variable {κ : Type} {pool : Pool κ} {m : Nat}

theorem startCancel_childless (hbegun : (pool m).begun = false) (hchild : (pool m).firstChild = none) :
    ∃ notification pool', Pool.startCancel 0 pool m =
        .ok (some (.visiting m (pool m).callbacks.entries [] notification), pool') ∧
      (∀ m' ≠ m, pool' m' = pool m') ∧ (pool' m).begun = true ∧ (pool' m).callbacks = ∅ ∧
      (pool' m).firstChild = none := by
  have hnil : pool.Siblings m [] := by
    rw [Pool.Siblings, hchild]
    rfl
  refine ⟨_, _, Pool.startCancel_eq hbegun hnil le_rfl, fun m' hm' => ?_, ?_⟩
  · simp [Pool.detached, hm']
  · cases hstate : (pool m).state <;>
      simp [Pool.detached, Manager.begun, Manager.callbacks, Manager.firstChild, hstate]

theorem publish_notify (m : Manager κ) :
    m.publish.notify.callbacks = m.callbacks ∧ m.publish.notify.firstChild = m.firstChild := by
  cases h : m.state <;>
    simp [Manager.callbacks, Manager.firstChild, Manager.notify, Manager.publish, h]

end Childless

namespace Session

variable {s s' : Session Key Tensor} {q q' : Key → List (Cell Tensor)} {m : Nat}
  {order : Registrations Key → Registrations Key}

namespace Good

theorem listing (h : Good s q) {todo : Registrations Key}
    (hperm : todo.Perm (s.rendezvous.managers m).callbacks.entries) : Listing m q todo := by
  have hlookup : ∀ x, x ∈ todo ↔
      (s.rendezvous.managers m).callbacks.lookup x.1 = some x.2 := fun x =>
    hperm.mem_iff.trans AList.mem_lookup_iff.symm
  have hfound : ∀ x ∈ todo, x.2.token = x.1 ∧
      ∃ c ∈ q x.2.key, c.2.manager? = some m ∧ c.2.token? = some x.1 := fun x hx =>
    (h.callbacks m x.1 x.2).1 ((hlookup x).1 hx)
  constructor
  · exact (hperm.map Sigma.fst).nodup_iff.2 (s.rendezvous.managers m).callbacks.nodupKeys
  · exact fun x hx => (hfound x hx).1
  · exact fun x hx => (hfound x hx).2
  · intro key c hc hm
    obtain ⟨w, t, hstate, ht, -⟩ := Entry.token?_of_manager? hm
    have hcb := (h.callbacks m t ⟨t, key⟩).2 ⟨rfl, c, hc, hm, ht⟩
    exact ⟨⟨t, ⟨t, key⟩⟩, (hlookup _).2 hcb, rfl, ht⟩
  · exact fun key key' c c' hc hc' hm hm' => h.tokens key key' c c' m hc hc' hm hm'
  · exact fun key => (h.stored.queueOk key).1.nodup

theorem refused (h : Good s q) {managers : Pool (CancelCallback Key)}
    (hbegun : (managers m).begun = true) (key : Key) (c : Cell Tensor) (hc : c ∈ q key)
    (hm : c.2.manager? = some m) : c.2.Refused managers := by
  intro w t hstate x hx
  obtain ⟨w', t', hstate', -, hcm⟩ := Entry.token?_of_manager? hm
  have hw := (h.waiters key c hc w t hstate).2
  rw [hcm] at hw
  rw [hw] at hx
  cases hx
  exact hbegun

variable [Inhabited Tensor]

theorem cancellation_inj (h : Good s q) {key' : Key} {c c' : Cell Tensor}
    (hc : c ∈ q key) (hc' : c' ∈ q key') (hm : c.2.manager? = some m)
    (heq : c.2.cancellation = c'.2.cancellation) : c = c' := by
  obtain ⟨w, t, hstate, -, -⟩ := Entry.token?_of_manager? hm
  cases hstate' : c'.2.state with
  | send => simp [Entry.cancellation, hstate, hstate'] at heq
  | recv w' t' =>
    simp only [Entry.cancellation, hstate, hstate', Option.some.injEq, Invocation.mk.injEq] at heq
    exact h.dones key key' c c' hc hc' w t w' t' hstate hstate' heq.1

theorem startCancel_begun (h : Good s q) (order : Registrations Key → Registrations Key)
    (hbegun : (s.rendezvous.managers m).begun = true) :
    s.startCancel m order = .ok s ∧ s.Targeted s m ∧ s.Distinguished m := by
  have hnone : ∀ key, ∀ c ∈ q key, c.2.manager? ≠ some m := by
    intro key c hc hm
    obtain ⟨w, t, -, ht, -⟩ := Entry.token?_of_manager? hm
    rw [(h.managers key c hc m t hm ht).1] at hbegun
    cases hbegun
  refine ⟨?_, ⟨⟨[], (append_nil _).symm, nodup_nil, fun inv => ?_⟩, fun key l hl => ?_⟩, ?_⟩
  · rw [startCancel, Pool.startCancel, hbegun]
    rfl
  · simp only [not_mem_nil, false_iff]
    rintro ⟨key, l, hl, c, hc, hm, _⟩
    exact hnone key c (h.stored.listed_eq hl ▸ hc) hm
  · have hall : ∀ c ∈ l, (c.2.manager? != some m) = true := fun c hc =>
      bne_iff_ne.2 (hnone key c (h.stored.listed_eq hl ▸ hc))
    rwa [filter_eq_self.2 hall]
  · refine (distinguished_iff h.stored).2 fun key => ?_
    refine pairwise_of_forall_mem_list fun d _ c hc hm => ?_
    exact absurd hm (hnone key c hc)

/-- What a cancellation does, whether or not it tells the receives apart. -/
theorem startCancel_spec (h : Good s q) (hbegun : (s.rendezvous.managers m).begun = false)
    (horder : ∀ l, (order l).Perm l) :
    ∃ s' todo, s.startCancel m order = .ok s' ∧ Listing m q todo ∧
      s'.rendezvous.Stored (sweep q todo) ∧ s'.rendezvous.status = .ok ∧ s'.received = s.received ∧
      s'.invocations = s.invocations ++ swept q todo ∧
      ((∀ key, (q key).Pairwise (Tells m)) →
        (∀ m' ≠ m, s'.rendezvous.managers m' = s.rendezvous.managers m') ∧
        (s'.rendezvous.managers m).callbacks = ∅ ∧
        (s'.rendezvous.managers m).firstChild = none) := by
  obtain ⟨notification, pool, hstart, hother, hmbegun, hcallbacks, hchild⟩ :=
    startCancel_childless hbegun (h.childless m)
  have hlisting := h.listing (horder (s.rendezvous.managers m).callbacks.entries)
  have hstored : (s.setManagers pool).rendezvous.Stored q := h.stored.congr rfl rfl rfl
  obtain ⟨s1, hrun, hstored1, hstatus, hreceived, hinvocations, hmanagers⟩ :=
    runCallbacks_spec (order (s.rendezvous.managers m).callbacks.entries) hstored h.uniform
  refine ⟨s1.setManagers (.modify s1.rendezvous.managers m fun m => m.publish.notify), _, ?_,
    hlisting, hstored1.congr rfl rfl rfl, hstatus.trans h.ok, hreceived, hinvocations,
    fun htells => ?_⟩
  · rw [startCancel, hstart]
    simp only [hrun, bind, Except.bind]
  · have hsame : s1.rendezvous.managers = pool :=
      hmanagers (hlisting.allFound htells (h.refused hmbegun))
    obtain ⟨hc, hf⟩ := publish_notify (pool m)
    simp only [setManagers, setRendezvous, hsame, Pool.modify_self]
    exact ⟨fun m' hm' => (Pool.modify_of_ne _ _ hm').trans (hother m' hm'), hc.trans hcallbacks,
      hf.trans hchild⟩

/-- A cancellation is targeted exactly if it tells the receives apart. -/
theorem startCancel (h : Good s q) (horder : ∀ l, (order l).Perm l) :
    ∃ s', s.startCancel m order = .ok s' ∧ (s.Targeted s' m ↔ s.Distinguished m) ∧
      (s.Distinguished m → ∃ q', Good s' q') := by
  cases hbegun : (s.rendezvous.managers m).begun with
  | true =>
    obtain ⟨hstart, htargeted, hdistinguished⟩ := h.startCancel_begun order hbegun
    exact ⟨s, hstart, iff_of_true htargeted hdistinguished, fun _ => ⟨q, h⟩⟩
  | false =>
    obtain ⟨s', todo, hstart, hlisting, hstored, hok, hreceived, hinvocations, hmanagers⟩ :=
      h.startCancel_spec hbegun horder
    rw [distinguished_iff h.stored]
    refine ⟨s', hstart, ⟨fun htargeted key => ?_, fun htells => ?_⟩, fun htells => ?_⟩
    · -- Of two receives that are mistaken for each other the wrong one was taken.
      refine pairwise_iff_forall_sublist.2 fun {d c} hdc hm htoken => ?_
      refine by_contra fun hd => ?_
      obtain ⟨w, t, -, ht, -⟩ := Entry.token?_of_manager? hm
      have htokens : (todo.map fun x => x.2.token).Nodup := by
        rw [map_congr_left hlisting.tokens]
        exact hlisting.nodup
      have hstays := mem_sweep_of_mistaken hdc (htoken.trans ht) ht htokens
      have hkept := htargeted.kept key (q key) (h.stored.queueOk key).1
      rw [(hstored.queueOk key).1.unique hkept] at hstays
      have hgone := (mem_filter.1 hstays).2
      simp [hm] at hgone
    · refine ⟨⟨swept q todo, hinvocations, hlisting.nodup_swept htells fun key key' c c' hc hc' hm =>
        h.cancellation_inj hc hc' hm, fun inv => ?_⟩, fun key l hl => ?_⟩
      · rw [hlisting.mem_swept htells]
        constructor
        · intro ⟨key, c, hc, hinv⟩
          exact ⟨key, q key, (h.stored.queueOk key).1, c, hc, hinv⟩
        · intro ⟨key, l, hl, c, hc, hinv⟩
          exact ⟨key, c, h.stored.listed_eq hl ▸ hc, hinv⟩
      · rw [h.stored.listed_eq hl, ← hlisting.sweep_eq htells]
        exact (hstored.queueOk key).1
    · obtain ⟨hother, hcallbacks, hchild⟩ := hmanagers htells
      have hsweep := hlisting.sweep_eq htells
      have hmem : ∀ key, ∀ c, c ∈ sweep q todo key ↔ c ∈ q key ∧ c.2.manager? ≠ some m := by
        intro key c
        rw [hsweep, mem_filter, bne_iff_ne]
      refine ⟨_, h.shrink hstored hok (fun key c hc => ((hmem key c).1 hc).1) hreceived.ge
        (fun key c hc m' hm' => ?_) (fun m' t cb => ?_) fun m' => ?_⟩
      · have hne : m' ≠ m := fun heq => ((hmem key c).1 hc).2 (heq ▸ hm')
        rw [hother m' hne]
        exact ⟨rfl, rfl⟩
      · by_cases hm' : m' = m
        · subst hm'
          rw [hcallbacks]
          constructor
          · nofun
          · intro ⟨_, c, hc, hcm, _⟩
            exact absurd hcm ((hmem _ c).1 hc).2
        · rw [hother m' hm', h.callbacks]
          refine and_congr_right fun _ => exists_congr fun c => ?_
          rw [hmem]
          constructor
          · intro hc
            refine ⟨⟨hc.1, fun heq => hm' ?_⟩, hc.2⟩
            rw [hc.2.1] at heq
            exact Option.some.inj heq
          · exact fun hc => ⟨hc.1.1, hc.2⟩
      · by_cases hm' : m' = m
        · rw [hm']
          exact hchild
        · rw [hother m' hm']
          exact h.childless m'

end Good
end Session

/-- The calls of any number of users one after another. -/
def sessions (Key Tensor : Type) [DecidableEq Key] [Inhabited Tensor] :
    System (Session Key Tensor) (Operation Key Tensor) where
  init s := s = {}
  step s a s' := (∀ m order, a = .startCancel m order → ∀ l, (order l).Perm l) ∧ s.next a = .ok s'

/-- The runs in which every cancellation tells the receives apart. -/
def distinguishedSessions (Key Tensor : Type) [DecidableEq Key] [Inhabited Tensor] :
    System (Session Key Tensor) (Operation Key Tensor) where
  init s := s = {}
  step s a s' := (∀ m order, a = .startCancel m order → s.Distinguished m) ∧
    (sessions Key Tensor).step s a s'

variable [Inhabited Tensor]

omit [Inhabited Tensor] in
theorem good_init : Session.Good ({} : Session Key Tensor) fun _ => [] where
  stored := ⟨fun _ => rfl, by simp, fun _ _ => rfl⟩
  ok := rfl
  uniform _ := .inl (by simp)
  waiters := by simp
  managers := by simp
  callbacks m t cb := by simp [Manager.callbacks]
  tokens := by simp
  dones := by simp
  childless _ := rfl

theorem good_of_reachable {s : Session Key Tensor} (h : (distinguishedSessions Key Tensor).Reachable s) :
    ∃ q, s.Good q := by
  refine h.invariant (P := fun s => ∃ q, s.Good q) (fun s hs => ?_) fun s a s' ih hs => ?_
  · cases hs
    exact ⟨_, good_init⟩
  · obtain ⟨q, hgood⟩ := ih
    obtain ⟨hdistinguished, horder, hnext⟩ := hs
    cases a with
    | send key sendArgs val isDead =>
      obtain ⟨s1, q1, hsend, hgood1⟩ := hgood.send key sendArgs val isDead
      cases hsend.symm.trans hnext
      exact ⟨q1, hgood1⟩
    | recvAsync key recvArgs =>
      obtain ⟨s1, q1, hrecv, hgood1⟩ := hgood.recvAsync key recvArgs
      cases hrecv.symm.trans hnext
      exact ⟨q1, hgood1⟩
    | startCancel m order =>
      obtain ⟨s1, hstart, -, hgood1⟩ := hgood.startCancel (horder m order rfl)
      cases hstart.symm.trans hnext
      exact hgood1 (hdistinguished m order rfl)

/-- In the runs whose cancellations tell the receives apart, a cancellation is targeted exactly
if it does so too. -/
theorem cancellation_targeted_iff {s : Session Key Tensor}
    (h : (distinguishedSessions Key Tensor).Reachable s) (m : Nat)
    (order : Registrations Key → Registrations Key) (horder : ∀ l, (order l).Perm l) :
    ∃ s', s.startCancel m order = .ok s' ∧ (s.Targeted s' m ↔ s.Distinguished m) := by
  obtain ⟨q, hgood⟩ := good_of_reachable h
  obtain ⟨s', hstart, hiff, -⟩ := hgood.startCancel horder
  exact ⟨s', hstart, hiff⟩

section Runs

variable {s s' : Session Key Tensor}

end Runs

/-- Two managers hand out token 0 for one key.  Cancelling the second calls the receive of the
first. -/
theorem cancels_other_manager : ∃ s s' : Session Nat Nat, (sessions Nat Nat).Reachable s ∧
    s.startCancel 1 id = .ok s' ∧ ¬s.Targeted s' 1 ∧
    s'.invocations = [⟨0, recvCancelled, {}, { cancellationManager := some 0 }, 0, false⟩] := by
  have h₀ : (sessions Nat Nat).Reachable {} := .init rfl
  have h₁ := h₀.step (a := .recvAsync 7 { cancellationManager := some 0 }) ⟨by simp, rfl⟩
  have h₂ := h₁.step (a := .recvAsync 7 { cancellationManager := some 1 }) ⟨by simp, rfl⟩
  refine ⟨_, _, h₂, rfl, fun htargeted => ?_, rfl⟩
  obtain ⟨new, hnew, -, hmem⟩ := htargeted.called
  have hcalled : (⟨1, recvCancelled, {}, { cancellationManager := some 1 }, 0, false⟩ :
      Invocation Nat) ∈ new := by
    refine (hmem _).2 ⟨7, [(0, ⟨{ cancellationManager := some 0 }, .recv ⟨0, some (0, 0)⟩ 0⟩),
      (1, ⟨{ cancellationManager := some 1 }, .recv ⟨1, some (1, 0)⟩ 0⟩)], ⟨⟨rfl, rfl, rfl⟩, ?_⟩,
      _, mem_cons_of_mem _ mem_cons_self, rfl, rfl⟩
    exact forall_mem_cons.2 ⟨rfl, forall_mem_singleton.2 rfl⟩
  have hone : new = [⟨0, recvCancelled, {}, { cancellationManager := some 0 }, 0, false⟩] := hnew.symm
  rw [hone] at hcalled
  simp at hcalled

/-- Cancelling the first of them calls its own receive. -/
theorem cancels_own_receive : ∃ s s' : Session Unit Nat, s.startCancel 0 id = .ok s' ∧
    s.Distinguished 0 ∧ s.Targeted s' 0 := by
  have h₀ : (distinguishedSessions Unit Nat).Reachable {} := .init rfl
  have h₁ := h₀.step (a := .recvAsync () { cancellationManager := some 0 }) ⟨by simp, by simp, rfl⟩
  have h₂ := h₁.step (a := .recvAsync () { cancellationManager := some 1 }) ⟨by simp, by simp, rfl⟩
  have hlisted : ∀ s : Session Unit Nat,
      Listed s.rendezvous.heap (s.rendezvous.queue ()).head
        [(0, ⟨{ cancellationManager := some 0 }, .recv ⟨0, some (0, 0)⟩ 0⟩),
          (1, ⟨{ cancellationManager := some 1 }, .recv ⟨1, some (1, 0)⟩ 0⟩)] →
      s.Distinguished 0 := by
    intro s hfirst key l hl
    rw [hl.unique hfirst]
    simp [Tells, Entry.manager?]
  obtain ⟨s', hstart, hiff⟩ := cancellation_targeted_iff h₂ 0 id fun l => .refl l
  have hboth := fun hd => And.intro hd (hiff.2 hd)
  refine ⟨_, s', hstart, hboth (hlisted _ ⟨⟨rfl, rfl, rfl⟩, ?_⟩)⟩
  exact forall_mem_cons.2 ⟨rfl, forall_mem_singleton.2 rfl⟩

end TfReading.LocalRendezvous
