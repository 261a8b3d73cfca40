import TfReading.LocalRendezvous.Pairing
import TfReading.LocalRendezvous.Refines

/-!
# Sends and receives are matched in order and once

What holds in every interleaving of calls without cancellation managers.
-/

namespace TfReading.LocalRendezvous

open Relation List

variable {Key Tensor : Type} [DecidableEq Key] [Inhabited Tensor]

/-- Call `n` has made the invocation, and it is the only one of its callback, or the call is in
progress and the callback has not been invoked. -/
def State.Reports (s : State Key Tensor) (n : Nat) (invocation : Invocation Tensor) : Prop :=
  s.invocations.filter (fun x => x.2.done = invocation.done) = [(n, invocation)] ∨
    s.invocations.filter (fun x => x.2.done = invocation.done) = [] ∧ ∃ rest, (n, rest) ∈ s.running

def Resumes (s s' : State Key Tensor) : Prop := ∃ index, (system Key Tensor).step s (.resume index 0) s'

structure Matching (s : State Key Tensor) : Prop where
  /-- No callback is invoked twice. -/
  once : (s.invocations.map fun x => x.2.done).Nodup
  /-- Before an abort the `i`-th `Send` on a key goes to the `i`-th `RecvAsync` on it, and the
  later one of the two calls `done`. -/
  paired : ∀ before later, s.calls = before ++ later → (∀ c ∈ before, c.isAbort = false) →
    ∀ key (i : Nat) m q, (sendsOn key before)[i]? = some m → (recvsOn key before)[i]? = some q →
      s.Reports (max m.number q.number) ⟨q.number, .ok, m.sendArgs, q.recvArgs, m.val, m.isDead⟩
  /-- A queue holds only sends or only receives. -/
  queues : ∀ key, ∃ l, Listed s.rendezvous.heap (s.rendezvous.queue key).head l ∧
    (∀ c, l.getLast? = some c → (s.rendezvous.queue key).tail = some c.1) ∧
    ((∀ c ∈ l, c.2.isRecv = true) ∨ ∀ c ∈ l, c.2.isRecv = false)
  /-- Before an abort a queue holds the calls without a partner, in their order. -/
  waiting : (∀ c ∈ s.calls, c.isAbort = false) → ∀ key, ∃ l,
    Listed s.rendezvous.heap (s.rendezvous.queue key).head l ∧
    l.map Prod.snd = unmatched (sendsOn key s.calls) (recvsOn key s.calls)
  /-- The first abort calls every receive that was waiting. -/
  aborted : ∀ before status later, s.calls = before ++ .startAbort status :: later →
    (∀ c ∈ before, c.isAbort = false) →
    ∀ key, ∀ q ∈ (recvsOn key before).drop (sendsOn key before).length,
      s.Reports before.length ⟨q.number, status, {}, {}, default, false⟩
  /-- After it `Send` returns its status. -/
  late_send : ∀ before status later, s.calls = before ++ .startAbort status :: later →
    (∀ c ∈ before, c.isAbort = false) →
    ∀ (i : Nat) key sendArgs val isDead, later[i]? = some (.send key sendArgs val isDead) →
      s.returned.filter (fun x => x.1 = before.length + 1 + i) = [(before.length + 1 + i, status)]
  /-- After it `RecvAsync` calls `done` with its status. -/
  late_recv : ∀ before status later, s.calls = before ++ .startAbort status :: later →
    (∀ c ∈ before, c.isAbort = false) →
    ∀ (i : Nat) key recvArgs, later[i]? = some (.recvAsync key recvArgs) →
      s.Reports (before.length + 1 + i)
        ⟨before.length + 1 + i, status, {}, recvArgs, default, false⟩
  /-- The calls in progress return. -/
  returns : ∃ s', ReflTransGen Resumes s s' ∧ s'.running = []
  /-- No call faults, but for the `CHECK` of `StartAbort`. -/
  faultless : ∀ a, State.Unmanaged a → a ≠ .enter (.startAbort .ok) → ∃ s', s.next a = .ok s'

variable {s : State Key Tensor} {q : Key → List (Cell Tensor)} {held : Nat → List (Cell Tensor)}
    {n : Nat} {α : Type} {a : α}

/-! ## What is due is reported -/

theorem filter_eq_singleton {l : List α} {f : α → Nat} (hnodup : (l.map f).Nodup)
    (ha : a ∈ l) : l.filter (fun x => f x = f a) = [a] := by
  classical
  have hinj : ∀ x ∈ l, decide (f x = f a) = (x == a) := by
    intro x hx
    rw [Bool.beq_eq_decide_eq, decide_eq_decide]
    exact ⟨fun h => inj_on_of_nodup_map hnodup hx ha h, congrArg f⟩
  rw [filter_congr hinj, filter_beq, count_eq_one_of_mem hnodup.of_map ha, replicate_one]

/-- Of what is accounted for under different names, a part holds each name once or not at all. -/
theorem filter_of_perm {xs o D : List α} (f : α → Nat) (h : (xs ++ o).Perm D)
    (hnodup : (D.map f).Nodup) (ha : a ∈ D) :
    xs.filter (fun x => f x = f a) = [a] ∨ xs.filter (fun x => f x = f a) = [] ∧ a ∈ o := by
  have hnd : ((xs ++ o).map f).Nodup := (h.map f).nodup_iff.2 hnodup
  rw [map_append, nodup_append] at hnd
  rcases mem_append.1 (h.mem_iff.2 ha) with hx | hx
  · exact .inl (filter_eq_singleton hnd.1 hx)
  · refine .inr ⟨filter_eq_nil_iff.2 fun x hxs => ?_, hx⟩
    simpa using hnd.2.2 (f x) (mem_map_of_mem hxs) (f a) (mem_map_of_mem hx)

theorem dones_nodup (calls : List (Call Key Tensor)) :
    ((ledger calls).due.map fun x => x.2.done).Nodup :=
  Multiset.coe_nodup.1 (Multiset.nodup_add.1 (ledger_once calls).dones).1

namespace Refines

theorem reports (h : Refines s q held) {invocation : Invocation Tensor}
    (hdue : (n, invocation) ∈ (ledger s.calls).due) : s.Reports n invocation := by
  refine (filter_of_perm (fun x => x.2.done) h.due (dones_nodup s.calls) hdue).imp_right
    fun howed => ⟨howed.1, ?_⟩
  obtain ⟨x, hx, hmem⟩ := mem_flatMap.1 howed.2
  have hn : n = x.1 := Rest.owes_number hmem
  exact ⟨x.2, hn ▸ hx⟩

/-- A failed `Send` returns in its locked section. -/
theorem returned (h : Refines s q held) {status : Status} (hstatus : status ≠ .ok)
    (hresult : (n, status) ∈ (ledger s.calls).results) :
    s.returned.filter (fun x => x.1 = n) = [(n, status)] := by
  refine (filter_of_perm Prod.fst h.results (ledger_once s.calls).results hresult).resolve_right
    fun hunreturned => hstatus ?_
  obtain ⟨⟨m, rest⟩, hx, hmem⟩ := mem_flatMap.1 hunreturned.2
  cases rest with
  | notify =>
    simp only [Rest.results, mem_singleton, Prod.mk.injEq] at hmem
    exact hmem.2
  | delete =>
    have hholds := h.memory.holds _ hx
    simp only [Rest.results, mem_map, Option.mem_toList, Prod.mk.injEq] at hmem
    obtain ⟨st, hst, -, rfl⟩ := hmem
    exact hholds.2 st hst
  | deliver item recvArgs | report st recvArgs | abort st table item | release st table item =>
    cases hmem

/-! ## The calls in progress return -/

def weight (running : List (Nat × Rest Key Tensor)) (held : Nat → List (Cell Tensor)) : Nat :=
  (running.map fun x => x.2.weight (held x.1)).sum

omit [DecidableEq Key] [Inhabited Tensor] in
theorem weight_update {running : List (Nat × Rest Key Tensor)} (hn : ∀ x ∈ running, x.1 ≠ n)
    (cells : List (Cell Tensor)) : weight running (Function.update held n cells) = weight running held := by
  refine congrArg sum (map_congr_left fun x hx => ?_)
  rw [Function.update_of_ne (hn x hx)]

/-- A step of the first call in progress leaves less to do. -/
theorem resume_lower (h : Refines s q held) (hrunning : s.running ≠ []) :
    ∃ s' held', Resumes s s' ∧ Refines s' q held' ∧ weight s'.running held' < weight s.running held := by
  obtain ⟨⟨n, rest⟩, B, hcons⟩ := exists_cons_of_ne_nil hrunning
  have hmem : (n, rest) ∈ s.running := hcons ▸ mem_cons_self
  obtain ⟨s', rest', cells', hcontinued, hadv⟩ := State.continued_spec (h.memory.live n) n 0
    (h.memory.nodup n) (h.memory.holds _ hmem)
  have hsplit : s.running = [] ++ (n, rest) :: B := hcons
  have hn : ∀ x ∈ B, x.1 ≠ n := by
    have hnumbers := h.numbers
    rw [hcons, map_cons, nodup_cons] at hnumbers
    exact fun x hx heq => hnumbers.1 (mem_map.2 ⟨x, hx, heq⟩)
  refine ⟨_, _, ⟨0, trivial, ?_⟩, h.resume hadv hsplit, ?_⟩
  · simp only [State.next, hcons, getElem?_cons_zero, hcontinued, bind, Except.bind,
      hadv.running]
    rfl
  · have hless : (rest'.toList.map fun x => x.weight cells').sum < rest.weight (held n) :=
      hadv.weight rfl
    have hnew : weight (rest'.toList.map (.mk n) ++ B) (Function.update held n cells') =
        (rest'.toList.map fun x => x.weight cells').sum + weight B held := by
      rw [← weight_update hn cells']
      simp [weight, Function.comp_def]
    have hcur : weight ((n, rest) :: B) held = rest.weight (held n) + weight B held := by
      simp [weight]
    rw [nil_append, hcons, hnew, hcur]
    omega

theorem returns (h : Refines s q held) : ∃ s', ReflTransGen Resumes s s' ∧ s'.running = [] := by
  induction hk : weight s.running held using Nat.strong_induction_on generalizing s held with
  | _ k ih =>
    by_cases hrunning : s.running = []
    · exact ⟨s, .refl, hrunning⟩
    · obtain ⟨s1, held1, hstep, hrefines, hless⟩ := h.resume_lower hrunning
      obtain ⟨s', hrun, hend⟩ := ih _ (hk ▸ hless) hrefines rfl
      exact ⟨s', .head hstep hrun, hend⟩

end Refines

/-! ## Queues -/

omit [DecidableEq Key] [Inhabited Tensor] in
theorem first_abort {calls : List (Call Key Tensor)} (h : ¬∀ c ∈ calls, c.isAbort = false) :
    ∃ before status later, calls = before ++ .startAbort status :: later ∧
      ∀ c ∈ before, c.isAbort = false := by
  induction calls with
  | nil => simp at h
  | cons c calls ih =>
    cases hc : c.isAbort with
    | true =>
      cases c with
      | startAbort status => exact ⟨[], status, calls, rfl, by simp⟩
      | send | recvAsync => cases hc
    | false =>
      obtain ⟨before, status, later, hcalls, hbefore⟩ := ih (by simpa [hc] using h)
      exact ⟨c :: before, status, later, by rw [hcalls]; rfl, by simpa [hc] using hbefore⟩

namespace Refines

theorem entries_kind (h : Refines s q held) (key : Key) :
    (∀ c ∈ q key, c.2.isRecv = true) ∨ ∀ c ∈ q key, c.2.isRecv = false := by
  have hall : ∀ b, (∀ e ∈ (ledger s.calls).entries key, e.isRecv = b) → ∀ c ∈ q key, c.2.isRecv = b := by
    intro b hb c hc
    refine hb c.2 ?_
    rw [← h.entries]
    exact mem_map_of_mem hc
  by_cases habort : ∀ c ∈ s.calls, c.isAbort = false
  · rw [(ledger_matched habort).entries] at hall
    exact (unmatched_kind _ _).imp (hall true) (hall false)
  · obtain ⟨before, status, later, hcalls, hbefore⟩ := first_abort habort
    have hstatus : status ≠ .ok := h.checked status (hcalls ▸ by simp)
    have hpending := (ledger_aborted hbefore hstatus later).pending
    refine .inl (hall true fun e he => ?_)
    rw [Ledger.entries, hcalls, hpending] at he
    cases he

end Refines

/-- Sends and receives are matched in order and once, in every interleaving. -/
theorem sends_match_receives (h : (system Key Tensor).Reachable s) : Matching s := by
  obtain ⟨q, held, hr⟩ := refines_of_reachable h
  have hstored := hr.memory.stored
  constructor
  · have hnodup := (hr.due.map fun x => x.2.done).nodup_iff.2 (dones_nodup s.calls)
    rw [map_append, nodup_append] at hnodup
    exact hnodup.1
  · intro before later hcalls hbefore key i m q hm hq
    refine hr.reports ?_
    rw [hcalls]
    exact (ledger_due before later).subset ((ledger_matched hbefore).paired key i m q hm hq)
  · exact fun key => ⟨q key, (hstored.queueOk key).1, (hstored.queueOk key).2, hr.entries_kind key⟩
  · intro hbefore key
    refine ⟨q key, (hstored.queueOk key).1, ?_⟩
    rw [hr.entries, (ledger_matched hbefore).entries]
  · intro before status later hcalls hbefore key q hq
    have hstatus : status ≠ .ok := hr.checked status (hcalls ▸ by simp)
    refine hr.reports ?_
    rw [hcalls]
    exact (ledger_aborted hbefore hstatus later).waiting key q hq
  · intro before status later hcalls hbefore i key sendArgs val isDead hi
    have hstatus : status ≠ .ok := hr.checked status (hcalls ▸ by simp)
    refine hr.returned hstatus ?_
    rw [hcalls]
    exact (ledger_aborted hbefore hstatus later).sends i key sendArgs val isDead hi
  · intro before status later hcalls hbefore i key recvArgs hi
    have hstatus : status ≠ .ok := hr.checked status (hcalls ▸ by simp)
    refine hr.reports ?_
    rw [hcalls]
    exact (ledger_aborted hbefore hstatus later).recvs i key recvArgs hi
  · exact hr.returns
  · intro a ha hne
    rcases hr.next ha with hfault | ⟨s', -, -, hs', -⟩
    · exact absurd hfault.1 hne
    · exact ⟨s', hs'⟩

/-- A receive that waits is called with the message of a later send, and one that waits at an
abort with its status. -/
theorem matches_then_aborts : ∃ s : State Nat Nat, Matching s ∧ s.running = [] ∧
    s.invocations = [(1, ⟨0, .ok, {}, {}, 5, true⟩), (3, ⟨2, .error 10 "stop", {}, {}, 0, false⟩)] ∧
    s.returned = [(1, .ok), (4, .error 10 "stop")] := by
  have h₀ : (system Nat Nat).Reachable {} := .init rfl
  have h₁ := h₀.step (a := .enter (.recvAsync 7 {})) ⟨by rfl, rfl⟩
  have h₂ := h₁.step (a := .enter (.send 7 {} 5 true)) ⟨by trivial, rfl⟩
  have h₃ := h₂.step (a := .enter (.recvAsync 7 {})) ⟨by rfl, rfl⟩
  have h₄ := h₃.step (a := .resume 0 0) ⟨by trivial, rfl⟩
  have h₅ := h₄.step (a := .enter (.startAbort (.error 10 "stop"))) ⟨by trivial, rfl⟩
  have h₆ := h₅.step (a := .resume 0 0) ⟨by trivial, rfl⟩
  have h₇ := h₆.step (a := .enter (.send 7 {} 6 false)) ⟨by trivial, rfl⟩
  have h₈ := h₇.step (a := .resume 0 0) ⟨by trivial, rfl⟩
  have h₉ := h₈.step (a := .resume 0 0) ⟨by trivial, rfl⟩
  have h₁₀ := h₉.step (a := .resume 0 0) ⟨by trivial, rfl⟩
  have h₁₁ := h₁₀.step (a := .resume 0 0) ⟨by trivial, rfl⟩
  exact ⟨_, sends_match_receives h₁₁, rfl, rfl, rfl⟩

end TfReading.LocalRendezvous
