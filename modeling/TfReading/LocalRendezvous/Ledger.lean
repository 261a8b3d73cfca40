import Mathlib.Algebra.Order.Group.Multiset
import Mathlib.Algebra.Ring.Nat
import TfReading.LocalRendezvous.Calls
import TfReading.LocalRendezvous.Queues

/-!
# The rendezvous as a ledger of calls

What the rendezvous is for, with every call a single step: the calls without a partner wait in
one list in the order of their arrival, and each call settles which callbacks are due to which
call, and what `Send` is to return.
-/

namespace TfReading.LocalRendezvous

open List

open Cancellation (kInvalidToken)

variable {Key Tensor : Type}

structure Ledger (Key Tensor : Type) where
  /-- The number of calls, and the number of the next one. -/
  made : Nat := 0
  status : Status := .ok
  pending : List (Key × Entry Tensor) := []
  results : List (Nat × Status) := []
  due : List (Nat × Invocation Tensor) := []

def abortDue [Inhabited Tensor] (n : Nat) (status : Status) (e : Entry Tensor) :
    Option (Nat × Invocation Tensor) :=
  match e.state with
  | .send _ _ => none
  | .recv waiter _ => some (n, ⟨waiter.done, status, {}, {}, default, false⟩)

namespace Ledger

variable [DecidableEq Key]

def entries (L : Ledger Key Tensor) (key : Key) : List (Entry Tensor) :=
  (L.pending.filter (·.1 = key)).map Prod.snd

def push (L : Ledger Key Tensor) (key : Key) (e : Entry Tensor) : Ledger Key Tensor :=
  { L with pending := L.pending ++ [(key, e)] }

def pop (L : Ledger Key Tensor) (key : Key) : Ledger Key Tensor :=
  { L with pending := L.pending.eraseP (·.1 = key) }

def owe (L : Ledger Key Tensor) (inv : Invocation Tensor) : Ledger Key Tensor :=
  { L with due := L.due ++ [(L.made, inv)] }

def result (L : Ledger Key Tensor) (status : Status) : Ledger Key Tensor :=
  { L with results := L.results ++ [(L.made, status)] }

variable [Inhabited Tensor]

def settle (L : Ledger Key Tensor) : Call Key Tensor → Ledger Key Tensor
  | .send key sendArgs val isDead =>
    if L.status = .ok then
      match L.entries key with
      | ⟨recvArgs, .recv waiter _⟩ :: _ =>
        ((L.pop key).owe ⟨waiter.done, .ok, sendArgs, recvArgs, val, isDead⟩).result .ok
      | _ => (L.push key ⟨sendArgs, .send val isDead⟩).result .ok
    else L.result L.status
  | .recvAsync key recvArgs =>
    if L.status = .ok then
      match L.entries key with
      | ⟨sendArgs, .send val isDead⟩ :: _ =>
        (L.pop key).owe ⟨L.made, .ok, sendArgs, recvArgs, val, isDead⟩
      | _ => L.push key ⟨recvArgs, .recv ⟨L.made, none⟩ kInvalidToken⟩
    else L.owe ⟨L.made, L.status, {}, recvArgs, default, false⟩
  | .startAbort status =>
    { L with
      status := L.status.update status
      pending := []
      due := L.due ++ L.pending.filterMap fun x => abortDue L.made status x.2 }

def call (L : Ledger Key Tensor) (c : Call Key Tensor) : Ledger Key Tensor :=
  { L.settle c with made := L.made + 1 }

end Ledger

def ledger [DecidableEq Key] [Inhabited Tensor] (calls : List (Call Key Tensor)) :
    Ledger Key Tensor :=
  calls.foldl Ledger.call {}

def Entry.done? (e : Entry Tensor) : Option Nat :=
  match e.state with
  | .send _ _ => none
  | .recv waiter _ => some waiter.done

def Ledger.dones (L : Ledger Key Tensor) : Multiset Nat :=
  ↑(L.due.map fun x => x.2.done) + ↑(L.pending.filterMap fun x => x.2.done?)

namespace Ledger

variable [DecidableEq Key] {L : Ledger Key Tensor} {key : Key}

@[simp] theorem entries_push (k : Key) (e : Entry Tensor) :
    (L.push key e).entries k = L.entries k ++ if k = key then [e] else [] := by
  by_cases hk : k = key
  · simp [entries, push, hk]
  · simp [entries, push, hk, Ne.symm hk]

theorem filter_eraseP (l : List (Key × Entry Tensor)) (k : Key) :
    (l.eraseP (·.1 = key)).filter (·.1 = k) =
      if k = key then (l.filter (·.1 = k)).tail else l.filter (·.1 = k) := by
  induction l with
  | nil => simp
  | cons x l ih =>
    by_cases hx : x.1 = key
    · by_cases hk : k = key
      · simp [hx, hk]
      · simp [hx, hk, Ne.symm hk]
    · rw [eraseP_cons_of_neg (by simpa using hx), filter_cons, ih, filter_cons]
      by_cases hk : k = key
      · simp [hk, hx]
      · simp [hk]

@[simp] theorem entries_pop (k : Key) :
    (L.pop key).entries k = if k = key then (L.entries k).tail else L.entries k := by
  rw [entries, pop, filter_eraseP]
  by_cases hk : k = key
  · simp [hk, entries]
  · simp [hk, entries]

variable {e : Entry Tensor} {l : List (Entry Tensor)}

theorem pending_perm (h : L.entries key = e :: l) :
    L.pending.Perm ((key, e) :: (L.pop key).pending) := by
  rw [entries] at h
  rw [pop]
  generalize L.pending = pending at h
  induction pending with
  | nil => simp at h
  | cons x pending ih =>
    by_cases hx : x.1 = key
    · have hxe : x.2 = e := by simpa [hx] using congrArg head? h
      rw [eraseP_cons_of_pos (by simpa using hx), ← hx, ← hxe]
    · rw [eraseP_cons_of_neg (by simpa using hx)]
      rw [filter_cons_of_neg (by simpa using hx)] at h
      exact ((ih h).cons x).trans (.swap _ _ _)

theorem perm_entries {keys : List Key} (hnodup : keys.Nodup) (hall : ∀ x ∈ L.pending, x.1 ∈ keys) :
    (keys.flatMap L.entries).Perm (L.pending.map Prod.snd) := by
  have hentries : keys.flatMap L.entries =
      (keys.flatMap fun k => L.pending.filter (·.1 = k)).map Prod.snd := by
    rw [map_flatMap]
    rfl
  rw [hentries]
  refine .map _ ?_
  clear hentries
  generalize L.pending = pending at hall
  induction keys generalizing pending with
  | nil =>
    have hnil : pending = [] := eq_nil_iff_forall_not_mem.2 fun x hx => by simpa using hall x hx
    simp [hnil]
  | cons k keys ih =>
    -- The other keys find their entries among those that are not at `k`.
    have hrest : (keys.flatMap fun k' => pending.filter (·.1 = k')) =
        keys.flatMap fun k' => (pending.filter fun x => !decide (x.1 = k)).filter (·.1 = k') := by
      refine flatMap_congr fun k' hk' => ?_
      have hne : k' ≠ k := fun heq => (nodup_cons.1 hnodup).1 (heq ▸ hk')
      rw [filter_filter]
      refine filter_congr fun x _ => ?_
      by_cases hx : x.1 = k'
      · simp [hx, hne]
      · simp [hx]
    have hall' : ∀ x ∈ pending.filter (fun x => !decide (x.1 = k)), x.1 ∈ keys := by
      intro x hx
      have hx' := mem_filter.1 hx
      have hmem := hall x hx'.1
      simp only [Bool.not_eq_eq_eq_not, Bool.not_true, decide_eq_false_iff_not] at hx'
      exact (mem_cons.1 hmem).resolve_left hx'.2
    rw [flatMap_cons, hrest]
    exact ((ih (nodup_cons.1 hnodup).2 _ hall').append_left _).trans
      (filter_append_perm _ _)

omit [DecidableEq Key] in
@[simp] theorem dones_result (status : Status) : (L.result status).dones = L.dones := rfl

omit [DecidableEq Key] in
@[simp] theorem dones_owe (inv : Invocation Tensor) : (L.owe inv).dones = inv.done ::ₘ L.dones := by
  rw [dones, owe, map_append, ← Multiset.coe_add, add_right_comm, add_comm]
  rfl

omit [DecidableEq Key] in
@[simp] theorem dones_push (e : Entry Tensor) :
    (L.push key e).dones = ↑e.done?.toList + L.dones := by
  rw [dones, push, filterMap_append, ← Multiset.coe_add, ← add_assoc, add_comm]
  cases h : e.done? <;> simp [h, dones]

theorem dones_pop (h : L.entries key = e :: l) :
    L.dones = ↑e.done?.toList + (L.pop key).dones := by
  have hperm := (pending_perm h).filterMap fun x => x.2.done?
  rw [dones, Multiset.coe_eq_coe.2 hperm, dones, add_left_comm]
  refine congrArg₂ (· + ·) rfl ?_
  cases hd : e.done? <;> simp [hd, ← Multiset.cons_coe]

variable [Inhabited Tensor] (sendArgs recvArgs : Args) (val : Tensor) (isDead : Bool)

theorem settle_send_late (h : L.status ≠ .ok) :
    L.settle (.send key sendArgs val isDead) = L.result L.status := by
  simp [settle, h]

theorem settle_send_pop (h : L.status = .ok)
    (hl : L.entries key = e :: l) {w : Waiter} {t : Cancellation.Token} (he : e.state = .recv w t) :
    L.settle (.send key sendArgs val isDead) =
      ((L.pop key).owe ⟨w.done, .ok, sendArgs, e.args, val, isDead⟩).result .ok := by
  obtain ⟨args, state⟩ := e
  cases he
  simp [settle, h, hl]

theorem settle_send_push (h : L.status = .ok)
    (hl : ∀ e ∈ (L.entries key).head?, e.isRecv = false) :
    L.settle (.send key sendArgs val isDead) =
      (L.push key ⟨sendArgs, .send val isDead⟩).result .ok := by
  rw [settle, if_pos h]
  cases he : L.entries key with
  | nil => rfl
  | cons e =>
    have hsend := hl e (by simp [he])
    obtain ⟨args, state⟩ := e
    cases state with
    | send => rfl
    | recv => simp [Entry.isRecv] at hsend

theorem settle_recv_late (h : L.status ≠ .ok) :
    L.settle (.recvAsync key recvArgs) = L.owe ⟨L.made, L.status, {}, recvArgs, default, false⟩ := by
  simp [settle, h]

theorem settle_recv_pop (h : L.status = .ok)
    (hl : L.entries key = e :: l) {v : Tensor} {d : Bool} (he : e.state = .send v d) :
    L.settle (.recvAsync key recvArgs) = (L.pop key).owe ⟨L.made, .ok, e.args, recvArgs, v, d⟩ := by
  obtain ⟨args, state⟩ := e
  cases he
  simp [settle, h, hl]

theorem settle_recv_push (h : L.status = .ok)
    (hl : ∀ e ∈ (L.entries key).head?, e.isRecv = true) :
    L.settle (.recvAsync key recvArgs) =
      L.push key ⟨recvArgs, .recv ⟨L.made, none⟩ kInvalidToken⟩ := by
  rw [settle, if_pos h]
  cases he : L.entries key with
  | nil => rfl
  | cons e =>
    have hrecv := hl e (by simp [he])
    obtain ⟨args, state⟩ := e
    cases state with
    | send => simp [Entry.isRecv] at hrecv
    | recv => rfl

omit [Inhabited Tensor] in
/-- A head of the other kind is there to be taken off. -/
theorem cons_of_head {b : Bool} (h : ¬∀ e ∈ l.head?, e.isRecv = b) :
    ∃ e l', l = e :: l' ∧ e.isRecv = !b := by
  cases l with
  | nil => exact absurd (fun e he => nomatch he) h
  | cons e l' =>
    refine ⟨e, l', rfl, Bool.eq_not.2 fun he => h fun e' he' => ?_⟩
    rw [← Option.some.inj he', he]

theorem settle_send_cases (L : Ledger Key Tensor) (key : Key) :
    (L.status ≠ .ok ∧ L.settle (.send key sendArgs val isDead) = L.result L.status) ∨
    (L.status = .ok ∧ (∀ e ∈ (L.entries key).head?, e.isRecv = false) ∧
      L.settle (.send key sendArgs val isDead) =
        (L.push key ⟨sendArgs, .send val isDead⟩).result .ok) ∨
    ∃ e l w t, L.status = .ok ∧ L.entries key = e :: l ∧ e.state = .recv w t ∧
      L.settle (.send key sendArgs val isDead) =
        ((L.pop key).owe ⟨w.done, .ok, sendArgs, e.args, val, isDead⟩).result .ok := by
  by_cases h : L.status = .ok
  · by_cases hhead : ∀ e ∈ (L.entries key).head?, e.isRecv = false
    · exact .inr (.inl ⟨h, hhead, settle_send_push sendArgs val isDead h hhead⟩)
    · obtain ⟨e, l, hl, he⟩ := cons_of_head hhead
      obtain ⟨w, t, he⟩ := Entry.isRecv_iff.1 he
      exact .inr (.inr ⟨e, l, w, t, h, hl, he, settle_send_pop sendArgs val isDead h hl he⟩)
  · exact .inl ⟨h, settle_send_late sendArgs val isDead h⟩

theorem settle_recv_cases (L : Ledger Key Tensor) (key : Key) :
    (L.status ≠ .ok ∧ L.settle (.recvAsync key recvArgs) =
      L.owe ⟨L.made, L.status, {}, recvArgs, default, false⟩) ∨
    (L.status = .ok ∧ (∀ e ∈ (L.entries key).head?, e.isRecv = true) ∧
      L.settle (.recvAsync key recvArgs) =
        L.push key ⟨recvArgs, .recv ⟨L.made, none⟩ kInvalidToken⟩) ∨
    ∃ e l v d, L.status = .ok ∧ L.entries key = e :: l ∧ e.state = .send v d ∧
      L.settle (.recvAsync key recvArgs) =
        (L.pop key).owe ⟨L.made, .ok, e.args, recvArgs, v, d⟩ := by
  by_cases h : L.status = .ok
  · by_cases hhead : ∀ e ∈ (L.entries key).head?, e.isRecv = true
    · exact .inr (.inl ⟨h, hhead, settle_recv_push recvArgs h hhead⟩)
    · obtain ⟨e, l, hl, he⟩ := cons_of_head hhead
      cases hstate : e.state with
      | send v d =>
        exact .inr (.inr ⟨e, l, v, d, h, hl, hstate, settle_recv_pop recvArgs h hl hstate⟩)
      | recv => simp [Entry.isRecv, hstate] at he
  · exact .inl ⟨h, settle_recv_late recvArgs h⟩

/-! ## Callbacks and results are settled once -/

/-- A call settles its own callback and its own result, and what is due stays due. -/
structure Adds (L L' : Ledger Key Tensor) : Prop where
  dones : L'.dones = L.dones ∨ L'.dones = L.made ::ₘ L.dones
  results : L'.results = L.results ∨ ∃ status, L'.results = L.results ++ [(L.made, status)]
  due : L.due <+: L'.due

theorem settle_adds (L : Ledger Key Tensor) (c : Call Key Tensor) : Adds L (L.settle c) := by
  cases c with
  | send key sendArgs val isDead =>
    obtain ⟨-, h⟩ | ⟨-, -, h⟩ | ⟨e, l, w, t, -, hl, he, h⟩ :=
      settle_send_cases sendArgs val isDead L key
    · rw [h]
      exact ⟨.inl rfl, .inr ⟨_, rfl⟩, prefix_refl _⟩
    · rw [h]
      exact ⟨.inl (by simp [Entry.done?]), .inr ⟨_, rfl⟩, prefix_refl _⟩
    · rw [h]
      refine ⟨.inl ?_, .inr ⟨_, rfl⟩, prefix_append _ _⟩
      rw [dones_result, dones_owe, dones_pop hl]
      simp [Entry.done?, he]
  | recvAsync key recvArgs =>
    obtain ⟨-, h⟩ | ⟨-, -, h⟩ | ⟨e, l, v, d, -, hl, he, h⟩ := settle_recv_cases recvArgs L key
    · rw [h]
      exact ⟨.inr (dones_owe _), .inl rfl, prefix_append _ _⟩
    · rw [h]
      exact ⟨.inr (by simp [Entry.done?]), .inl rfl, prefix_refl _⟩
    · rw [h]
      refine ⟨.inr ?_, .inl rfl, prefix_append _ _⟩
      rw [dones_owe, dones_pop hl]
      simp [Entry.done?, he]
  | startAbort status =>
    have hdone : ∀ e : Entry Tensor,
        (abortDue L.made status e).map (fun x => x.2.done) = e.done? := by
      intro e
      cases h : e.state <;> simp [abortDue, Entry.done?, h]
    exact ⟨.inl (by simp [dones, settle, map_filterMap, hdone]), .inl rfl, prefix_append _ _⟩

theorem call_adds (L : Ledger Key Tensor) (c : Call Key Tensor) : Adds L (L.call c) :=
  ⟨(L.settle_adds c).dones, (L.settle_adds c).results, (L.settle_adds c).due⟩

/-- No callback and no result is settled twice, and none for a call that has not been made. -/
structure Once (L : Ledger Key Tensor) : Prop where
  dones : L.dones.Nodup
  dones_lt : ∀ d ∈ L.dones, d < L.made
  results : (L.results.map Prod.fst).Nodup
  results_lt : ∀ x ∈ L.results, x.1 < L.made

theorem Once.call (h : L.Once) (c : Call Key Tensor) : (L.call c).Once := by
  have hadds := L.call_adds c
  have hmade : (L.call c).made = L.made + 1 := rfl
  constructor
  · rcases hadds.dones with heq | heq
    · exact heq ▸ h.dones
    · rw [heq]
      exact Multiset.nodup_cons.2 ⟨fun hmem => lt_irrefl _ (h.dones_lt _ hmem), h.dones⟩
  · intro d hd
    rcases hadds.dones with heq | heq
    · exact Nat.lt_succ_of_lt (h.dones_lt d (heq ▸ hd))
    · rw [heq] at hd
      cases Multiset.mem_cons.1 hd with
      | inl => omega
      | inr hd => exact Nat.lt_succ_of_lt (h.dones_lt d hd)
  · rcases hadds.results with heq | ⟨status, heq⟩
    · exact heq ▸ h.results
    · rw [heq, map_append, map_singleton, ← concat_eq_append]
      refine .concat (fun hmem => ?_) h.results
      obtain ⟨x, hx, hxm⟩ := mem_map.1 hmem
      have hlt := h.results_lt x hx
      omega
  · intro x hx
    rcases hadds.results with heq | ⟨status, heq⟩
    · exact Nat.lt_succ_of_lt (h.results_lt x (heq ▸ hx))
    · rw [heq] at hx
      rcases mem_append.1 hx with hx | hx
      · exact Nat.lt_succ_of_lt (h.results_lt x hx)
      · rw [mem_singleton.1 hx]
        exact Nat.lt_succ_self _

end Ledger

variable [DecidableEq Key] [Inhabited Tensor]

theorem ledger_concat (calls : List (Call Key Tensor)) (c : Call Key Tensor) :
    ledger (calls ++ [c]) = (ledger calls).call c := by
  rw [ledger, foldl_append]
  rfl

theorem ledger_once (calls : List (Call Key Tensor)) : (ledger calls).Once := by
  induction calls using reverseRecOn with
  | nil => exact ⟨Multiset.nodup_zero, by simp [ledger, Ledger.dones], nodup_nil, by simp [ledger]⟩
  | append_singleton calls c ih => exact ledger_concat calls c ▸ ih.call c

@[simp] theorem ledger_made (calls : List (Call Key Tensor)) : (ledger calls).made = calls.length := by
  induction calls using reverseRecOn with
  | nil => rfl
  | append_singleton calls c ih =>
    rw [ledger_concat, length_append, ← ih]
    rfl

theorem ledger_due (calls more : List (Call Key Tensor)) :
    (ledger calls).due <+: (ledger (calls ++ more)).due := by
  induction more using reverseRecOn with
  | nil => simp
  | append_singleton more c ih =>
    rw [← append_assoc, ledger_concat]
    exact ih.trans (Ledger.call_adds _ c).due

end TfReading.LocalRendezvous
