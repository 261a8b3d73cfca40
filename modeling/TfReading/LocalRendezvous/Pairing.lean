import TfReading.LocalRendezvous.Ledger

/-!
# Which calls are paired

Up to the first abort the ledger pairs the `i`-th `Send` on a key with the `i`-th `RecvAsync`
on it, and what waits is what has no partner.  From the abort on nothing waits.
-/

namespace TfReading.LocalRendezvous

open List Ledger

open Cancellation (kInvalidToken)

variable {Key Tensor : Type}

structure Message (Tensor : Type) where
  number : Nat
  sendArgs : Args
  val : Tensor
  isDead : Bool

structure Request where
  number : Nat
  recvArgs : Args

def Message.entry (m : Message Tensor) : Entry Tensor := ⟨m.sendArgs, .send m.val m.isDead⟩

def Request.entry (q : Request) : Entry Tensor := ⟨q.recvArgs, .recv ⟨q.number, none⟩ kInvalidToken⟩

/-- What the later one of the two calls does for a pair. -/
def pair (m : Message Tensor) (q : Request) : Nat × Invocation Tensor :=
  (max m.number q.number, ⟨q.number, .ok, m.sendArgs, q.recvArgs, m.val, m.isDead⟩)

variable [DecidableEq Key] {calls : List (Call Key Tensor)} {c : Call Key Tensor} {key : Key}
    {m : Message Tensor} {q : Request} {α : Type} {n : Nat} {a : α}

def Call.message (key : Key) (n : Nat) : Call Key Tensor → Option (Message Tensor)
  | .send key' sendArgs val isDead => if key' = key then some ⟨n, sendArgs, val, isDead⟩ else none
  | .recvAsync _ _ => none
  | .startAbort _ => none

def Call.request (key : Key) (n : Nat) : Call Key Tensor → Option Request
  | .send _ _ _ _ => none
  | .recvAsync key' recvArgs => if key' = key then some ⟨n, recvArgs⟩ else none
  | .startAbort _ => none

def sendsOn (key : Key) (calls : List (Call Key Tensor)) : List (Message Tensor) :=
  calls.zipIdx.filterMap fun x => x.1.message key x.2

def recvsOn (key : Key) (calls : List (Call Key Tensor)) : List Request :=
  calls.zipIdx.filterMap fun x => x.1.request key x.2

theorem sendsOn_concat (key : Key) (calls : List (Call Key Tensor)) (c : Call Key Tensor) :
    sendsOn key (calls ++ [c]) = sendsOn key calls ++ (c.message key calls.length).toList := by
  rw [sendsOn, zipIdx_append, filterMap_append]
  cases h : c.message key calls.length <;> simp [sendsOn, h]

theorem recvsOn_concat (key : Key) (calls : List (Call Key Tensor)) (c : Call Key Tensor) :
    recvsOn key (calls ++ [c]) = recvsOn key calls ++ (c.request key calls.length).toList := by
  rw [recvsOn, zipIdx_append, filterMap_append]
  cases h : c.request key calls.length <;> simp [recvsOn, h]

theorem Call.message_number (h : c.message key n = some m) : m.number = n := by
  cases c with
  | send =>
    simp only [message, Option.ite_none_right_eq_some, Option.some.injEq] at h
    rw [← h.2]
  | recvAsync => cases h
  | startAbort => cases h

theorem Call.request_number (h : c.request key n = some q) : q.number = n := by
  cases c with
  | send => cases h
  | recvAsync =>
    simp only [request, Option.ite_none_right_eq_some, Option.some.injEq] at h
    rw [← h.2]
  | startAbort => cases h

theorem number_lt_of_mem_sendsOn (h : m ∈ sendsOn key calls) : m.number < calls.length := by
  obtain ⟨x, hx, hm⟩ := mem_filterMap.1 h
  rw [Call.message_number hm]
  exact snd_lt_of_mem_zipIdx hx

theorem number_lt_of_mem_recvsOn (h : q ∈ recvsOn key calls) : q.number < calls.length := by
  obtain ⟨x, hx, hq⟩ := mem_filterMap.1 h
  rw [Call.request_number hq]
  exact snd_lt_of_mem_zipIdx hx

def Call.isAbort : Call Key Tensor → Bool
  | .startAbort _ => true
  | .send _ _ _ _ => false
  | .recvAsync _ _ => false

/-- What waits at a key, where `ms` were sent and `qs` asked for. -/
def unmatched (ms : List (Message Tensor)) (qs : List Request) : List (Entry Tensor) :=
  (ms.drop qs.length).map Message.entry ++ (qs.drop ms.length).map Request.entry

theorem last_of_getElem? {l : List α} {x : α} {i : Nat}
    (h : (l ++ [a])[i]? = some x) (hi : ¬i < l.length) : i = l.length ∧ a = x := by
  obtain ⟨hlt, hx⟩ := List.getElem?_eq_some_iff.1 h
  have hlen : i = l.length := by
    rw [length_append, length_singleton] at hlt
    omega
  subst hlen
  refine ⟨rfl, ?_⟩
  rw [← hx]
  simp

section Unmatched

variable {ms : List (Message Tensor)} {qs : List Request}

theorem unmatched_of_le (h : qs.length ≤ ms.length) :
    unmatched ms qs = (ms.drop qs.length).map Message.entry := by
  simp [unmatched, h]

theorem unmatched_of_ge (h : ms.length ≤ qs.length) :
    unmatched ms qs = (qs.drop ms.length).map Request.entry := by
  simp [unmatched, h]

theorem unmatched_kind (ms : List (Message Tensor)) (qs : List Request) :
    (∀ e ∈ unmatched ms qs, e.isRecv = true) ∨ ∀ e ∈ unmatched ms qs, e.isRecv = false := by
  rcases le_total ms.length qs.length with h | h
  · refine .inl fun e he => ?_
    rw [unmatched_of_ge h] at he
    obtain ⟨q, -, rfl⟩ := mem_map.1 he
    rfl
  · refine .inr fun e he => ?_
    rw [unmatched_of_le h] at he
    obtain ⟨m, -, rfl⟩ := mem_map.1 he
    rfl

/-- A message joins those that wait, unless a receive waits for it. -/
theorem unmatched_send (m : Message Tensor) (h : qs.length ≤ ms.length) :
    unmatched (ms ++ [m]) qs = unmatched ms qs ++ [m.entry] := by
  rw [unmatched_of_le h, unmatched_of_le (by rw [length_append]; omega),
    drop_append_of_le_length h, map_append]
  rfl

theorem unmatched_recv (q : Request) (h : ms.length ≤ qs.length) :
    unmatched ms (qs ++ [q]) = unmatched ms qs ++ [q.entry] := by
  rw [unmatched_of_ge h, unmatched_of_ge (by rw [length_append]; omega),
    drop_append_of_le_length h, map_append]
  rfl

theorem unmatched_cons_recv (h : ms.length < qs.length) :
    ∃ q, qs[ms.length]? = some q ∧ ∀ m, unmatched ms qs = q.entry :: unmatched (ms ++ [m]) qs := by
  refine ⟨qs[ms.length], getElem?_eq_getElem h, fun m => ?_⟩
  rw [unmatched_of_ge h.le, unmatched_of_ge (by simpa using Nat.succ_le_of_lt h),
    drop_eq_getElem_cons h, length_append]
  rfl

theorem unmatched_cons_send (h : qs.length < ms.length) :
    ∃ m, ms[qs.length]? = some m ∧ ∀ q, unmatched ms qs = m.entry :: unmatched ms (qs ++ [q]) := by
  refine ⟨ms[qs.length], getElem?_eq_getElem h, fun q => ?_⟩
  rw [unmatched_of_le h.le, unmatched_of_le (by simpa using Nat.succ_le_of_lt h),
    drop_eq_getElem_cons h, length_append]
  rfl

end Unmatched

/-- The ledger of calls without an abort. -/
structure Matched (calls : List (Call Key Tensor)) (L : Ledger Key Tensor) : Prop where
  status : L.status = .ok
  entries : ∀ key, L.entries key = unmatched (sendsOn key calls) (recvsOn key calls)
  paired : ∀ key (i : Nat) m q, (sendsOn key calls)[i]? = some m → (recvsOn key calls)[i]? = some q →
    pair m q ∈ L.due

namespace Matched

variable {calls : List (Call Key Tensor)} {L : Ledger Key Tensor}

/-- Only the pair of the new one with its own partner is new. -/
theorem pairs_concat {β : Type} {xs : List α} {ys : List β} {P : α → β → Prop}
    (hold : ∀ (i : Nat) x y, xs[i]? = some x → ys[i]? = some y → P x y)
    (hnew : ∀ y, ys[xs.length]? = some y → P a y) (i : Nat) (x : α) (y : β)
    (hx : (xs ++ [a])[i]? = some x) (hy : ys[i]? = some y) : P x y := by
  by_cases hi : i < xs.length
  · rw [getElem?_append_left hi] at hx
    exact hold i x y hx hy
  · obtain ⟨rfl, rfl⟩ := last_of_getElem? hx hi
    exact hnew y hy

variable [Inhabited Tensor]

/-- One more call on `key`: at the other keys nothing changes, and what is due stays due. -/
theorem concat (h : Matched calls L) {L' : Ledger Key Tensor} (hsettle : L.settle c = L')
    (hc : ∀ k ≠ key, c.message k calls.length = none ∧ c.request k calls.length = none)
    (hstatus : L'.status = L.status) (hother : ∀ k ≠ key, L'.entries k = L.entries k)
    (hentries : L'.entries key = unmatched (sendsOn key (calls ++ [c])) (recvsOn key (calls ++ [c])))
    (hpaired : ∀ (i : Nat) m q, (sendsOn key (calls ++ [c]))[i]? = some m →
      (recvsOn key (calls ++ [c]))[i]? = some q → pair m q ∈ L'.due) :
    Matched (calls ++ [c]) (L.call c) := by
  have hdue := (L.call_adds c).due
  rw [call, hsettle] at hdue ⊢
  have hsame : ∀ k ≠ key, sendsOn k (calls ++ [c]) = sendsOn k calls ∧
      recvsOn k (calls ++ [c]) = recvsOn k calls := by
    intro k hk
    simp [sendsOn_concat, recvsOn_concat, hc k hk]
  refine ⟨hstatus.trans h.status, fun k => ?_, fun k i m q hm hq => ?_⟩
  · by_cases hk : k = key
    · exact hk ▸ hentries
    · rw [(hsame k hk).1, (hsame k hk).2, ← h.entries]
      exact hother k hk
  · by_cases hk : k = key
    · subst hk
      exact hpaired i m q hm hq
    · rw [(hsame k hk).1] at hm
      rw [(hsame k hk).2] at hq
      exact hdue.subset (h.paired k i m q hm hq)

theorem send (h : Matched calls L) (hmade : L.made = calls.length) (key : Key) (sendArgs : Args)
    (val : Tensor) (isDead : Bool) :
    Matched (calls ++ [.send key sendArgs val isDead]) (L.call (.send key sendArgs val isDead)) := by
  let c : Call Key Tensor := .send key sendArgs val isDead
  let m : Message Tensor := ⟨calls.length, sendArgs, val, isDead⟩
  have hs : sendsOn key (calls ++ [c]) = sendsOn key calls ++ [m] := by
    simp [sendsOn_concat, c, m, Call.message]
  have hr : recvsOn key (calls ++ [c]) = recvsOn key calls := by
    simp [recvsOn_concat, c, Call.request]
  have hc : ∀ k ≠ key, c.message k calls.length = none ∧ c.request k calls.length = none := by
    intro k hk
    simp [c, Call.message, Call.request, hk.symm]
  by_cases hlen : (recvsOn key calls).length ≤ (sendsOn key calls).length
  · have hhead : ∀ e ∈ (L.entries key).head?, e.isRecv = false := by
      intro e he
      have hmem := mem_of_mem_head? he
      rw [h.entries, unmatched_of_le hlen] at hmem
      obtain ⟨m', -, rfl⟩ := mem_map.1 hmem
      rfl
    refine h.concat (settle_send_push sendArgs val isDead h.status hhead) hc rfl
      (fun k hk => (entries_push k _).trans (by simp [hk])) ?_ ?_
    · rw [hs, hr, unmatched_send m hlen, ← h.entries]
      exact (entries_push key _).trans (by rw [if_pos rfl]; rfl)
    · rw [hs, hr]
      refine pairs_concat (h.paired key) fun q hq => ?_
      rw [getElem?_eq_none hlen] at hq
      cases hq
  · obtain ⟨q, hq, hcons⟩ := unmatched_cons_recv (Nat.lt_of_not_le hlen)
    have hentries := (h.entries key).trans (hcons m)
    have hlt : q.number < calls.length := number_lt_of_mem_recvsOn (mem_of_getElem? hq)
    refine h.concat (settle_send_pop sendArgs val isDead h.status hentries rfl) hc rfl
      (fun k hk => (entries_pop k).trans (if_neg hk)) ?_ ?_
    · rw [hs, hr]
      exact (entries_pop key).trans (by rw [if_pos rfl, hentries, tail_cons])
    · rw [hs, hr]
      refine pairs_concat (fun i m q hm hq => mem_append_left _ (h.paired key i m q hm hq))
        fun q1 hq1 => mem_append_right _ (mem_singleton.2 ?_)
      cases hq.symm.trans hq1
      rw [pair, Nat.max_eq_left hlt.le]
      exact congrArg₂ Prod.mk hmade.symm rfl

theorem recvAsync (h : Matched calls L) (hmade : L.made = calls.length) (key : Key) (recvArgs : Args) :
    Matched (calls ++ [.recvAsync key recvArgs]) (L.call (.recvAsync key recvArgs)) := by
  let c : Call Key Tensor := .recvAsync key recvArgs
  let q : Request := ⟨calls.length, recvArgs⟩
  have hs : sendsOn key (calls ++ [c]) = sendsOn key calls := by
    simp [sendsOn_concat, c, Call.message]
  have hr : recvsOn key (calls ++ [c]) = recvsOn key calls ++ [q] := by
    simp [recvsOn_concat, c, q, Call.request]
  have hc : ∀ k ≠ key, c.message k calls.length = none ∧ c.request k calls.length = none := by
    intro k hk
    simp [c, Call.message, Call.request, hk.symm]
  by_cases hlen : (sendsOn key calls).length ≤ (recvsOn key calls).length
  · have hhead : ∀ e ∈ (L.entries key).head?, e.isRecv = true := by
      intro e he
      have hmem := mem_of_mem_head? he
      rw [h.entries, unmatched_of_ge hlen] at hmem
      obtain ⟨q', -, rfl⟩ := mem_map.1 hmem
      rfl
    have hsettle := settle_recv_push recvArgs h.status hhead
    rw [hmade] at hsettle
    refine h.concat hsettle hc rfl
      (fun k hk => (entries_push k _).trans (by simp [hk])) ?_ ?_
    · rw [hs, hr, unmatched_recv q hlen, ← h.entries]
      exact (entries_push key _).trans (by rw [if_pos rfl]; rfl)
    · rw [hs, hr]
      refine fun i m q hm hq => pairs_concat (fun i q m hq hm => h.paired key i m q hm hq)
        (fun m hm => ?_) i q m hq hm
      rw [getElem?_eq_none hlen] at hm
      cases hm
  · obtain ⟨m, hm, hcons⟩ := unmatched_cons_send (Nat.lt_of_not_le hlen)
    have hentries := (h.entries key).trans (hcons q)
    have hlt : m.number < calls.length := number_lt_of_mem_sendsOn (mem_of_getElem? hm)
    refine h.concat (settle_recv_pop recvArgs h.status hentries rfl) hc rfl
      (fun k hk => (entries_pop k).trans (if_neg hk)) ?_ ?_
    · rw [hs, hr]
      exact (entries_pop key).trans (by rw [if_pos rfl, hentries, tail_cons])
    · rw [hs, hr]
      refine fun i m' q' hm' hq' => pairs_concat
        (fun i q m hq hm => mem_append_left _ (h.paired key i m q hm hq))
        (fun m1 hm1 => mem_append_right _ (mem_singleton.2 ?_)) i q' m' hq' hm'
      cases hm.symm.trans hm1
      simp only [pair, q, ← hmade]
      rw [Nat.max_eq_right (hmade ▸ hlt).le]
      rfl

end Matched

variable [Inhabited Tensor] {before : List (Call Key Tensor)} {L : Ledger Key Tensor}
    {status : Status}

theorem ledger_matched (h : ∀ c ∈ calls, c.isAbort = false) :
    Matched calls (ledger calls) := by
  induction calls using reverseRecOn with
  | nil =>
    refine ⟨rfl, fun key => rfl, fun key i m q hm => ?_⟩
    simp [sendsOn] at hm
  | append_singleton calls c ih =>
    have ih := ih fun c hc => h c (mem_append_left _ hc)
    rw [ledger_concat]
    cases c with
    | send key sendArgs val isDead => exact ih.send (ledger_made calls) key sendArgs val isDead
    | recvAsync key recvArgs => exact ih.recvAsync (ledger_made calls) key recvArgs
    | startAbort =>
      have habort := h _ (mem_append_right _ (mem_singleton_self _))
      cases habort

structure Aborted (before : List (Call Key Tensor)) (status : Status) (later : List (Call Key Tensor))
    (L : Ledger Key Tensor) : Prop where
  made : L.made = before.length + 1 + later.length
  status_eq : L.status = status
  pending : L.pending = []
  /-- The receives that waited are due to the abort. -/
  waiting : ∀ key, ∀ q ∈ (recvsOn key before).drop (sendsOn key before).length,
    (before.length, ⟨q.number, status, {}, {}, default, false⟩) ∈ L.due
  sends : ∀ (i : Nat) key sendArgs val isDead, later[i]? = some (.send key sendArgs val isDead) →
    (before.length + 1 + i, status) ∈ L.results
  recvs : ∀ (i : Nat) key recvArgs, later[i]? = some (.recvAsync key recvArgs) →
    (before.length + 1 + i, ⟨before.length + 1 + i, status, {}, recvArgs, default, false⟩) ∈ L.due

theorem Matched.startAbort (h : Matched before L) (hmade : L.made = before.length) (status : Status)
    :
    Aborted before status [] (L.call (.startAbort status)) := by
  constructor
  · exact congrArg (· + 1) hmade
  · show L.status.update status = status
    simp [Status.update, h.status]
  · rfl
  · intro key q hq
    have hentry : q.entry ∈ L.entries key := by
      rw [h.entries]
      exact mem_append_right _ (mem_map_of_mem hq)
    obtain ⟨x, hx, hxe⟩ := mem_map.1 hentry
    refine mem_append_right _ (mem_filterMap.2 ⟨x, (mem_filter.1 hx).1, ?_⟩)
    rw [hxe, hmade]
    rfl
  · intro i key sendArgs val isDead hi
    simp at hi
  · intro i key recvArgs hi
    simp at hi

theorem Aborted.call {later : List (Call Key Tensor)}
    (h : Aborted before status later L) (hstatus : status ≠ .ok)
    (c : Call Key Tensor) : Aborted before status (later ++ [c]) (L.call c) := by
  have hlate : L.status ≠ .ok := h.status_eq ▸ hstatus
  have hdue := (L.call_adds c).due
  have hresults : ∀ x ∈ L.results, x ∈ (L.call c).results := by
    intro x hx
    rcases (L.call_adds c).results with heq | ⟨st, heq⟩
    · rwa [heq]
    · rw [heq]
      exact mem_append_left _ hx
  have hsettled : (L.settle c).status = status ∧ (L.settle c).pending = [] := by
    cases c with
    | send =>
      rw [settle_send_late _ _ _ hlate]
      exact ⟨h.status_eq, h.pending⟩
    | recvAsync =>
      rw [settle_recv_late _ hlate]
      exact ⟨h.status_eq, h.pending⟩
    | startAbort => simp [settle, Status.update, h.status_eq, hstatus]
  constructor
  · show L.made + 1 = _
    rw [h.made, length_append, length_singleton, Nat.add_assoc]
  · exact hsettled.1
  · exact hsettled.2
  · exact fun key q hq => hdue.subset (h.waiting key q hq)
  · intro i key sendArgs val isDead hi
    by_cases hlt : i < later.length
    · rw [getElem?_append_left hlt] at hi
      exact hresults _ (h.sends i key sendArgs val isDead hi)
    · obtain ⟨rfl, rfl⟩ := last_of_getElem? hi hlt
      show _ ∈ (L.settle _).results
      rw [settle_send_late _ _ _ hlate]
      refine mem_append_right _ (mem_singleton.2 ?_)
      rw [h.made, h.status_eq]
  · intro i key recvArgs hi
    by_cases hlt : i < later.length
    · rw [getElem?_append_left hlt] at hi
      exact hdue.subset (h.recvs i key recvArgs hi)
    · obtain ⟨rfl, rfl⟩ := last_of_getElem? hi hlt
      show _ ∈ (L.settle _).due
      rw [settle_recv_late _ hlate]
      refine mem_append_right _ (mem_singleton.2 ?_)
      rw [h.made, h.status_eq]

theorem ledger_aborted (h : ∀ c ∈ before, c.isAbort = false)
    (hstatus : status ≠ .ok) (later : List (Call Key Tensor)) :
    Aborted before status later (ledger (before ++ .startAbort status :: later)) := by
  induction later using reverseRecOn with
  | nil =>
    rw [ledger_concat]
    exact (ledger_matched h).startAbort (ledger_made before) status
  | append_singleton later c ih =>
    rw [← cons_append, ← append_assoc, ledger_concat]
    exact ih.call hstatus c

end TfReading.LocalRendezvous
