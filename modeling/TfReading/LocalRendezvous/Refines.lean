import TfReading.LocalRendezvous.Advance

/-!
# The calls refine the ledger

In every reachable state the queues hold what the ledger has pending, and the callbacks that
were invoked are, with those that the calls in progress owe, the ones that are due.
-/

namespace TfReading.LocalRendezvous

open List Ledger Rendezvous

open Cancellation (kInvalidToken)
open Function

variable {Key Tensor : Type} [DecidableEq Key] [Inhabited Tensor]

def owed (running : List (Nat × Rest Key Tensor)) (held : Nat → List (Cell Tensor)) :
    List (Nat × Invocation Tensor) :=
  running.flatMap fun x => x.2.owes x.1 (held x.1)

def unreturned (running : List (Nat × Rest Key Tensor)) : List (Nat × Status) :=
  running.flatMap fun x => x.2.results x.1

structure Refines (s : State Key Tensor) (q : Key → List (Cell Tensor))
    (held : Nat → List (Cell Tensor)) : Prop where
  memory : Memory s.rendezvous s.running q held
  numbers : (s.running.map Prod.fst).Nodup
  numbers_lt : ∀ x ∈ s.running, x.1 < s.calls.length
  entries : ∀ key, (q key).map Prod.snd = (ledger s.calls).entries key
  status : s.rendezvous.status = (ledger s.calls).status
  due : (s.invocations ++ owed s.running held).Perm (ledger s.calls).due
  results : (s.returned ++ unreturned s.running).Perm (ledger s.calls).results
  checked : ∀ status, .startAbort status ∈ s.calls → status ≠ .ok

variable {s s' : State Key Tensor} {q : Key → List (Cell Tensor)} {held : Nat → List (Cell Tensor)}
    {running : List (Nat × Rest Key Tensor)} {rest' : Option (Rest Key Tensor)}
    {cells' : List (Cell Tensor)} {rest : Rest Key Tensor} {n choice : Nat} {α : Type}

theorem refines_init : Refines ({} : State Key Tensor) (fun _ => []) fun _ => [] where
  memory := ⟨⟨fun _ => rfl, by simp, fun _ _ => rfl⟩, by simp, by simp, by simp, by simp, by simp⟩
  numbers := nodup_nil
  numbers_lt := by simp
  entries _ := rfl
  status := rfl
  due := by simp [owed, ledger]
  results := by simp [unreturned, ledger]
  checked := by simp

omit [DecidableEq Key] in
theorem owed_update (hn : ∀ x ∈ running, x.1 ≠ n)
    (cells : List (Cell Tensor)) : owed running (update held n cells) = owed running held :=
  flatMap_congr fun x hx => by rw [update_of_ne (hn x hx)]

/-! ## A call goes on -/

/-- What moves from one call's debts into the history stays accounted for. -/
theorem perm_exchange {xs xs' o o' A B D : List α} (h : (xs' ++ o').Perm (xs ++ o))
    (hall : (xs ++ (A ++ (o ++ B))).Perm D) : (xs' ++ (A ++ (o' ++ B))).Perm D := by
  have hmove : ∀ ys p : List α, (ys ++ (A ++ (p ++ B))).Perm ((ys ++ p) ++ (A ++ B)) := by
    intro ys p
    rw [append_assoc]
    exact (perm_append_comm_assoc A p B).append_left ys
  exact ((hmove xs' o').trans (h.append_right _)).trans ((hmove xs o).symm.trans hall)

theorem Refines.memory_resume (h : Refines s q held)
    (hadv : Advances s s' n choice rest (held n) rest' cells') {A B : List (Nat × Rest Key Tensor)}
    (hrunning : s.running = A ++ (n, rest) :: B) (hn : ∀ x ∈ A ++ B, x.1 ≠ n) :
    Memory s'.rendezvous (A ++ rest'.toList.map (Prod.mk n) ++ B) q
      (update held n cells') := by
  have hmem := h.memory
  have hkeep : ∀ a, (∀ d ∈ held n, d.1 ≠ a) → s'.rendezvous.heap a = s.rendezvous.heap a := by
    intro a hne
    refine (hadv.heap a).resolve_right fun hgone => ?_
    obtain ⟨d, hd, heq⟩ := mem_map.1 hgone.2.1
    exact hne d hd heq
  have hheld : ∀ m ≠ n, ∀ c ∈ held m, s'.rendezvous.heap c.1 = s.rendezvous.heap c.1 :=
    fun m hm c hc => hkeep c.1 fun d hd heq => hm (hmem.apart m n c d hc hd heq.symm)
  have hold : ∀ m, ∀ c ∈ update held n cells' m,
      c ∈ held m ∧ s'.rendezvous.heap c.1 = s.rendezvous.heap c.1 := by
    intro m c hc
    by_cases hm : m = n
    · rw [hm, update_self] at hc
      rw [hm]
      exact ⟨hadv.subset hc, (hadv.heap c.1).resolve_right fun hgone =>
        hgone.2.2 (mem_map_of_mem hc)⟩
    · rw [update_of_ne hm] at hc
      exact ⟨hc, hheld m hm c hc⟩
  constructor
  · refine ⟨fun k => ?_, hmem.stored.apart, fun a ha => ?_⟩
    · rw [hadv.table]
      exact (hmem.stored.queues k).congr fun c hc => hkeep c.1 fun d hd => hmem.queued n k d c hd hc
    · rcases hadv.heap a with heq | hnone
      · rw [heq]
        exact hmem.stored.unused a (hadv.fresh ▸ ha)
      · exact hnone.1
  · intro m c hc
    rw [(hold m c hc).2]
    exact hmem.live m c (hold m c hc).1
  · intro m
    by_cases hm : m = n
    · rw [hm, update_self]
      exact hadv.nodup
    · rw [update_of_ne hm]
      exact hmem.nodup m
  · exact fun m m' c c' hc hc' => hmem.apart m m' c c' (hold m c hc).1 (hold m' c' hc').1
  · exact fun m k c c' hc => hmem.queued m k c c' (hold m c hc).1
  · intro x hx
    by_cases hxn : x ∈ A ++ B
    · have hx' : x ∈ s.running := by
        rw [hrunning]
        simp only [mem_append, mem_cons] at hxn ⊢
        tauto
      rw [update_of_ne (hn x hxn)]
      exact (hmem.holds x hx').congr (hheld x.1 (hn x hxn))
    · obtain ⟨y, hy, rfl⟩ : ∃ y ∈ rest'.toList, (n, y) = x := by
        simp only [mem_append, mem_map] at hx hxn
        tauto
      rw [update_self]
      exact hadv.holds y (Option.mem_toList.1 hy)

theorem Refines.resume (h : Refines s q held)
    (hadv : Advances s s' n choice rest (held n) rest' cells') {A B : List (Nat × Rest Key Tensor)}
    (hrunning : s.running = A ++ (n, rest) :: B) :
    Refines { s' with running := A ++ rest'.toList.map (Prod.mk n) ++ B } q
      (update held n cells') := by
  have hnumbers := h.numbers
  rw [hrunning, map_append, map_cons, nodup_middle, nodup_cons,
    ← map_append] at hnumbers
  have hn : ∀ x ∈ A ++ B, x.1 ≠ n := fun x hx heq => hnumbers.1 (mem_map.2 ⟨x, hx, heq⟩)
  have hnA : ∀ x ∈ A, x.1 ≠ n := fun x hx => hn x (mem_append_left _ hx)
  have hnB : ∀ x ∈ B, x.1 ≠ n := fun x hx => hn x (mem_append_right _ hx)
  constructor
  · exact h.memory_resume hadv hrunning hn
  · cases rest' with
    | none => simpa using hnumbers.2
    | some =>
      rw [Option.toList_some, map_singleton, append_assoc, map_append,
        singleton_append, map_cons, nodup_middle, nodup_cons, ← map_append]
      exact hnumbers
  · intro x hx
    rw [hadv.calls]
    have hlt := h.numbers_lt
    rw [hrunning] at hlt
    simp only [mem_append, mem_map] at hx
    obtain (hx | ⟨y, -, rfl⟩) | hx := hx
    · exact hlt x (mem_append_left _ hx)
    · exact hlt (n, rest) (mem_append_right _ mem_cons_self)
    · exact hlt x (mem_append_right _ (mem_cons_of_mem _ hx))
  · intro key
    rw [h.entries, hadv.calls]
  · rw [hadv.status, hadv.calls, h.status]
  · have hdue := h.due
    rw [hrunning] at hdue
    rw [hadv.calls]
    have hnew : owed (A ++ rest'.toList.map (.mk n) ++ B) (update held n cells') =
        owed A held ++ ((rest'.toList.flatMap fun x => x.owes n cells') ++ owed B held) := by
      rw [← owed_update hnA cells', ← owed_update hnB cells']
      simp [owed, flatMap_map]
    have hcur : owed (A ++ (n, rest) :: B) held =
        owed A held ++ (rest.owes n (held n) ++ owed B held) := by
      simp [owed]
    rw [hnew]
    rw [hcur] at hdue
    exact perm_exchange hadv.due hdue
  · have hresults := h.results
    rw [hrunning] at hresults
    rw [hadv.calls]
    have hnew : unreturned (A ++ rest'.toList.map (.mk n) ++ B) =
        unreturned A ++ ((rest'.toList.flatMap fun x => x.results n) ++ unreturned B) := by
      simp [unreturned, flatMap_map]
    have hcur : unreturned (A ++ (n, rest) :: B) =
        unreturned A ++ (rest.results n ++ unreturned B) := by
      simp [unreturned]
    rw [hnew]
    rw [hcur] at hresults
    exact perm_exchange hadv.results hresults
  · intro status hstatus
    rw [hadv.calls] at hstatus
    exact h.checked status hstatus

/-! ## A call enters -/

omit [DecidableEq Key] in
theorem owed_spawn (hn : ∀ x ∈ running, x.1 ≠ n)
    (rest : Rest Key Tensor) (cells : List (Cell Tensor)) :
    owed (running ++ [(n, rest)]) (update held n cells) =
      owed running held ++ rest.owes n cells := by
  rw [← owed_update hn cells]
  simp [owed]

omit [DecidableEq Key] [Inhabited Tensor] in
theorem unreturned_spawn (running : List (Nat × Rest Key Tensor)) (n : Nat) (rest : Rest Key Tensor) :
    unreturned (running ++ [(n, rest)]) = unreturned running ++ rest.results n := by
  simp [unreturned]

section

variable (h : Refines s q held) {key : Key}

include h

theorem Refines.numbers_ne : ∀ x ∈ s.running, x.1 ≠ s.calls.length :=
  fun x hx => (h.numbers_lt x hx).ne

theorem Refines.entered {c : Call Key Tensor}
    {q' : Key → List (Cell Tensor)} {held' : Nat → List (Cell Tensor)} {L : Ledger Key Tensor}
    (rest : Option (Rest Key Tensor)) (hsettle : (ledger s.calls).settle c = L)
    (hcalls : s'.calls = s.calls ++ [c])
    (hrunning : s'.running = s.running ++ rest.toList.map (Prod.mk s.calls.length))
    (hmemory : Memory s'.rendezvous s'.running q' held')
    (hentries : ∀ key, (q' key).map Prod.snd = L.entries key)
    (hstatus : s'.rendezvous.status = L.status)
    (hdue : (s'.invocations ++ owed s'.running held').Perm L.due)
    (hresults : (s'.returned ++ unreturned s'.running).Perm L.results)
    (hchecked : ∀ status, c = .startAbort status → status ≠ .ok) : Refines s' q' held' := by
  have hledger : ledger s'.calls = { L with made := (ledger s.calls).made + 1 } := by
    rw [hcalls, ledger_concat, call, hsettle]
  refine ⟨hmemory, ?_, fun x hx => ?_, hledger ▸ hentries, hledger ▸ hstatus, hledger ▸ hdue,
    hledger ▸ hresults, fun status hmem => ?_⟩
  · rw [hrunning, map_append]
    cases rest with
    | none => simpa using h.numbers
    | some =>
      rw [Option.toList_some, map_singleton, map_singleton, ← concat_eq_append]
      refine .concat (fun hmem => ?_) h.numbers
      obtain ⟨y, hy, heq⟩ := mem_map.1 hmem
      exact h.numbers_ne y hy heq
  · rw [hrunning] at hx
    rw [hcalls, length_append, length_singleton]
    rcases mem_append.1 hx with hx | hx
    · exact Nat.lt_succ_of_lt (h.numbers_lt x hx)
    · obtain ⟨y, -, rfl⟩ := mem_map.1 hx
      exact Nat.lt_succ_self _
  · rw [hcalls] at hmem
    rcases mem_append.1 hmem with hmem | hmem
    · exact h.checked status hmem
    · exact hchecked status (mem_singleton.1 hmem).symm

theorem Refines.head {P : Entry Tensor → Prop} :
    (∀ c ∈ (q key).head?, P c.2) ↔ ∀ e ∈ ((ledger s.calls).entries key).head?, P e := by
  rw [← h.entries]
  cases q key <;> simp

theorem Refines.cons_of_entries {e : Entry Tensor}
    {l : List (Entry Tensor)} (hl : (ledger s.calls).entries key = e :: l) :
    ∃ d ds, q key = d :: ds ∧ d.2 = e := by
  rw [← h.entries] at hl
  obtain ⟨d, ds, hq, hd, -⟩ := map_eq_cons_iff.1 hl
  exact ⟨d, ds, hq, hd⟩

theorem Refines.entries_push (key : Key) (a : Nat) (e : Entry Tensor) (k : Key) :
    (update q key (q key ++ [(a, e)]) k).map Prod.snd =
      ((ledger s.calls).push key e).entries k := by
  rw [Ledger.entries_push, ← h.entries]
  by_cases hk : k = key
  · subst hk
    simp
  · simp [hk]

theorem Refines.entries_pop {c : Cell Tensor}
    {l : List (Cell Tensor)} (hq : q key = c :: l) (k : Key) :
    (update q key l k).map Prod.snd = ((ledger s.calls).pop key).entries k := by
  rw [Ledger.entries_pop, ← h.entries]
  by_cases hk : k = key
  · subst hk
    simp [hq]
  · simp [hk]

end

theorem perm_snoc {xs o D : List α} (h : (xs ++ o).Perm D) (a : α) :
    (xs ++ [a] ++ o).Perm (D ++ [a]) := by
  rw [append_assoc]
  exact ((perm_append_comm.append_left xs).trans (by rw [← append_assoc])).trans
    (h.append_right [a])

theorem Refines.send (h : Refines s q held) (key : Key) (sendArgs : Args) (val : Tensor)
    (isDead : Bool) :
    ∃ s' q' held', s.enter (.send key sendArgs val isDead) = .ok s' ∧ Refines s' q' held' := by
  let c : Call Key Tensor := .send key sendArgs val isDead
  have hmade : (ledger s.calls).made = s.calls.length := ledger_made s.calls
  have hno : ∀ status, c = .startAbort status → status ≠ .ok := by simp [c]
  have hstored := h.memory.stored
  obtain ⟨hstatus, hsettle⟩ | ⟨hstatus, hhead, hsettle⟩ | ⟨e, l, w, t, hstatus, hl, he, hsettle⟩ :=
    settle_send_cases sendArgs val isDead (ledger s.calls) key
  · have hsend : s.rendezvous.send key sendArgs val isDead = _ := if_neg (h.status ▸ hstatus)
    refine ⟨{ s with
      calls := s.calls ++ [c]
      returned := s.returned ++ [(s.calls.length, s.rendezvous.status)] }, q, held, ?_,
      h.entered none hsettle rfl (append_nil _).symm h.memory h.entries h.status h.due ?_ hno⟩
    · simp only [State.enter, hsend, bind, Except.bind]
      rfl
    · rw [h.status, ← hmade]
      exact perm_snoc h.results _
  · obtain ⟨r', hsend, happended⟩ := send_push sendArgs val isDead hstored
      (h.status.trans hstatus) (h.head.2 hhead)
    refine ⟨{ s with
      rendezvous := r'
      calls := s.calls ++ [c]
      returned := s.returned ++ [(s.calls.length, .ok)] }, _, held, ?_,
      h.entered none hsettle rfl (append_nil _).symm (h.memory.appended happended)
        (h.entries_push key _ _) (happended.2.status.trans h.status) h.due ?_ hno⟩
    · simp only [State.enter, hsend, bind, Except.bind]
      rfl
    · rw [← hmade]
      exact perm_snoc h.results _
  · obtain ⟨d, ds, hq, hde⟩ := h.cons_of_entries hl
    have hrecv : d.2.isRecv = true := Entry.isRecv_iff.2 ⟨w, t, hde ▸ he⟩
    obtain ⟨r', hsend, hconsumed⟩ := send_pop sendArgs val isDead hstored
      (h.status.trans hstatus) hq hrecv
    let rest : Rest Key Tensor := .notify d.1 sendArgs val isDead
    have howes : rest.owes s.calls.length [d] =
        [(s.calls.length, ⟨w.done, .ok, sendArgs, e.args, val, isDead⟩)] := by
      simp [rest, Rest.owes, sendDue, hde, he]
    refine ⟨{ s with
      rendezvous := r'
      calls := s.calls ++ [c]
      running := s.running ++ [(s.calls.length, rest)] }, _, _, ?_,
      h.entered (some rest) hsettle rfl rfl
        (h.memory.take hq hconsumed h.numbers_ne ⟨d.2, rfl, hrecv⟩) (h.entries_pop hq)
        (hconsumed.2.status.trans h.status) ?_ ?_ hno⟩
    · simp only [State.enter, hsend, bind, Except.bind]
      rfl
    · rw [owed_spawn h.numbers_ne, howes, ← append_assoc, ← hmade]
      exact h.due.append_right _
    · rw [unreturned_spawn, ← append_assoc, ← hmade]
      exact h.results.append_right _

theorem Refines.recvAsync (h : Refines s q held) (key : Key) (recvArgs : Args)
    (hcm : recvArgs.cancellationManager = none) :
    ∃ s' q' held', s.enter (.recvAsync key recvArgs) = .ok s' ∧ Refines s' q' held' := by
  let c : Call Key Tensor := .recvAsync key recvArgs
  have hmade : (ledger s.calls).made = s.calls.length := ledger_made s.calls
  have hno : ∀ status, c = .startAbort status → status ≠ .ok := by simp [c]
  have hstored := h.memory.stored
  obtain ⟨hstatus, hsettle⟩ | ⟨hstatus, hhead, hsettle⟩ | ⟨e, l, v, b, hstatus, hl, he, hsettle⟩ :=
    settle_recv_cases recvArgs (ledger s.calls) key
  · have hrecv : s.rendezvous.recvAsync key recvArgs s.calls.length = _ :=
      if_neg (h.status ▸ hstatus)
    let rest : Rest Key Tensor := .report s.rendezvous.status recvArgs
    have hmemory : Memory s.rendezvous (s.running ++ [(s.calls.length, rest)]) q
        (update held s.calls.length []) :=
      h.memory.grant h.numbers_ne rfl (by simp) nodup_nil (by simp) (by simp)
    refine ⟨{ s with
      calls := s.calls ++ [c]
      running := s.running ++ [(s.calls.length, rest)] }, q, _, ?_,
      h.entered (some rest) hsettle rfl rfl hmemory h.entries h.status ?_ ?_ hno⟩
    · simp only [State.enter, hrecv, bind, Except.bind]
      rfl
    · rw [owed_spawn h.numbers_ne, ← append_assoc, hmade, ← h.status, owe, hmade]
      exact h.due.append_right _
    · rw [unreturned_spawn, ← append_assoc]
      simpa [rest, Rest.results, owe, pop] using h.results
  · obtain ⟨r', hrecv, happended⟩ := recvAsync_push recvArgs s.calls.length hstored
      (h.status.trans hstatus) (h.head.2 hhead) hcm
    rw [hmade] at hsettle
    refine ⟨{ s with rendezvous := r', calls := s.calls ++ [c] }, _, held, ?_,
      h.entered none hsettle rfl (append_nil _).symm (h.memory.appended happended)
        (h.entries_push key _ _) (happended.2.status.trans h.status) h.due h.results hno⟩
    simp only [State.enter, hrecv, bind, Except.bind]
    rfl
  · obtain ⟨d, ds, hq, hde⟩ := h.cons_of_entries hl
    have hsend : d.2.isRecv = false := by simp [Entry.isRecv, hde, he]
    obtain ⟨r', hrecv, hconsumed⟩ := recvAsync_pop recvArgs s.calls.length hstored
      (h.status.trans hstatus) hq hsend
    let rest : Rest Key Tensor := .deliver d.1 recvArgs
    have howes : rest.owes s.calls.length [d] =
        [(s.calls.length, ⟨s.calls.length, .ok, e.args, recvArgs, v, b⟩)] := by
      simp [rest, Rest.owes, recvDue, hde, he]
    refine ⟨{ s with
      rendezvous := r'
      calls := s.calls ++ [c]
      running := s.running ++ [(s.calls.length, rest)] }, _, _, ?_,
      h.entered (some rest) hsettle rfl rfl
        (h.memory.take hq hconsumed h.numbers_ne ⟨d.2, rfl, hsend⟩) (h.entries_pop hq)
        (hconsumed.2.status.trans h.status) ?_ ?_ hno⟩
    · simp only [State.enter, hrecv, bind, Except.bind]
      rfl
    · rw [owed_spawn h.numbers_ne, howes, ← append_assoc, hmade, owe]
      exact hmade ▸ h.due.append_right _
    · rw [unreturned_spawn, ← append_assoc]
      simpa [rest, Rest.results, owe, pop] using h.results

theorem Refines.perm_pending (h : Refines s q held) :
    ((s.rendezvous.table.keys.flatMap q).map Prod.snd).Perm ((ledger s.calls).pending.map Prod.snd) := by
  have hflat : (s.rendezvous.table.keys.flatMap q).map Prod.snd =
      s.rendezvous.table.keys.flatMap (ledger s.calls).entries := by
    rw [map_flatMap]
    exact flatMap_congr fun k _ => h.entries k
  have hrows : Rows s.rendezvous.heap s.rendezvous.table q := h.memory.stored.queues
  rw [hflat]
  refine perm_entries s.rendezvous.table.nodupKeys fun x hx => ?_
  have hentry : x.2 ∈ (ledger s.calls).entries x.1 :=
    mem_map_of_mem (mem_filter.2 ⟨hx, by simp⟩)
  rw [← h.entries] at hentry
  obtain ⟨c, hc, -⟩ := mem_map.1 hentry
  exact hrows.mem_keys hc

theorem Refines.startAbort (h : Refines s q held) {status : Status} (hstatus : status ≠ .ok) :
    ∃ s' q' held', s.enter (.startAbort status) = .ok s' ∧ Refines s' q' held' := by
  let c : Call Key Tensor := .startAbort status
  have hmade : (ledger s.calls).made = s.calls.length := ledger_made s.calls
  have hno : ∀ status', c = .startAbort status' → status' ≠ .ok :=
    fun status' heq => Call.startAbort.inj heq ▸ hstatus
  have habort : s.rendezvous.startAbort status = .ok (s.rendezvous.table,
      { s.rendezvous with status := s.rendezvous.status.update status, table := ∅ }) := by
    rw [Rendezvous.startAbort, if_neg hstatus]
  let rest : Rest Key Tensor := .abort status s.rendezvous.table none
  refine ⟨{ s with
    rendezvous := { s.rendezvous with status := s.rendezvous.status.update status, table := ∅ }
    calls := s.calls ++ [c]
    running := s.running ++ [(s.calls.length, rest)] }, _, _, ?_,
    h.entered (some rest) rfl rfl rfl (h.memory.takeAll h.numbers_ne status _) ?_ ?_ ?_ ?_ hno⟩
  · simp only [State.enter, habort, bind, Except.bind]
    rfl
  · exact fun key => rfl
  · show s.rendezvous.status.update status = (ledger s.calls).status.update status
    rw [h.status]
  · have hperm := h.perm_pending.filterMap (abortDue s.calls.length status)
    rw [filterMap_map, filterMap_map] at hperm
    rw [owed_spawn h.numbers_ne, ← append_assoc]
    refine h.due.append ?_
    rw [hmade]
    exact hperm
  · rw [unreturned_spawn, ← append_assoc]
    simpa [rest, Rest.results, settle] using h.results

/-- Every step leads to a state that refines the ledger, and the only fault is the `CHECK` of
`StartAbort`. -/
theorem Refines.next (h : Refines s q held) {a : Label Key Tensor} (ha : State.Unmanaged a) :
    (a = .enter (.startAbort .ok) ∧ s.next a = .error .checkFailed) ∨
      ∃ s' q' held', s.next a = .ok s' ∧ Refines s' q' held' := by
  cases a with
  | enter c =>
    cases c with
    | send key sendArgs val isDead => exact .inr (h.send key sendArgs val isDead)
    | recvAsync key recvArgs => exact .inr (h.recvAsync key recvArgs ha)
    | startAbort status =>
      by_cases hstatus : status = .ok
      · exact .inl ⟨by rw [hstatus], by rw [hstatus]; rfl⟩
      · exact .inr (h.startAbort hstatus)
  | resume index choice =>
    refine .inr ?_
    cases hindex : s.running[index]? with
    | none => exact ⟨s, q, held, by rw [State.next, hindex], h⟩
    | some x =>
      obtain ⟨n, rest⟩ := x
      have hx := mem_of_getElem? hindex
      obtain ⟨s', rest', cells', hcontinued, hadv⟩ := State.continued_spec (h.memory.live n) n choice
        (h.memory.nodup n) (h.memory.holds _ hx)
      have hsplit : s.running = s.running.take index ++ (n, rest) :: s.running.drop (index + 1) := by
        obtain ⟨hlt, hget⟩ := List.getElem?_eq_some_iff.1 hindex
        rw [← hget, ← drop_eq_getElem_cons hlt, take_append_drop]
      refine ⟨_, q, _, ?_, h.resume hadv hsplit⟩
      simp only [State.next, hindex, hcontinued, bind, Except.bind, hadv.running]

theorem refines_of_reachable (h : (system Key Tensor).Reachable s) : ∃ q held, Refines s q held := by
  refine h.invariant (P := fun s => ∃ q held, Refines s q held) (fun s hs => ?_) fun s a s' ih hs => ?_
  · cases hs
    exact ⟨_, _, refines_init⟩
  · obtain ⟨q, held, ih⟩ := ih
    obtain ⟨-, herror⟩ | ⟨s1, q', held', hnext, hrefines⟩ := ih.next hs.1
    · rw [hs.2] at herror
      cases herror
    · rw [hs.2] at hnext
      cases hnext
      exact ⟨q', held', hrefines⟩

end TfReading.LocalRendezvous
