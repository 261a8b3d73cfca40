import TfReading.LocalRendezvous.Ledger
import TfReading.LocalRendezvous.Memory

/-!
# Going on without the lock

One step of a call in progress: it looks only at items that the call holds, deletes at most one
of them, and moves what the call owes into the history.
-/

namespace TfReading.LocalRendezvous

open List Rest

variable {Key Tensor : Type} {rest : Rest Key Tensor}

/-- What a waiting receive is owed by the `Send` with the number `n`. -/
def sendDue (n : Nat) (sendArgs : Args) (val : Tensor) (isDead : Bool) (e : Entry Tensor) :
    Option (Nat × Invocation Tensor) :=
  match e.state with
  | .send _ _ => none
  | .recv waiter _ => some (n, ⟨waiter.done, .ok, sendArgs, e.args, val, isDead⟩)

/-- What a waiting message makes the `RecvAsync` with the number `n` owe. -/
def recvDue (n : Nat) (recvArgs : Args) (e : Entry Tensor) : Option (Nat × Invocation Tensor) :=
  match e.state with
  | .send value isDead => some (n, ⟨n, .ok, e.args, recvArgs, value, isDead⟩)
  | .recv _ _ => none

/-- The callbacks that call `n`, which holds `cells`, has still to invoke. -/
def Rest.owes [Inhabited Tensor] (n : Nat) :
    Rest Key Tensor → List (Cell Tensor) → List (Nat × Invocation Tensor)
  | .notify _ sendArgs val isDead, cells => cells.filterMap fun c => sendDue n sendArgs val isDead c.2
  | .deliver _ recvArgs, cells => cells.filterMap fun c => recvDue n recvArgs c.2
  | .report status recvArgs, _ => [(n, ⟨n, status, {}, recvArgs, default, false⟩)]
  | .delete _ _, _ => []
  | .abort status _ _, cells => cells.filterMap fun c => abortDue n status c.2
  | .release status _ _, cells => cells.tail.filterMap fun c => abortDue n status c.2

theorem Rest.owes_number [Inhabited Tensor] {n : Nat}
    {cells : List (Cell Tensor)} {x : Nat × Invocation Tensor} (h : x ∈ rest.owes n cells) :
    x.1 = n := by
  have habort : ∀ (l : List (Cell Tensor)) status,
      x ∈ l.filterMap (fun c => abortDue n status c.2) → x.1 = n := by
    intro l status hx
    obtain ⟨c, -, hc⟩ := mem_filterMap.1 hx
    cases hstate : c.2.state <;> simp only [abortDue, hstate, Option.some.injEq, reduceCtorEq] at hc
    rw [← hc]
  cases rest with
  | notify =>
    obtain ⟨c, -, hc⟩ := mem_filterMap.1 h
    cases hstate : c.2.state <;> simp only [sendDue, hstate, Option.some.injEq, reduceCtorEq] at hc
    rw [← hc]
  | deliver =>
    obtain ⟨c, -, hc⟩ := mem_filterMap.1 h
    cases hstate : c.2.state <;> simp only [recvDue, hstate, Option.some.injEq, reduceCtorEq] at hc
    rw [← hc]
  | report => rw [mem_singleton.1 h]
  | delete => cases h
  | abort status => exact habort cells status h
  | release status => exact habort cells.tail status h

def Rest.results (n : Nat) : Rest Key Tensor → List (Nat × Status)
  | .notify _ _ _ _ => [(n, .ok)]
  | .delete _ result => result.toList.map (Prod.mk n)
  | .deliver _ _ => []
  | .report _ _ => []
  | .abort _ _ _ => []
  | .release _ _ _ => []

def Rest.weight : Rest Key Tensor → List (Cell Tensor) → Nat
  | .notify _ _ _ _, _ => 2
  | .deliver _ _, _ => 2
  | .report _ _, _ => 1
  | .delete _ _, _ => 1
  | .abort _ table _, cells => 2 * cells.length + table.keys.length + 1
  | .release _ table _, cells => 2 * cells.length + table.keys.length

variable [DecidableEq Key] [Inhabited Tensor]

structure Advances (s s' : State Key Tensor) (n choice : Nat) (rest : Rest Key Tensor)
    (cells : List (Cell Tensor)) (rest' : Option (Rest Key Tensor)) (cells' : List (Cell Tensor)) :
    Prop where
  calls : s'.calls = s.calls
  running : s'.running = s.running
  table : s'.rendezvous.table = s.rendezvous.table
  fresh : s'.rendezvous.fresh = s.rendezvous.fresh
  status : s'.rendezvous.status = s.rendezvous.status
  heap : ∀ a, s'.rendezvous.heap a = s.rendezvous.heap a ∨
    s'.rendezvous.heap a = none ∧ a ∈ cells.map Prod.fst ∧ a ∉ cells'.map Prod.fst
  subset : cells' ⊆ cells
  nodup : (cells'.map Prod.fst).Nodup
  holds : ∀ x ∈ rest', x.Holds s'.rendezvous.heap cells'
  due : (s'.invocations ++ rest'.toList.flatMap fun x => x.owes n cells').Perm
    (s.invocations ++ rest.owes n cells)
  results : (s'.returned ++ rest'.toList.flatMap fun x => x.results n).Perm
    (s.returned ++ rest.results n)
  /-- With the first of the queues as the choice, the call comes closer to its end. -/
  weight : choice = 0 → (rest'.toList.map fun x => x.weight cells').sum < rest.weight cells

namespace State

variable {s : State Key Tensor} {n choice : Nat} {cells : List (Cell Tensor)} {c : Cell Tensor}

omit [DecidableEq Key] [Inhabited Tensor] in
theorem deref_of_live (h : (s.rendezvous.heap c.1).map Item.toEntry = some c.2) :
    ∃ next, s.rendezvous.deref (some c.1) = .ok { c.2 with next := next } := by
  obtain ⟨item, hitem, hentry⟩ := Option.map_eq_some_iff.1 h
  exact ⟨item.next, by rw [Rendezvous.deref, hitem, ← hentry]⟩

variable {status : Status} {recvArgs sendArgs : Args} {isDead : Bool}

theorem advances_wake {rest' : Rest Key Tensor} {waiter : Waiter}
    {value : Tensor}
    (hnodup : (cells.map Prod.fst).Nodup) (hholds : rest'.Holds s.rendezvous.heap cells)
    (hdue : rest.owes n cells =
      (n, ⟨waiter.done, status, sendArgs, recvArgs, value, isDead⟩) :: rest'.owes n cells)
    (hresults : rest'.results n = rest.results n) (hweight : rest'.weight cells < rest.weight cells) :
    Advances s (s.wake n waiter status sendArgs recvArgs value isDead) n choice rest cells
      (some rest') cells := by
  obtain ⟨hheap, hfresh, htable, hstatus⟩ := s.rendezvous.deregister_eq waiter
  constructor
  · rfl
  · rfl
  · exact htable
  · exact hfresh
  · exact hstatus
  · exact fun a => .inl (congrFun hheap a)
  · exact .refl _
  · exact hnodup
  · intro x hx
    cases hx
    exact hholds.congr fun c _ => congrFun hheap c.1
  · simp [wake, done, hdue]
  · simp [wake, done, hresults]
  · intro _
    simpa using hweight

variable {rest : Rest Key Tensor} {rest' : Option (Rest Key Tensor)}

theorem advances_done {invocation : Invocation Tensor} (hnodup : (cells.map Prod.fst).Nodup)
    (hholds : ∀ x ∈ rest', x.Holds s.rendezvous.heap cells)
    (hdue : rest.owes n cells = (n, invocation) :: rest'.toList.flatMap fun x => x.owes n cells)
    (hresults : (rest'.toList.flatMap fun x => x.results n) = rest.results n)
    (hweight : (rest'.toList.map fun x => x.weight cells).sum < rest.weight cells) :
    Advances s (s.done n invocation) n choice rest cells rest' cells := by
  constructor
  · rfl
  · rfl
  · rfl
  · rfl
  · rfl
  · exact fun a => .inl rfl
  · exact .refl _
  · exact hnodup
  · exact hholds
  · simp [done, hdue]
  · simp [done, hresults]
  · exact fun _ => hweight

/-- The first of its items is deleted by a call. -/
theorem advances_delete (returned : List (Nat × Status))
    (hnodup : ((c :: cells).map Prod.fst).Nodup)
    (hholds : ∀ x ∈ rest', x.Holds s.rendezvous.heap cells)
    (hdue : (rest'.toList.flatMap fun x => x.owes n cells) = rest.owes n (c :: cells))
    (hresults : (returned ++ rest'.toList.flatMap fun x => x.results n) = s.returned ++ rest.results n)
    (hweight : (rest'.toList.map fun x => x.weight cells).sum < rest.weight (c :: cells)) :
    Advances s { s with
      rendezvous := { s.rendezvous with heap := Function.update s.rendezvous.heap c.1 none }
      returned := returned } n choice rest (c :: cells) rest' cells := by
  have hc := nodup_cons.1 hnodup
  constructor
  · rfl
  · rfl
  · rfl
  · rfl
  · rfl
  · intro a
    by_cases ha : a = c.1
    · refine .inr ⟨?_, ?_, ?_⟩
      · simp [ha]
      · simp [ha]
      · rw [ha]
        exact hc.1
    · exact .inl (Function.update_of_ne ha _ _)
  · exact subset_cons_self _ _
  · exact hc.2
  · intro x hx
    refine (hholds x hx).congr fun d hd => Function.update_of_ne ?_ _ _
    exact fun heq => hc.1 (heq ▸ mem_map_of_mem hd)
  · simp [hdue]
  · exact hresults ▸ .refl _
  · exact fun _ => hweight

variable (hlive : ∀ c ∈ cells, (s.rendezvous.heap c.1).map Item.toEntry = some c.2)
include hlive

variable {item : Nat}

theorem continued_notify {val : Tensor}
    (hholds : (notify item sendArgs val isDead : Rest Key Tensor).Holds s.rendezvous.heap cells) :
    ∃ s' rest' cells', s.continued n choice (.notify item sendArgs val isDead) = .ok (s', rest') ∧
      Advances s s' n choice (.notify item sendArgs val isDead) cells rest' cells' := by
  obtain ⟨e, rfl, hrecv⟩ := hholds
  obtain ⟨next, hread⟩ := deref_of_live (hlive _ mem_cons_self)
  obtain ⟨w, t, hstate⟩ := Entry.isRecv_iff.1 hrecv
  refine ⟨s.wake n w .ok sendArgs e.args val isDead, some (.delete item (some .ok)), [(item, e)], ?_, ?_⟩
  · rw [continued, hread]
    simp only [bind, Except.bind, hstate]
  · refine advances_wake (nodup_singleton _) ⟨⟨e, rfl⟩, by simp⟩ ?_ rfl (by simp [weight])
    simp [owes, sendDue, hstate]

theorem continued_deliver
    (hholds : (deliver item recvArgs : Rest Key Tensor).Holds s.rendezvous.heap cells) :
    ∃ s' rest' cells', s.continued n choice (.deliver item recvArgs) = .ok (s', rest') ∧
      Advances s s' n choice (.deliver item recvArgs) cells rest' cells' := by
  obtain ⟨e, rfl, hsend⟩ := hholds
  obtain ⟨next, hread⟩ := deref_of_live (hlive _ mem_cons_self)
  cases hstate : e.state with
  | recv => simp [Entry.isRecv, hstate] at hsend
  | send v d =>
    refine ⟨s.done n ⟨n, .ok, e.args, recvArgs, v, d⟩, some (.delete item none), [(item, e)], ?_, ?_⟩
    · rw [continued, hread]
      simp only [bind, Except.bind, hstate]
    · refine advances_done (nodup_singleton _) ?_ ?_ rfl (by simp [weight])
      · intro x hx
        cases hx
        exact ⟨⟨e, rfl⟩, by simp⟩
      · simp [owes, recvDue, hstate]

theorem continued_delete {result : Option Status}
    (hholds : (delete item result : Rest Key Tensor).Holds s.rendezvous.heap cells) :
    ∃ s' rest' cells', s.continued n choice (.delete item result) = .ok (s', rest') ∧
      Advances s s' n choice (.delete item result) cells rest' cells' := by
  obtain ⟨⟨e, rfl⟩, -⟩ := hholds
  obtain ⟨next, hread⟩ := deref_of_live (hlive _ mem_cons_self)
  refine ⟨_, none, [], ?_, advances_delete (s.returned ++ result.toList.map (.mk n))
    (nodup_singleton _) (by simp) rfl (by simp [results]) (by simp [weight])⟩
  rw [continued, Rendezvous.delete, hread]
  cases result <;> simp [bind, Except.bind, pure, Except.pure, returns]

variable {table : Table Key}

omit hlive in
theorem continued_abort_item (hnodup : (cells.map Prod.fst).Nodup)
    (hholds : (abort status table (some item)).Holds s.rendezvous.heap cells) :
    ∃ s' rest' cells', s.continued n choice (.abort status table (some item)) = .ok (s', rest') ∧
      Advances s s' n choice (.abort status table (some item)) cells rest' cells' := by
  obtain ⟨l, ls, hl, hrows, rfl⟩ := hholds
  obtain ⟨it, l', hitem, rfl, -⟩ := hl.cons_inv
  have hread : s.rendezvous.deref (some item) = .ok it := by rw [Rendezvous.deref, hitem]
  have hholds' : (release status table item).Holds s.rendezvous.heap
      ((item, it.toEntry) :: l' ++ table.keys.flatMap ls) := ⟨_, ls, hl, hrows, rfl⟩
  cases hstate : it.state with
  | recv w =>
    refine ⟨s.wake n w status {} {} default false, some (.release status table item), _, ?_,
      advances_wake hnodup hholds' ?_ rfl (by simp [weight])⟩
    · rw [continued, hread]
      simp only [bind, Except.bind, hstate]
    · simp [owes, abortDue, hstate]
  | send =>
    refine ⟨s, some (.release status table item), (item, it.toEntry) :: l' ++ table.keys.flatMap ls,
      ?_, rfl, rfl, rfl, rfl, rfl, fun a => .inl rfl, .refl _, hnodup, ?_, ?_, ?_, ?_⟩
    · rw [continued, hread]
      simp only [bind, Except.bind, hstate]
    · intro x hx
      cases hx
      exact hholds'
    · simp [owes, abortDue, hstate]
    · simp [results]
    · simp [weight]

omit hlive in
theorem continued_release (hnodup : (cells.map Prod.fst).Nodup)
    (hholds : (release status table item).Holds s.rendezvous.heap cells) :
    ∃ s' rest' cells', s.continued n choice (.release status table item) = .ok (s', rest') ∧
      Advances s s' n choice (.release status table item) cells rest' cells' := by
  obtain ⟨l, ls, hl, hrows, rfl⟩ := hholds
  obtain ⟨it, l', hitem, rfl, hrest⟩ := hl.cons_inv
  have hread : s.rendezvous.deref (some item) = .ok it := by rw [Rendezvous.deref, hitem]
  refine ⟨_, some (.abort status table it.next), l' ++ table.keys.flatMap ls, ?_,
    advances_delete s.returned hnodup ?_ ?_ ?_ ?_⟩
  · rw [continued, Rendezvous.delete, hread]
    rfl
  · intro x hx
    cases hx
    exact ⟨l', ls, hrest, hrows, rfl⟩
  · simp [owes]
  · simp [results]
  · simp only [Option.toList_some, map_cons, map_nil, sum_cons, sum_nil,
      weight, length_cons]
    omega

omit hlive in
theorem continued_abort_queue (hnodup : (cells.map Prod.fst).Nodup)
    (hholds : (abort status table none).Holds s.rendezvous.heap cells) :
    ∃ s' rest' cells', s.continued n choice (.abort status table none) = .ok (s', rest') ∧
      Advances s s' n choice (.abort status table none) cells rest' cells' := by
  have hholds' := hholds
  obtain ⟨l, ls, hl, hrows, rfl⟩ := hholds'
  have hnil := hl.eq_nil
  subst hnil
  cases hentries : table.entries with
  | nil =>
    have hkeys : table.keys = [] := by rw [AList.keys, hentries]; rfl
    refine ⟨s, none, [], ?_, rfl, rfl, rfl, rfl, rfl, fun a => .inl rfl, nil_subset _,
      nodup_nil, by simp, ?_, ?_, ?_⟩
    · simp [continued, hentries]
    · simp [owes, hkeys]
    · simp [results]
    · simp [weight]
  | cons =>
    cases hchoice : table.entries[choice]? with
    | none =>
      refine ⟨s, some (.abort status table none), _, ?_, rfl, rfl, rfl, rfl, rfl, fun a => .inl rfl,
        .refl _, hnodup, ?_, ?_, ?_, ?_⟩
      · rw [continued]
        simp only [hentries] at hchoice ⊢
        simp [hchoice]
      · intro y hy
        cases hy
        exact hholds
      · simp
      · simp
      · intro hzero
        rw [hzero, hentries] at hchoice
        simp at hchoice
    | some y =>
      obtain ⟨key, queue⟩ := y
      obtain ⟨ls', hlisted, hrows', hperm, hlen⟩ := hrows.choose (mem_of_getElem? hchoice)
      refine ⟨s, some (.abort status (table.erase key) queue.head),
        ls key ++ (table.erase key).keys.flatMap ls', ?_, rfl, rfl, rfl, rfl, rfl,
        fun a => .inl rfl, hperm.subset, ?_, ?_, ?_, ?_, ?_⟩
      · rw [continued]
        simp only [hentries] at hchoice ⊢
        simp [hchoice]
      · exact (hperm.map Prod.fst).nodup_iff.2 hnodup
      · intro z hz
        cases hz
        exact ⟨ls key, ls', hlisted, hrows', rfl⟩
      · have hdue := hperm.filterMap fun c : Cell Tensor => abortDue n status c.2
        simpa [owes] using hdue.append_left s.invocations
      · simp [results]
      · intro _
        have hcells := hperm.length_eq
        simp only [Option.toList_some, map_cons, map_nil, sum_cons, sum_nil,
          weight, nil_append]
        omega

/-- A call in progress goes on without a fault. -/
theorem continued_spec (n choice : Nat)
    (hnodup : (cells.map Prod.fst).Nodup) (hholds : rest.Holds s.rendezvous.heap cells) :
    ∃ s' rest' cells', s.continued n choice rest = .ok (s', rest') ∧
      Advances s s' n choice rest cells rest' cells' := by
  cases rest with
  | notify => exact continued_notify hlive hholds
  | deliver => exact continued_deliver hlive hholds
  | report =>
    have hnil : cells = [] := hholds
    subst hnil
    exact ⟨_, _, [], rfl, advances_done nodup_nil (by simp) rfl rfl (by simp [weight])⟩
  | delete => exact continued_delete hlive hholds
  | abort status table item =>
    cases item with
    | none => exact continued_abort_queue hnodup hholds
    | some => exact continued_abort_item hnodup hholds
  | release => exact continued_release hnodup hholds

end State

end TfReading.LocalRendezvous
