import TfReading.LocalRendezvous.Calls
import TfReading.LocalRendezvous.Sections

/-!
# What calls in progress hold

An item that was taken out of the table belongs to the call that took it.  `held n` lists the
items of call `n`, and no item has two owners.
-/

namespace TfReading.LocalRendezvous

open Function List

variable {Key Tensor : Type} [DecidableEq Key]

def Rows (heap : Nat → Option (Item Tensor)) (table : Table Key) (ls : Key → List (Cell Tensor)) :
    Prop :=
  ∀ k, QueueOk heap (table.lookup k) (ls k)

def Rest.Holds (heap : Nat → Option (Item Tensor)) : Rest Key Tensor → List (Cell Tensor) → Prop
  | .notify item _ _ _, cells => ∃ e, cells = [(item, e)] ∧ e.isRecv = true
  | .deliver item _, cells => ∃ e, cells = [(item, e)] ∧ e.isRecv = false
  | .report _ _, cells => cells = []
  | .delete item result, cells => (∃ e, cells = [(item, e)]) ∧ ∀ status ∈ result, status = .ok
  | .abort _ table item, cells => ∃ l ls, Listed heap item l ∧ Rows heap table ls ∧
      cells = l ++ table.keys.flatMap ls
  | .release _ table item, cells => ∃ l ls, Listed heap (some item) l ∧ Rows heap table ls ∧
      cells = l ++ table.keys.flatMap ls

variable {heap heap' : Nat → Option (Item Tensor)} {ls : Key → List (Cell Tensor)}
    {table : Table Key} {rest : Rest Key Tensor} {c : Cell Tensor} {cells : List (Cell Tensor)}
    {key : Key}

theorem Rows.mem_keys
    (h : Rows heap table ls) {k : Key} (hc : c ∈ ls k) : k ∈ table.keys := by
  have hk := h k
  cases hl : table.lookup k with
  | none =>
    rw [hl] at hk
    have hnil : ls k = [] := hk
    rw [hnil] at hc
    cases hc
  | some => exact AList.lookup_isSome.1 (by simp [hl])

theorem Rows.congr (h : Rows heap table ls)
    (heq : ∀ c ∈ table.keys.flatMap ls, heap' c.1 = heap c.1) : Rows heap' table ls :=
  fun k => (h k).congr fun c hc => heq c (mem_flatMap.2 ⟨k, h.mem_keys hc, hc⟩)

/-- Which of the queues comes next does not matter to what the call holds. -/
theorem Rows.choose (hrows : Rows heap table ls) {queue : ItemQueue}
    (hmem : ⟨key, queue⟩ ∈ table.entries) :
    ∃ ls', Listed heap queue.head (ls key) ∧ Rows heap (table.erase key) ls' ∧
      (ls key ++ (table.erase key).keys.flatMap ls').Perm (table.keys.flatMap ls) ∧
      table.keys.length = (table.erase key).keys.length + 1 := by
  have hlookup : table.lookup key = some queue := AList.mem_lookup_iff.2 hmem
  have hkey : key ∈ table.keys := AList.lookup_isSome.1 (by simp [hlookup])
  have hqueue := hrows key
  rw [hlookup] at hqueue
  have hperm := perm_cons_erase hkey
  refine ⟨update ls key [], hqueue.1, fun k => ?_, ?_, ?_⟩
  · by_cases hk : k = key
    · rw [hk, AList.lookup_erase, update_self]
      exact rfl
    · rw [AList.lookup_erase_ne hk, update_of_ne hk]
      exact hrows k
  · have hflat : (table.erase key).keys.flatMap (update ls key []) =
        (table.keys.erase key).flatMap ls := by
      rw [AList.keys_erase]
      refine flatMap_congr fun k hk => update_of_ne ?_ _ _
      exact ((List.Nodup.mem_erase_iff table.nodupKeys).1 hk).1
    rw [hflat]
    exact (hperm.flatMap_right ls).symm
  · rw [AList.keys_erase, hperm.length_eq, length_cons]

theorem Rest.Holds.congr (h : rest.Holds heap cells)
    (heq : ∀ c ∈ cells, heap' c.1 = heap c.1) : rest.Holds heap' cells := by
  cases rest with
  | notify item sendArgs val isDead | deliver item recvArgs | report status recvArgs
  | delete => exact h
  | abort status table item | release status table item =>
    obtain ⟨l, ls, hl, hrows, rfl⟩ := h
    exact ⟨l, ls, hl.congr fun c hc => heq c (mem_append_left _ hc),
      hrows.congr fun c hc => heq c (mem_append_right _ hc), rfl⟩

/-- Every item is in one queue or belongs to one call. -/
structure Memory (r : Rendezvous Key Tensor) (running : List (Nat × Rest Key Tensor))
    (q : Key → List (Cell Tensor)) (held : Nat → List (Cell Tensor)) : Prop where
  stored : r.Stored q
  live : ∀ n, ∀ c ∈ held n, (r.heap c.1).map Item.toEntry = some c.2
  nodup : ∀ n, ((held n).map Prod.fst).Nodup
  apart : ∀ n n' c c', c ∈ held n → c' ∈ held n' → c.1 = c'.1 → n = n'
  queued : ∀ n k c c', c ∈ held n → c' ∈ q k → c.1 ≠ c'.1
  holds : ∀ x ∈ running, x.2.Holds r.heap (held x.1)

namespace Memory

variable {r r' : Rendezvous Key Tensor} {running : List (Nat × Rest Key Tensor)}
  {q q' : Key → List (Cell Tensor)} {held : Nat → List (Cell Tensor)}

section

variable (h : Memory r running q held) {l : List (Cell Tensor)} {n : Nat}

include h

theorem lt_fresh (hc : c ∈ held n) :
    c.1 < r.fresh := by
  have hlive := h.live n c hc
  refine Nat.lt_of_not_le fun hle => ?_
  rw [h.stored.unused c.1 hle] at hlive
  cases hlive

/-- The queues change, and no item that a call holds is written. -/
theorem requeue (hstored : r'.Stored q')
    (hheap : ∀ n, ∀ c ∈ held n, r'.heap c.1 = r.heap c.1)
    (hqueued : ∀ n k c c', c ∈ held n → c' ∈ q' k → c.1 ≠ c'.1) : Memory r' running q' held where
  stored := hstored
  live n c hc := by
    rw [hheap n c hc]
    exact h.live n c hc
  nodup := h.nodup
  apart := h.apart
  queued := hqueued
  holds x hx := (h.holds x hx).congr (hheap x.1)

theorem appended {entry : Entry Tensor} (ha : Rendezvous.Appended r r' q key entry) :
    Memory r' running (update q key (q key ++ [(r.fresh, entry)])) held := by
  refine h.requeue ha.1 (fun n c hc => ha.2.heap c.1 fun hw => ?_) fun n k c c' hc hc' heq => ?_
  · rcases hw with hfresh | ⟨c', hc', heq⟩
    · exact Nat.ne_of_lt (h.lt_fresh hc) hfresh
    · exact h.queued n key c c' hc hc' heq.symm
  · by_cases hk : k = key
    · rw [hk, update_self] at hc'
      rcases mem_append.1 hc' with hc' | hc'
      · exact h.queued n key c c' hc hc' heq
      · rw [mem_singleton.1 hc'] at heq
        exact Nat.ne_of_lt (h.lt_fresh hc) heq
    · rw [update_of_ne hk] at hc'
      exact h.queued n k c c' hc hc' heq

theorem consumed (hq : q key = c :: l) (hc : Rendezvous.Consumed r r' q key l) :
    Memory r' running (update q key l) held := by
  refine h.requeue hc.1 (fun n d _ => hc.2.heap d.1 id) fun n k d d' hd hd' => ?_
  by_cases hk : k = key
  · rw [hk, update_self] at hd'
    exact h.queued n key d d' hd (hq ▸ mem_cons_of_mem _ hd')
  · rw [update_of_ne hk] at hd'
    exact h.queued n k d d' hd hd'

/-- Items that no one has are given to a new call. -/
theorem grant (hn : ∀ x ∈ running, x.1 ≠ n) (hholds : rest.Holds r.heap cells)
    (hlive : ∀ c ∈ cells, (r.heap c.1).map Item.toEntry = some c.2)
    (hnodup : (cells.map Prod.fst).Nodup)
    (hapart : ∀ m c c', c ∈ held m → c' ∈ cells → c.1 ≠ c'.1)
    (hqueued : ∀ k c c', c ∈ cells → c' ∈ q k → c.1 ≠ c'.1) :
    Memory r (running ++ [(n, rest)]) q (update held n cells) where
  stored := h.stored
  live m c hc := by
    by_cases hm : m = n
    · rw [hm, update_self] at hc
      exact hlive c hc
    · rw [update_of_ne hm] at hc
      exact h.live m c hc
  nodup m := by
    by_cases hm : m = n
    · rw [hm, update_self]
      exact hnodup
    · rw [update_of_ne hm]
      exact h.nodup m
  apart m m' c c' hc hc' heq := by
    by_cases hm : m = n
    · by_cases hm' : m' = n
      · rw [hm, hm']
      · rw [hm, update_self] at hc
        rw [update_of_ne hm'] at hc'
        exact absurd heq.symm (hapart m' c' c hc' hc)
    · rw [update_of_ne hm] at hc
      by_cases hm' : m' = n
      · rw [hm', update_self] at hc'
        exact absurd heq (hapart m c c' hc hc')
      · rw [update_of_ne hm'] at hc'
        exact h.apart m m' c c' hc hc' heq
  queued m k c c' hc hc' := by
    by_cases hm : m = n
    · rw [hm, update_self] at hc
      exact hqueued k c c' hc hc'
    · rw [update_of_ne hm] at hc
      exact h.queued m k c c' hc hc'
  holds x hx := by
    rcases mem_append.1 hx with hx | hx
    · rw [update_of_ne (hn x hx)]
      exact h.holds x hx
    · rw [mem_singleton.1 hx, update_self]
      exact hholds

/-- The head of a queue is given to the call that took it. -/
theorem take (hq : q key = c :: l) (hc : Rendezvous.Consumed r r' q key l)
    (hn : ∀ x ∈ running, x.1 ≠ n) (hholds : rest.Holds r'.heap [c]) :
    Memory r' (running ++ [(n, rest)]) (update q key l) (update held n [c]) := by
  have hmem : c ∈ q key := hq ▸ mem_cons_self
  have hnodup := (h.stored.queueOk key).1.nodup
  rw [hq, map_cons, nodup_cons] at hnodup
  refine (h.consumed hq hc).grant hn hholds (fun d hd => ?_) (nodup_singleton _)
    (fun m d d' hd hd' => ?_) fun k d d' hd hd' heq => ?_
  · rw [mem_singleton.1 hd, hc.2.heap c.1 id]
    exact (h.stored.queueOk key).1.entries c hmem
  · rw [mem_singleton.1 hd']
    exact h.queued m key d c hd hmem
  · rw [mem_singleton.1 hd] at heq
    by_cases hk : k = key
    · rw [hk, update_self] at hd'
      exact hnodup.1 (heq ▸ mem_map_of_mem hd')
    · rw [update_of_ne hk] at hd'
      exact hk (h.stored.apart key k c d' hmem hd' heq).symm

theorem takeAll (hn : ∀ x ∈ running, x.1 ≠ n) (status status' : Status) :
    Memory { r with status := status', table := ∅ } (running ++ [(n, .abort status r.table none)])
      (fun _ => []) (update held n (r.table.keys.flatMap q)) := by
  have hstored : Rendezvous.Stored { r with status := status', table := ∅ } fun _ => [] :=
    ⟨fun k => by simp [QueueOk], by simp, h.stored.unused⟩
  have hempty : Memory { r with status := status', table := ∅ } running (fun _ => []) held :=
    h.requeue hstored (fun _ _ _ => rfl) (by simp)
  refine hempty.grant hn ⟨[], q, .nil, h.stored.queues, rfl⟩ (fun c hc => ?_) ?_
    (fun m c c' hc hc' => ?_) (by simp)
  · obtain ⟨k, -, hc⟩ := mem_flatMap.1 hc
    exact (h.stored.queueOk k).1.entries c hc
  · rw [map_flatMap, nodup_flatMap]
    refine ⟨fun k _ => (h.stored.queueOk k).1.nodup, ?_⟩
    have hkeys : r.table.keys.Nodup := r.table.nodupKeys
    refine hkeys.imp fun {k k'} hne a ha ha' => ?_
    obtain ⟨c, hc, rfl⟩ := mem_map.1 ha
    obtain ⟨c', hc', heq⟩ := mem_map.1 ha'
    exact hne (h.stored.apart k k' c c' hc hc' heq.symm)
  · obtain ⟨k, -, hc'⟩ := mem_flatMap.1 hc'
    exact h.queued m k c c' hc hc'

end

end Memory
end TfReading.LocalRendezvous
