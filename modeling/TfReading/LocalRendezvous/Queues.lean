import TfReading.Library.LinkedLists
import TfReading.LocalRendezvous.Rendezvous

/-!
# The queues as lists

The linked items of every key are a list of entries.  Appending, taking the head and taking an
item out of the middle are those operations on the list, and write to no item of another key.
-/

namespace TfReading.LocalRendezvous

open LinkedLists Function List
open Cancellation (Token)

variable {Key Tensor : Type} {heap' : Nat → Option (Item Tensor)} {a : Nat}

def Entry.isRecv (e : Entry Tensor) : Bool :=
  match e.state with
  | .recv _ _ => true
  | .send _ _ => false

theorem Entry.isRecv_iff {e : Entry Tensor} : e.isRecv = true ↔ ∃ w t, e.state = .recv w t := by
  cases hs : e.state <;> simp [isRecv, hs]

abbrev Cell (Tensor : Type) := Nat × Entry Tensor

def nextOf (heap : Nat → Option (Item Tensor)) (a : Nat) : Option Nat := (heap a).bind Item.next

structure Listed (heap : Nat → Option (Item Tensor)) (p : Option Nat) (l : List (Cell Tensor)) :
    Prop where
  chain : Chain (nextOf heap) p (l.map Prod.fst)
  entries : ∀ c ∈ l, (heap c.1).map Item.toEntry = some c.2

namespace Listed

variable {heap heap' : Nat → Option (Item Tensor)} {p : Option Nat} {l l1 l2 : List (Cell Tensor)}
  {c : Cell Tensor}

theorem nil : Listed heap none ([] : List (Cell Tensor)) := ⟨rfl, by simp⟩

theorem nodup (h : Listed heap p l) : (l.map Prod.fst).Nodup := h.chain.nodup

theorem eq_nil (h : Listed heap none l) : l = [] := by
  cases l with
  | nil => rfl
  | cons => cases h.chain.1

theorem cons_inv (h : Listed heap (some a) l) : ∃ item l', heap a = some item ∧
    l = (a, item.toEntry) :: l' ∧ Listed heap item.next l' := by
  cases l with
  | nil => cases h.chain
  | cons c l =>
    have ha : a = c.1 := Option.some.inj h.chain.1
    have hc := h.entries c mem_cons_self
    obtain ⟨item, hitem, hentry⟩ := Option.map_eq_some_iff.1 hc
    refine ⟨item, l, ha ▸ hitem, ?_, ?_, fun d hd => h.entries d (mem_cons_of_mem c hd)⟩
    · rw [hentry, ha]
    · have hchain := h.chain.2
      rw [nextOf, hitem] at hchain
      exact hchain

theorem head_eq (h : Listed heap p (c :: l)) : p = some c.1 := h.chain.1

theorem cons_item (h : Listed heap p (c :: l)) :
    ∃ next, heap c.1 = some { c.2 with next := next } ∧ Listed heap next l := by
  have hp := h.head_eq
  subst hp
  obtain ⟨item, l', hitem, hl, hrest⟩ := h.cons_inv
  have hc : c = (c.1, item.toEntry) := (cons.inj hl).1
  refine ⟨item.next, ?_, (cons.inj hl).2 ▸ hrest⟩
  rw [hitem, hc]

theorem item_of_mem (h : Listed heap p l) (hc : c ∈ l) :
    ∃ next, heap c.1 = some { c.2 with next := next } := by
  obtain ⟨item, hitem, hentry⟩ := Option.map_eq_some_iff.1 (h.entries c hc)
  refine ⟨item.next, ?_⟩
  rw [hitem, ← hentry]

theorem congr (h : Listed heap p l) (heq : ∀ c ∈ l, heap' c.1 = heap c.1) : Listed heap' p l := by
  refine ⟨h.chain.congr fun a ha => ?_, fun c hc => ?_⟩
  · obtain ⟨c, hc, rfl⟩ := mem_map.1 ha
    rw [nextOf, nextOf, heq c hc]
  · rw [heq c hc]
    exact h.entries c hc

end Listed

def QueueOk (heap : Nat → Option (Item Tensor)) : Option ItemQueue → List (Cell Tensor) → Prop
  | none, l => l = []
  | some q, l => Listed heap q.head l ∧ ∀ c, l.getLast? = some c → q.tail = some c.1

theorem QueueOk.congr {heap : Nat → Option (Item Tensor)} {o : Option ItemQueue}
    {l : List (Cell Tensor)} (h : QueueOk heap o l) (heq : ∀ c ∈ l, heap' c.1 = heap c.1) :
    QueueOk heap' o l := by
  cases o with
  | none => exact h
  | some => exact ⟨h.1.congr heq, h.2⟩

namespace Rendezvous

variable [DecidableEq Key] {r r' : Rendezvous Key Tensor} {q : Key → List (Cell Tensor)} {key : Key}
    {item : Item Tensor}

structure Stored (r : Rendezvous Key Tensor) (q : Key → List (Cell Tensor)) : Prop where
  queues : ∀ k, QueueOk r.heap (r.table.lookup k) (q k)
  apart : ∀ k k' c c', c ∈ q k → c' ∈ q k' → c.1 = c'.1 → k = k'
  unused : ∀ a, r.fresh ≤ a → r.heap a = none

namespace Stored

theorem queueOk (h : r.Stored q) (key : Key) :
    Listed r.heap (r.queue key).head (q key) ∧
      ∀ c, (q key).getLast? = some c → (r.queue key).tail = some c.1 := by
  have hq := h.queues key
  rw [queue]
  cases hl : r.table.lookup key with
  | none =>
    rw [hl] at hq
    have hnil : q key = [] := hq
    rw [hnil]
    exact ⟨.nil, by simp⟩
  | some =>
    rw [hl] at hq
    exact hq

theorem lt_fresh (h : r.Stored q) {c : Cell Tensor} (hc : c ∈ q key) : c.1 < r.fresh := by
  obtain ⟨next, hitem⟩ := (h.queueOk key).1.item_of_mem hc
  refine Nat.lt_of_not_le fun hle => ?_
  rw [h.unused c.1 hle] at hitem
  cases hitem

theorem replace (h : r.Stored q) {fresh' : Nat} {table' : Table Key} {l : List (Cell Tensor)}
    (htable : ∀ k ≠ key, table'.lookup k = r.table.lookup k)
    (hqueue : QueueOk heap' (table'.lookup key) l)
    (hheap : ∀ k ≠ key, ∀ c ∈ q k, heap' c.1 = r.heap c.1)
    (hapart : ∀ k ≠ key, ∀ c ∈ q k, ∀ c' ∈ l, c.1 ≠ c'.1)
    (hunused : ∀ a, fresh' ≤ a → heap' a = none) :
    Stored { r with heap := heap', fresh := fresh', table := table' } (update q key l) := by
  refine ⟨fun k => ?_, fun k k' c c' hc hc' heq => ?_, hunused⟩
  · by_cases hk : k = key
    · rw [hk, update_self]
      exact hqueue
    · rw [update_of_ne hk]
      simp only [htable k hk]
      exact (h.queues k).congr (hheap k hk)
  · by_cases hk : k = key
    · by_cases hk' : k' = key
      · rw [hk, hk']
      · rw [hk, update_self] at hc
        rw [update_of_ne hk'] at hc'
        exact absurd heq.symm (hapart k' hk' c' hc' c hc)
    · rw [update_of_ne hk] at hc
      by_cases hk' : k' = key
      · rw [hk', update_self] at hc'
        exact absurd heq (hapart k hk c hc c' hc')
      · rw [update_of_ne hk'] at hc'
        exact h.apart k k' c c' hc hc' heq

theorem touch (h : r.Stored q) (key : Key) : (r.touch key).Stored q := by
  have hq : QueueOk r.heap ((r.table.insert key (r.queue key)).lookup key) (q key) := by
    rw [AList.lookup_insert]
    exact h.queueOk key
  have hstored := h.replace (fun k hk => AList.lookup_insert_ne hk) hq (fun _ _ _ _ => rfl)
    (fun k hk c hc c' hc' heq => hk (h.apart k key c c' hc hc' heq)) h.unused
  rw [update_eq_self] at hstored
  exact hstored

end Stored

@[simp] theorem queue_touch (r : Rendezvous Key Tensor) (key : Key) :
    (r.touch key).queue key = r.queue key := by
  simp [touch, setQueue, queue]

/-- What a change of one queue leaves alone: the items elsewhere, the managers and the status. -/
structure Keeps (r r' : Rendezvous Key Tensor) (written : Nat → Prop) : Prop where
  heap : ∀ a, ¬written a → r'.heap a = r.heap a
  fresh : r.fresh ≤ r'.fresh
  status : r'.status = r.status
  managers : r'.managers = r.managers
  refs : r'.refs = r.refs

theorem Stored.alloc (h : r.Stored q) (item : Item Tensor) :
    Stored ({ r with fresh := r.fresh + 1 }.write r.fresh item) q := by
  refine ⟨fun k => (h.queues k).congr fun c hc => ?_, h.apart, fun b hb => ?_⟩
  · exact update_of_ne (Nat.ne_of_lt (h.lt_fresh hc)) _ _
  · have hlt : r.fresh + 1 ≤ b := hb
    show update r.heap r.fresh (some item) b = none
    rw [update_of_ne (by omega)]
    exact h.unused b (by omega)

theorem Stored.relink (h : r.Stored q) {b : Cell Tensor} (hb : b ∈ q key) (next : Option Nat) :
    let heap' := update r.heap b.1 (some { b.2 with next := next })
    (∀ k ≠ key, ∀ c ∈ q k, heap' c.1 = r.heap c.1) ∧ (∀ a, r.fresh ≤ a → heap' a = none) ∧
      ∀ d ∈ q key, (heap' d.1).map Item.toEntry = some d.2 := by
  refine ⟨fun k hk c hc => update_of_ne (fun heq => hk (h.apart k key c b hc hb heq)) _ _,
    fun a ha => ?_, fun d hd => ?_⟩
  · have hlt := h.lt_fresh hb
    rw [update_of_ne (by omega)]
    exact h.unused a ha
  · have hentry := (h.queueOk key).1.entries d hd
    by_cases hdb : d.1 = b.1
    · obtain ⟨link, hitem⟩ := (h.queueOk key).1.item_of_mem hb
      rw [hdb, hitem] at hentry
      rw [hdb, update_self]
      exact hentry
    · rw [update_of_ne hdb]
      exact hentry

/-- Appending an item that is in no queue writes to the one that was the last. -/
theorem pushBack_spec (h : r.Stored q) (key : Key) {entry : Entry Tensor}
    (ha : r.heap a = some { entry with next := none }) (hout : ∀ k, ∀ c ∈ q k, c.1 ≠ a) :
    ∃ r', r.pushBack key a = .ok r' ∧ r'.fresh = r.fresh ∧
      r'.Stored (update q key (q key ++ [(a, entry)])) ∧
      Keeps r r' fun b => ∃ c ∈ q key, c.1 = b := by
  have hapart : ∀ k ≠ key, ∀ c ∈ q k, ∀ c' ∈ q key ++ [(a, entry)], c.1 ≠ c'.1 := by
    intro k hk c hc c' hc' heq
    rcases mem_append.1 hc' with hc' | hc'
    · exact hk (h.apart k key c c' hc hc' heq)
    · rw [mem_singleton.1 hc'] at heq
      exact hout k c hc heq
  have hlisted := (h.queueOk key).1
  cases hlast : (q key).getLast? with
  | none =>
    have hnil : q key = [] := getLast?_eq_none_iff.1 hlast
    have hhead : (r.queue key).head = none := by
      rw [hnil] at hlisted
      exact hlisted.chain
    refine ⟨r.setQueue key ⟨some a, some a⟩, by rw [pushBack, hhead], rfl, ?_,
      fun _ _ => rfl, le_rfl, rfl, rfl, rfl⟩
    refine h.replace (fun k hk => AList.lookup_insert_ne hk) ?_ (fun _ _ _ _ => rfl) hapart h.unused
    rw [AList.lookup_insert, hnil]
    exact ⟨⟨⟨rfl, by simp [nextOf, ha]⟩, by simp [ha]⟩, by simp⟩
  | some c =>
    obtain ⟨l, hl⟩ := getLast?_eq_some_iff.1 hlast
    have hc : c ∈ q key := by
      rw [hl]
      simp
    have htail := (h.queueOk key).2 c hlast
    obtain ⟨next, hitem⟩ := hlisted.item_of_mem hc
    obtain ⟨head, hhead⟩ : ∃ head, (r.queue key).head = some head := by
      cases hh : (r.queue key).head with
      | some head => exact ⟨head, rfl⟩
      | none =>
        rw [hh] at hlisted
        rw [hlisted.eq_nil] at hc
        cases hc
    let heap' := update r.heap c.1 (some { c.2 with next := some a })
    obtain ⟨hheap, hunused, hentries⟩ := h.relink hc (some a)
    have hold : ∀ b, b ≠ c.1 → heap' b = r.heap b := fun b hb => update_of_ne hb _ _
    have hac : a ≠ c.1 := fun heq => hout key c hc heq.symm
    have hother : ∀ d ∈ l, d.1 ≠ c.1 := by
      have hnodup := hlisted.nodup
      rw [hl, map_append, map_singleton] at hnodup
      intro d hd heq
      exact (nodup_append.1 hnodup).2.2 d.1 (mem_map_of_mem hd) c.1 (by simp) heq
    refine ⟨({ r with heap := heap' } : Rendezvous Key Tensor).setQueue key
      { r.queue key with tail := some a }, ?_, rfl, ?_, ?_, le_rfl, rfl, rfl, rfl⟩
    · rw [pushBack, hhead, htail]
      simp only [deref, hitem]
      rfl
    · refine h.replace (fun k hk => AList.lookup_insert_ne hk) ?_ hheap hapart hunused
      rw [AList.lookup_insert]
      refine ⟨⟨?_, ?_⟩, ?_⟩
      · have hchain := hlisted.chain
        rw [hl, map_append, map_singleton] at hchain
        have hgoal : Chain (nextOf heap') (r.queue key).head (l.map Prod.fst ++ [c.1, a]) := by
          refine hchain.replace (fun b hb => ?_) ⟨?_, ?_⟩
          · obtain ⟨d, hd, rfl⟩ := mem_map.1 hb
            rw [nextOf, hold d.1 (hother d hd), nextOf]
          · simp [nextOf, heap']
          · rw [nextOf, hold a hac, ha]
            rfl
        simpa [hl] using hgoal
      · refine forall_mem_append.2 ⟨hentries, forall_mem_singleton.2 ?_⟩
        show (heap' a).map Item.toEntry = some entry
        rw [hold a hac, ha]
        rfl
      · intro d hd
        have hda : (a, entry) = d := by simpa using hd
        rw [← hda]
    · intro b hb
      exact hold b fun heq => hb ⟨c, hc, heq.symm⟩

theorem enqueue_spec (h : r.Stored q) (key : Key) (entry : Entry Tensor) :
    ∃ r', r.enqueue key entry = .ok r' ∧ r'.fresh = r.fresh + 1 ∧
      r'.Stored (update q key (q key ++ [(r.fresh, entry)])) ∧
      Keeps r r' fun a => a = r.fresh ∨ ∃ c ∈ q key, c.1 = a := by
  have hnew : (({ r with fresh := r.fresh + 1 } : Rendezvous Key Tensor).write r.fresh
      { entry with next := none }).heap r.fresh = some { entry with next := none } :=
    update_self _ _ _
  obtain ⟨r', hpush, hfresh, hstored, hkeeps⟩ := pushBack_spec (h.alloc { entry with next := none })
    key hnew fun k c hc => Nat.ne_of_lt (h.lt_fresh hc)
  refine ⟨r', hpush, hfresh, hstored, fun a ha => ?_, ?_, hkeeps.status, hkeeps.managers, hkeeps.refs⟩
  · rw [hkeeps.heap a fun hw => ha (.inr hw)]
    exact update_of_ne (fun heq => ha (.inl heq)) _ _
  · rw [hfresh]
    exact Nat.le_succ _

theorem consume_spec (h : r.Stored q) {l : List (Cell Tensor)} (hq : q key = (a, item.toEntry) :: l)
    (hrest : Listed r.heap item.next l) :
    (r.consume key item).Stored (update q key l) ∧
      Keeps r (r.consume key item) fun _ => False := by
  have hapart : ∀ k ≠ key, ∀ c ∈ q k, ∀ c' ∈ l, c.1 ≠ c'.1 := fun k hk c hc c' hc' heq =>
    hk (h.apart k key c c' hc (by rw [hq]; exact mem_cons_of_mem _ hc') heq)
  rw [consume]
  cases hnext : item.next with
  | none =>
    rw [hnext] at hrest
    refine ⟨?_, fun _ _ => rfl, le_rfl, rfl, rfl, rfl⟩
    refine h.replace (fun k hk => AList.lookup_erase_ne hk) ?_ (fun _ _ _ _ => rfl) hapart h.unused
    rw [AList.lookup_erase]
    exact hrest.eq_nil
  | some =>
    rw [hnext] at hrest
    refine ⟨?_, fun _ _ => rfl, le_rfl, rfl, rfl, rfl⟩
    refine h.replace (fun k hk => AList.lookup_insert_ne hk) ?_ (fun _ _ _ _ => rfl) hapart h.unused
    rw [AList.lookup_insert]
    refine ⟨hrest, fun c hc => (h.queueOk key).2 c ?_⟩
    rw [hq, getLast?_cons, hc]
    rfl

theorem delete_spec (h : r.Stored q) (hitem : r.heap a = some item)
    (hout : ∀ k, ∀ c ∈ q k, c.1 ≠ a) :
    r.delete a = .ok { r with heap := update r.heap a none } ∧
      Stored { r with heap := update r.heap a none } q := by
  refine ⟨?_, fun k => (h.queues k).congr fun c hc => ?_, h.apart, fun b hb => ?_⟩
  · simp only [delete, deref, hitem]
    rfl
  · exact update_of_ne (hout k c hc) _ _
  · by_cases hba : b = a
    · simp [hba]
    · simp only [update_of_ne hba]
      exact h.unused b hb

end Rendezvous
end TfReading.LocalRendezvous
