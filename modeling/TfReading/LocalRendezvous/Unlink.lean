import TfReading.LocalRendezvous.Sections

/-!
# Taking an item out by its token

The cancellation callback searches a queue of receives for the first item with a token and
passes over it: `cancelItem` erases the first such entry of the list.
-/

namespace TfReading.LocalRendezvous

open LinkedLists List Function
open Cancellation (Token)

variable {Key Tensor : Type}

def Entry.hasToken (token : Token) (e : Entry Tensor) : Bool :=
  match e.state with
  | .recv _ token' => decide (token' = token)
  | .send _ _ => false

namespace Rendezvous

variable {r r' : Rendezvous Key Tensor} {q : Key → List (Cell Tensor)} {key : Key}
    {p prev : Option Nat} {l l1 l2 : List (Cell Tensor)} {c : Cell Tensor} {token : Token}

theorem findToken_step [DecidableEq Key] {fuel : Nat} {next : Option Nat}
    (hitem : r.heap c.1 = some { c.2 with next := next }) (hrecv : c.2.isRecv = true) :
    r.findToken token (fuel + 1) prev (some c.1) =
      if c.2.hasToken token then .ok (some (prev, c.1))
      else r.findToken token fuel (some c.1) next := by
  obtain ⟨w, t, hstate⟩ := Entry.isRecv_iff.1 hrecv
  have hread : r.deref (some c.1) = .ok { c.2 with next := next } := by rw [deref, hitem]
  have htoken : c.2.hasToken token = decide (t = token) := by rw [Entry.hasToken, hstate]
  simp only [findToken, hread, htoken, decide_eq_true_eq, bind, Except.bind, hstate]
  rfl

theorem findToken_none [DecidableEq Key] (fuel : Nat) (h : Listed r.heap p l)
    (hrecv : ∀ c ∈ l, c.2.isRecv = true) (hno : ∀ c ∈ l, c.2.hasToken token = false)
    (hfuel : l.length ≤ fuel) : r.findToken token fuel prev p = .ok none := by
  induction l generalizing fuel p prev with
  | nil =>
    rw [h.chain]
    cases fuel <;> rfl
  | cons c l ih =>
    cases fuel with
    | zero => simp at hfuel
    | succ fuel =>
      obtain ⟨next, hitem, hrest⟩ := h.cons_item
      rw [h.head_eq, findToken_step hitem (hrecv c mem_cons_self),
        hno c mem_cons_self]
      exact ih fuel hrest (fun d hd => hrecv d (mem_cons_of_mem _ hd))
        (fun d hd => hno d (mem_cons_of_mem _ hd)) (by simpa using hfuel)

theorem findToken_some [DecidableEq Key] (fuel : Nat)
    (h : Listed r.heap p (l1 ++ c :: l2)) (hrecv : ∀ d ∈ l1 ++ c :: l2, d.2.isRecv = true)
    (hno : ∀ d ∈ l1, d.2.hasToken token = false) (hc : c.2.hasToken token = true)
    (hfuel : l1.length < fuel) :
    r.findToken token fuel prev p = .ok (some ((l1.getLast?.map Prod.fst).or prev, c.1)) := by
  induction l1 generalizing fuel p prev with
  | nil =>
    cases fuel with
    | zero => simp at hfuel
    | succ =>
      have hlisted : Listed r.heap p (c :: l2) := h
      obtain ⟨next, hitem, hrest⟩ := hlisted.cons_item
      rw [hlisted.head_eq, findToken_step hitem (hrecv c mem_cons_self), hc]
      rfl
  | cons d l1 ih =>
    cases fuel with
    | zero => simp at hfuel
    | succ fuel =>
      have hlisted : Listed r.heap p (d :: (l1 ++ c :: l2)) := h
      obtain ⟨next, hitem, hrest⟩ := hlisted.cons_item
      rw [hlisted.head_eq, findToken_step hitem (hrecv d mem_cons_self),
        hno d mem_cons_self]
      rw [ih fuel hrest (fun d hd => hrecv d (mem_cons_of_mem _ hd))
        (fun d hd => hno d (mem_cons_of_mem _ hd)) (by simpa using hfuel)]
      cases hlast : l1.getLast? <;> simp [getLast?_cons, hlast]

variable [DecidableEq Key]

theorem Stored.tail_eq_iff (h : r.Stored q) (hq : q key = l1 ++ c :: l2) :
    (r.queue key).tail = some c.1 ↔ l2 = [] := by
  obtain ⟨hlisted, htail⟩ := h.queueOk key
  have hnodup := hlisted.nodup
  rw [hq, map_append, map_cons, nodup_append, nodup_cons] at hnodup
  rw [hq] at htail
  constructor
  · intro heq
    cases hlast : l2.getLast? with
    | none => exact getLast?_eq_none_iff.1 hlast
    | some d =>
      have hd : (r.queue key).tail = some d.1 := htail d (by simp [getLast?_cons, hlast])
      have hcd : c.1 = d.1 := Option.some.inj (heq.symm.trans hd)
      refine absurd ?_ hnodup.2.1.1
      rw [hcd]
      exact mem_map_of_mem (mem_of_getLast? hlast)
  · intro hnil
    exact htail c (by simp [hnil])

theorem unlink_head (h : r.Stored q) (hq : q key = c :: l) (hl : l ≠ []) :
    ∃ r', r.unlink key none c.1 = .ok r' ∧ r'.Stored (update q key l) ∧
      Keeps r r' fun _ => False := by
  obtain ⟨hlisted, htail⟩ := h.queueOk key
  rw [hq] at hlisted htail
  obtain ⟨next, hitem, hrest⟩ := hlisted.cons_item
  have hread : r.deref (some c.1) = .ok { c.2 with next := next } := by rw [deref, hitem]
  have hne : (r.queue key).tail ≠ some c.1 := fun heq =>
    hl ((h.tail_eq_iff (show q key = [] ++ c :: l from hq)).1 heq)
  refine ⟨r.setQueue key { r.queue key with head := next }, ?_, ?_, fun _ _ => rfl, le_rfl,
    rfl, rfl, rfl⟩
  · have hqueue : (r.setQueue key { r.queue key with head := next }).queue key =
        { r.queue key with head := next } := by simp [queue, setQueue]
    rw [unlink, hread]
    simp only [bypass, hlisted.head_eq, if_true, bind, Except.bind, hqueue, if_neg hne]
    rfl
  · refine h.replace (fun k hk => AList.lookup_insert_ne hk) ?_ (fun _ _ _ _ => rfl) ?_ h.unused
    · rw [AList.lookup_insert]
      refine ⟨hrest, fun d hd => htail d ?_⟩
      simp [getLast?_cons, hd]
    · exact fun k hk d hd d' hd' heq =>
        hk (h.apart k key d d' hd (hq ▸ mem_cons_of_mem _ hd') heq)

theorem unlink_behind (h : r.Stored q) {b : Cell Tensor} (hq : q key = l1 ++ b :: c :: l2) :
    ∃ r', r.unlink key (some b.1) c.1 = .ok r' ∧ r'.Stored (update q key (l1 ++ b :: l2)) ∧
      Keeps r r' fun a => a = b.1 := by
  obtain ⟨hlisted, htail⟩ := h.queueOk key
  have hsplit : q key = (l1 ++ [b]) ++ c :: l2 := by rw [hq]; simp
  have htail_iff := h.tail_eq_iff hsplit
  rw [hq] at hlisted htail
  have hmem : ∀ d ∈ l1 ++ b :: l2, d ∈ q key := by
    intro d hd
    rw [hq]
    simp only [mem_append, mem_cons] at hd ⊢
    tauto
  have hb : b ∈ q key := hmem b (by simp)
  obtain ⟨next, hc⟩ := hlisted.item_of_mem (show c ∈ l1 ++ b :: c :: l2 by simp)
  obtain ⟨link, hbitem⟩ := hlisted.item_of_mem (show b ∈ l1 ++ b :: c :: l2 by simp)
  have hnodup := hlisted.nodup
  rw [map_append, map_cons, map_cons] at hnodup
  have hcb : c.1 ≠ b.1 := fun heq =>
    (nodup_cons.1 (nodup_append.1 hnodup).2.1).1 (heq ▸ mem_cons_self)
  have hother : ∀ d ∈ l1 ++ l2, d.1 ≠ b.1 := by
    intro d hd heq
    rw [nodup_middle, nodup_cons] at hnodup
    refine hnodup.1 ?_
    rw [← heq]
    simp only [mem_append, mem_cons, mem_map] at hd ⊢
    exact hd.imp (fun hd => ⟨d, hd, rfl⟩) fun hd => .inr ⟨d, hd, rfl⟩
  have hhead : (r.queue key).head ≠ some c.1 := by
    intro heq
    cases l1 with
    | nil =>
      have hbhead : (r.queue key).head = some b.1 := hlisted.head_eq
      exact hcb (Option.some.inj (heq.symm.trans hbhead))
    | cons d =>
      have hdhead : (r.queue key).head = some d.1 := hlisted.head_eq
      have hdc : d.1 = c.1 := Option.some.inj (hdhead.symm.trans heq)
      simp [hdc] at hnodup
  let heap' := update r.heap b.1 (some { b.2 with next := next })
  obtain ⟨hheap, hunused, hentries⟩ := h.relink hb next
  have hold : ∀ a, a ≠ b.1 → heap' a = r.heap a := fun a ha => update_of_ne ha _ _
  have hcells : Listed heap' (r.queue key).head (l1 ++ b :: l2) := by
    refine ⟨?_, fun d hd => hentries d (hmem d hd)⟩
    have hchain := hlisted.chain
    rw [map_append, map_cons, map_cons] at hchain
    rw [map_append, map_cons]
    refine hchain.unlink (fun a ha => ?_) ?_
    · rw [← map_append] at ha
      obtain ⟨d, hd, rfl⟩ := mem_map.1 ha
      rw [nextOf, hold d.1 (hother d hd), nextOf]
    · simp [nextOf, heap', hc]
  have hapart : ∀ k ≠ key, ∀ d ∈ q k, ∀ d' ∈ l1 ++ b :: l2, d.1 ≠ d'.1 := fun k hk d hd d' hd' heq =>
    hk (h.apart k key d d' hd (hmem d' hd') heq)
  have hreadc : r.deref (some c.1) = .ok { c.2 with next := next } := by rw [deref, hc]
  have hreadb : r.deref (some b.1) = .ok { b.2 with next := link } := by rw [deref, hbitem]
  let r1 : Rendezvous Key Tensor := { r with heap := heap' }
  by_cases hlast : l2 = []
  · refine ⟨r1.setQueue key { r.queue key with tail := some b.1 }, ?_, ?_, hold, le_rfl,
      rfl, rfl, rfl⟩
    · rw [unlink, hreadc]
      simp only [bypass, if_neg hhead, hreadb, bind, Except.bind, pure, Except.pure]
      exact if_pos (htail_iff.2 hlast)
    · refine h.replace (fun k hk => AList.lookup_insert_ne hk) ?_ hheap hapart hunused
      rw [AList.lookup_insert]
      refine ⟨hcells, fun d hd => ?_⟩
      have hbd : b = d := by simpa [hlast] using hd
      rw [← hbd]
  · refine ⟨r1, ?_, ?_, hold, le_rfl, rfl, rfl, rfl⟩
    · rw [unlink, hreadc]
      simp only [bypass, if_neg hhead, hreadb, bind, Except.bind, pure, Except.pure]
      exact if_neg fun heq => hlast (htail_iff.1 heq)
    · have hsame : ∀ k ≠ key, r.table.lookup k = r.table.lookup k := fun _ _ => rfl
      refine h.replace hsame ?_ hheap hapart hunused
      have hqueue := h.queues key
      cases hlookup : r.table.lookup key with
      | none =>
        rw [hlookup, hq] at hqueue
        simp [QueueOk] at hqueue
      | some qu =>
        have hqu : r.queue key = qu := by simp [queue, hlookup]
        rw [hqu] at hcells htail
        refine ⟨hcells, fun d hd => htail d ?_⟩
        obtain ⟨e, he⟩ := Option.isSome_iff_exists.1 (getLast?_isSome.2 hlast)
        simpa [getLast?_append, getLast?_cons, he] using hd

theorem Stored.length_le (h : r.Stored q) : (q key).length ≤ r.fresh := by
  have hsub : (q key).map Prod.fst ⊆ range r.fresh := by
    intro a ha
    obtain ⟨c, hc, rfl⟩ := mem_map.1 ha
    exact mem_range.2 (h.lt_fresh hc)
  have hle := (subperm_of_subset (h.queueOk key).1.nodup hsub).length_le
  simpa using hle

variable (callback : CancelCallback Key)

theorem cancelItem_none (h : r.Stored q)
    (hkind : (∀ c ∈ q callback.key, c.2.isRecv = true) ∨ ∀ c ∈ q callback.key, c.2.isRecv = false)
    (hno : ∀ c ∈ q callback.key, c.2.hasToken callback.token = false) :
    r.cancelItem callback = .ok (none, r.touch callback.key) := by
  rw [cancelItem]
  cases hq : q callback.key with
  | nil => simp only [queue_touch, h.head_none hq]
  | cons c =>
    obtain ⟨hhead, next, hread, -⟩ := (h.touch callback.key).deref_head hq
    have hc : c ∈ q callback.key := hq ▸ mem_cons_self
    simp only [hhead, hread, bind, Except.bind]
    cases hstate : c.2.state with
    | send => rfl
    | recv =>
      have hrecv : ∀ c ∈ q callback.key, c.2.isRecv = true := by
        refine hkind.resolve_right fun hsend => ?_
        have hfalse := hsend c hc
        simp [Entry.isRecv, hstate] at hfalse
      have hlisted := ((h.touch callback.key).queueOk callback.key).1
      rw [hhead] at hlisted
      have hlen : (q callback.key).length ≤ (r.touch callback.key).fresh :=
        (h.touch callback.key).length_le
      simp only [findToken_none _ hlisted hrecv hno hlen]
      rfl

/-- Taking an item out of a queue with others, whether or not it is the first. -/
theorem unlink_spec (h : r.Stored q) (hq : q key = l1 ++ c :: l2) (hlong : l1 ++ l2 ≠ []) :
    ∃ r', r.unlink key (l1.getLast?.map Prod.fst) c.1 = .ok r' ∧
      r'.Stored (update q key (l1 ++ l2)) ∧ Keeps r r' fun a => ∃ d ∈ l1, d.1 = a := by
  cases hlast : l1.getLast? with
  | none =>
    have hnil := getLast?_eq_none_iff.1 hlast
    subst hnil
    obtain ⟨r', hunlink, hstored, hkeeps⟩ := unlink_head h hq hlong
    exact ⟨r', hunlink, hstored, fun a _ => hkeeps.heap a id, hkeeps.fresh, hkeeps.status,
      hkeeps.managers, hkeeps.refs⟩
  | some b =>
    obtain ⟨l, hl⟩ := getLast?_eq_some_iff.1 hlast
    subst hl
    have hsplit : q key = l ++ b :: c :: l2 := by rw [hq]; simp
    obtain ⟨r', hunlink, hstored, hkeeps⟩ := unlink_behind h hsplit
    refine ⟨r', hunlink, ?_, fun a ha => hkeeps.heap a fun heq => ha ⟨b, by simp, heq.symm⟩,
      hkeeps.fresh, hkeeps.status, hkeeps.managers, hkeeps.refs⟩
    rwa [append_assoc]

theorem cancelItem_some (h : r.Stored q) (hq : q callback.key = l1 ++ c :: l2)
    (hrecv : ∀ d ∈ q callback.key, d.2.isRecv = true)
    (hno : ∀ d ∈ l1, d.2.hasToken callback.token = false) (hc : c.2.hasToken callback.token = true) :
    ∃ r', r.cancelItem callback = .ok (some c.1, r') ∧
      r'.Stored (update q callback.key (l1 ++ l2)) ∧
      Keeps r r' fun a => ∃ d ∈ l1, d.1 = a := by
  have htouch := h.touch callback.key
  obtain ⟨first, rest, hcons⟩ : ∃ first rest, q callback.key = first :: rest := by
    cases l1 with
    | nil => exact ⟨c, l2, hq⟩
    | cons d l1 => exact ⟨d, l1 ++ c :: l2, hq⟩
  obtain ⟨hhead, next, hread, hrest⟩ := htouch.deref_head hcons
  obtain ⟨w, t, hstate⟩ := Entry.isRecv_iff.1 (hrecv first (hcons ▸ mem_cons_self))
  have hlisted := (htouch.queueOk callback.key).1
  have hlen : (q callback.key).length ≤ (r.touch callback.key).fresh := htouch.length_le
  rw [hhead, hq] at hlisted
  rw [hq, length_append, length_cons] at hlen
  have hfind : (r.touch callback.key).findToken callback.token (r.touch callback.key).fresh none
      (some first.1) = .ok (some (l1.getLast?.map Prod.fst, c.1)) := by
    rw [findToken_some _ hlisted (fun d hd => hrecv d (hq ▸ hd)) hno hc (by omega), Option.or_none]
  have hcancel : r.cancelItem callback =
      if next = none then .ok (some c.1, (r.touch callback.key).eraseQueue callback.key)
      else (do
        let r ← (r.touch callback.key).unlink callback.key (l1.getLast?.map Prod.fst) c.1
        return (some c.1, r)) := by
    rw [cancelItem]
    simp only [hhead, hread, bind, Except.bind, hstate, hfind]
    rfl
  rw [hcancel]
  by_cases hlong : l1 ++ l2 = []
  · obtain ⟨hl1, hl2⟩ := append_eq_nil_iff.1 hlong
    subst hl1 hl2
    have hnil : rest = [] := (cons.inj (hcons.symm.trans hq)).2
    have hnext : next = none := by
      rw [hnil] at hrest
      exact hrest.chain
    refine ⟨(r.touch callback.key).eraseQueue callback.key, if_pos hnext, ?_, fun _ _ => rfl,
      le_rfl, rfl, rfl, rfl⟩
    refine htouch.replace (fun k hk => AList.lookup_erase_ne hk) ?_ (fun _ _ _ _ => rfl) (by simp)
      htouch.unused
    rw [AList.lookup_erase]
    rfl
  · have hnext : next ≠ none := by
      intro hnone
      rw [hnone] at hrest
      have hrestnil := hrest.eq_nil
      have hlength := congrArg length (hcons.symm.trans hq)
      rw [hrestnil] at hlength
      simp only [length_cons, length_nil, length_append] at hlength
      exact hlong (eq_nil_of_length_eq_zero (by rw [length_append]; omega))
    obtain ⟨r', hunlink, hstored, hkeeps⟩ := unlink_spec htouch hq hlong
    refine ⟨r', ?_, hstored, (keeps_touch r callback.key).trans hkeeps⟩
    rw [if_neg hnext, hunlink]
    rfl

end Rendezvous
end TfReading.LocalRendezvous
