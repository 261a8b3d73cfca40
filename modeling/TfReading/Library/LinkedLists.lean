import Mathlib.Data.List.Nodup

/-!
# Intrusive linked lists

The nodes are addresses and the links are functions on them, so that a write to a
field is a change of one such function.  `Chain` reads a singly linked list off the
`next` links, `Linked` a doubly linked one.  Both recurse on the list of addresses.
-/

namespace TfReading.LinkedLists

open List

variable {α : Type*} {next next' prev prev' : α → Option α} {p before : Option α} {a b : α}
  {l l1 l2 : List α}

/-- Following `next` from `p` passes the addresses `l` and ends at a null link. -/
def Chain (next : α → Option α) : Option α → List α → Prop
  | p, [] => p = none
  | p, a :: l => p = some a ∧ Chain next (next a) l

@[simp] theorem chain_nil : Chain next p [] ↔ p = none := Iff.rfl

/-- The links decide which addresses are passed. -/
theorem Chain.unique (h1 : Chain next p l1) (h2 : Chain next p l2) : l1 = l2 := by
  induction l1 generalizing p l2 with
  | nil =>
    cases l2 with
    | nil => rfl
    | cons => simp [h2.1] at h1
  | cons a l1 ih =>
    cases l2 with
    | nil => simp [h1.1] at h2
    | cons b =>
      have hab : a = b := Option.some.inj (h1.1.symm.trans h2.1)
      subst hab
      rw [ih h1.2 h2.2]

theorem Chain.suffix (h : Chain next p (l1 ++ l2)) : ∃ q, Chain next q l2 := by
  induction l1 generalizing p with
  | nil => exact ⟨p, h⟩
  | cons a l1 ih => exact ih h.2

/-- A walk that ends at a null link does not pass an address twice. -/
theorem Chain.nodup (h : Chain next p l) : l.Nodup := by
  induction l generalizing p with
  | nil => exact nodup_nil
  | cons a l ih =>
    refine nodup_cons.2 ⟨fun ha => ?_, ih h.2⟩
    -- From the second visit on the walk would repeat the whole of itself.
    have ⟨s, t, hst⟩ := append_of_mem ha
    have ⟨q, hq⟩ : ∃ q, Chain next q (a :: t) := Chain.suffix (hst ▸ h.2)
    have heq : t = l := Chain.unique hq.2 h.2
    have hlen := congrArg length hst
    simp only [heq, length_append, length_cons] at hlen
    omega

theorem Chain.congr (h : Chain next p l) (heq : ∀ c ∈ l, next' c = next c) :
    Chain next' p l := by
  induction l generalizing p with
  | nil => exact h
  | cons a l ih =>
    refine ⟨h.1, ?_⟩
    rw [heq a mem_cons_self]
    exact ih h.2 fun c hc => heq c (mem_cons_of_mem a hc)

theorem Chain.replace (h : Chain next p (l1 ++ a :: l)) (heq : ∀ c ∈ l1, next' c = next c)
    (ha : Chain next' (next' a) l2) : Chain next' p (l1 ++ a :: l2) := by
  induction l1 generalizing p with
  | nil => exact ⟨h.1, ha⟩
  | cons c l1 ih =>
    refine ⟨h.1, ?_⟩
    rw [heq c mem_cons_self]
    exact ih h.2 fun d hd => heq d (mem_cons_of_mem c hd)

theorem Chain.unlink (h : Chain next p (l1 ++ b :: a :: l2)) (heq : ∀ c ∈ l1 ++ l2, next' c = next c)
    (hb : next' b = next a) : Chain next' p (l1 ++ b :: l2) := by
  obtain ⟨q, hq⟩ := h.suffix
  refine h.replace (fun c hc => heq c (mem_append_left _ hc)) ?_
  rw [hb]
  exact hq.2.2.congr fun c hc => heq c (mem_append_right _ hc)

/-- From `p`, whose predecessor is `before`, the links in both directions pass `l`. -/
def Linked (next prev : α → Option α) : Option α → Option α → List α → Prop
  | _, p, [] => p = none
  | before, p, a :: l => p = some a ∧ prev a = before ∧ Linked next prev (some a) (next a) l

@[simp] theorem linked_nil : Linked next prev before p [] ↔ p = none := Iff.rfl

theorem Linked.chain (h : Linked next prev before p l) : Chain next p l := by
  induction l generalizing before p with
  | nil => exact h
  | cons a l ih => exact ⟨h.1, ih h.2.2⟩

theorem Linked.congr (h : Linked next prev before p l) (hnext : ∀ c ∈ l, next' c = next c)
    (hprev : ∀ c ∈ l, prev' c = prev c) : Linked next' prev' before p l := by
  induction l generalizing before p with
  | nil => exact h
  | cons a l ih =>
    refine ⟨h.1, (hprev a mem_cons_self).trans h.2.1, ?_⟩
    rw [hnext a mem_cons_self]
    exact ih h.2.2 (fun c hc => hnext c (mem_cons_of_mem a hc))
      fun c hc => hprev c (mem_cons_of_mem a hc)

theorem Linked.prev_eq (h : Linked next prev before p (l1 ++ a :: l2)) :
    prev a = l1.getLast?.or before := by
  induction l1 generalizing before p with
  | nil => exact h.2.1
  | cons b l1 ih =>
    rw [ih h.2.2]
    cases l1 with
    | nil => rfl
    | cons => simp [getLast?_cons]

theorem Linked.next_eq (h : Linked next prev before p (l1 ++ a :: l2)) : next a = l2.head? := by
  induction l1 generalizing before p with
  | nil =>
    cases l2 with
    | nil => exact h.2.2
    | cons => exact h.2.2.1
  | cons b l1 ih => exact ih h.2.2

variable [DecidableEq α]

theorem Linked.push (h : Linked next prev none p l) (ha : next' a = p) (ha' : prev' a = none)
    (hnext : ∀ c ∈ l, next' c = next c)
    (hprev : ∀ c ∈ l, prev' c = if p = some c then some a else prev c) :
    Linked next' prev' none (some a) (a :: l) := by
  refine ⟨rfl, ha', ?_⟩
  rw [ha]
  cases l with
  | nil => exact h
  | cons c =>
    have hnodup := nodup_cons.1 h.chain.nodup
    refine ⟨h.1, ?_, ?_⟩
    · rw [hprev c mem_cons_self, if_pos h.1]
    · rw [hnext c mem_cons_self]
      refine h.2.2.congr (fun d hd => hnext d (mem_cons_of_mem c hd)) fun d hd => ?_
      have hcd : p ≠ some d := by
        rw [h.1]
        intro heq
        exact hnodup.1 (Option.some.inj heq ▸ hd)
      rw [hprev d (mem_cons_of_mem c hd), if_neg hcd]

/-- Taking a node out: its neighbours are linked to each other, and where it was the first
one the list begins behind it. -/
theorem Linked.remove (h : Linked next prev before p (l1 ++ a :: l2))
    (hbefore : ∀ c ∈ l2, before ≠ some c)
    (hnext : ∀ c ∈ l1 ++ l2, next' c = if prev a = some c then next a else next c)
    (hprev : ∀ c ∈ l1 ++ l2, prev' c = if next a = some c then prev a else prev c) :
    Linked next' prev' before (if l1 = [] then next a else p) (l1 ++ l2) := by
  induction l1 generalizing before p with
  | nil =>
    obtain ⟨-, hpa, hrest⟩ := h
    cases l2 with
    | nil => exact hrest
    | cons c l2 =>
      have hnodup := nodup_cons.1 hrest.chain.nodup
      have hstay : ∀ d ∈ c :: l2, next' d = next d := by
        intro d hd
        rw [hnext d hd, if_neg (hpa ▸ hbefore d hd)]
      refine ⟨hrest.1, ?_, ?_⟩
      · rw [hprev c mem_cons_self, if_pos hrest.1, hpa]
      · rw [hstay c mem_cons_self]
        refine hrest.2.2.congr (fun d hd => hstay d (mem_cons_of_mem c hd)) fun d hd => ?_
        have hcd : next a ≠ some d := by
          rw [hrest.1]
          intro heq
          exact hnodup.1 (Option.some.inj heq ▸ hd)
        rw [hprev d (mem_cons_of_mem c hd), if_neg hcd]
  | cons b l1 ih =>
    have hnodup := nodup_cons.1 h.chain.nodup
    have hb2 : ∀ c ∈ l2, some b ≠ some c := by
      intro c hc heq
      exact hnodup.1 (by simp [Option.some.inj heq, hc])
    have hrec := ih h.2.2 hb2 (fun c hc => hnext c (mem_cons_of_mem b hc))
      fun c hc => hprev c (mem_cons_of_mem b hc)
    have hnb : next a ≠ some b := by
      rw [h.next_eq]
      intro heq
      exact hb2 b (mem_of_mem_head? heq) rfl
    refine ⟨h.1, ?_, ?_⟩
    · rw [hprev b mem_cons_self, if_neg hnb, h.2.1]
    · have hlink : next' b = if l1 = [] then next a else next b := by
        rw [hnext b mem_cons_self, h.2.2.prev_eq]
        cases l1 with
        | nil => simp
        | cons c l1 =>
          have hlast : (c :: l1).getLast? ≠ some b := by
            intro heq
            exact hnodup.1 (mem_append_left _ (mem_of_getLast? heq))
          simp only [getLast?_cons] at hlast ⊢
          simp [hlast]
      rw [hlink]
      exact hrec

end TfReading.LinkedLists
