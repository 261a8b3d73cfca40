import TfReading.Cancellation.Flags

/-!
# Parents and children

The list of every manager holds exactly the children that the log has registered with it,
and what `DeregisterChild` and `StartCancel` rely on when they walk it.
-/

namespace TfReading.Cancellation

open LinkedLists List Pool Manager

variable {κ : Type} {c p : Nat}

/-- What of a manager the lists of children are made of. -/
def Manager.links (m : Manager κ) : Option Nat × Option Nat × Bool × Option Nat × Option Nat :=
  (m.nextSibling, m.prevSibling, m.isRemovedFromParent, m.parent, m.firstChild)

theorem Manager.links_insertCallback (m : Manager κ) (token : Token) (callback : κ) :
    (m.insertCallback token callback).links = m.links := by
  cases hst : m.state <;> simp [insertCallback, links, firstChild, hst]

theorem Manager.links_eraseCallback (m : Manager κ) (token : Token) :
    (m.eraseCallback token).links = m.links := by
  cases hst : m.state <;> simp [eraseCallback, links, firstChild, hst]

theorem Manager.links_notify (m : Manager κ) : m.notify.links = m.links := by
  cases hst : m.state <;> simp [notify, links, firstChild, hst]

theorem childOf_cons_iff {e : Event κ} {log : List (Event κ)}
    (hchild : e ≠ .child c p false) (hclosing : e ≠ .closing c) (hbegan : e ≠ .began p) :
    ChildOf (e :: log) p c ↔ ChildOf log p c := by
  simp [ChildOf, hchild.symm, hclosing.symm, hbegan.symm]

structure Family (v : View κ) : Prop where
  parent_of_log : ∀ c p cancelled, Event.child c p cancelled ∈ v.log →
    (v.managers c).parent = some p
  parent_lt : ∀ c < v.made, ∀ p, (v.managers c).parent = some p → p < c
  siblings : ∀ p < v.made, ∃ l, v.managers.Siblings p l ∧ ∀ c, c ∈ l ↔ ChildOf v.log p c
  born_live : ∀ p c q, Event.child c p false ∈ v.log → Event.child p q true ∉ v.log
  linked : ∀ p c, ChildOf v.log p c → (v.managers c).isRemovedFromParent = false
  removed : ∀ c < v.made, ∀ p, (v.managers c).parent = some p → ¬ChildOf v.log p c →
    (v.managers c).isRemovedFromParent = true
  state : ∀ c < v.made, ∀ p, (v.managers c).parent = some p →
    (v.managers p).state.isSome = true ∨ (v.managers p).isCancelled = true

namespace Family

variable {v v' : View κ} {self : Nat}

theorem childOf_lt (hf : Flags v) (hc : ChildOf v.log p c) : c < v.made :=
  hf.known _ hc.1

section

variable (h : Family v) {l : List Nat}

include h

theorem childOf_parent (hc : ChildOf v.log p c) :
    (v.managers c).parent = some p := h.parent_of_log c p false hc.1

theorem childOf_unique {q : Nat} (hp : ChildOf v.log p c) (hq : ChildOf v.log q c) : p = q :=
  Option.some.inj ((h.childOf_parent hp).symm.trans (h.childOf_parent hq))

theorem parent_lt_made (hf : Flags v) {cancelled : Bool}
    (hc : Event.child c p cancelled ∈ v.log) : p < v.made :=
  lt_trans (h.parent_lt c (hf.known _ hc) p (h.parent_of_log c p cancelled hc)) (hf.known _ hc)

/-- Nothing but the links is read, the parents keep their states, and a new manager has no children
and is on no list. -/
theorem congr (hf : Flags v)
    (hlinks : ∀ a < v.made, (v'.managers a).links = (v.managers a).links)
    (hstate : ∀ a < v.made, (v.managers a).state.isSome = true ∨ (v.managers a).isCancelled = true →
      (v'.managers a).state.isSome = true ∨ (v'.managers a).isCancelled = true)
    (hnew : ∀ c < v'.made, ¬c < v.made → (v'.managers c).firstChild = none ∧
      ∀ p, (v'.managers c).parent = some p → p < c ∧ (v'.managers c).isRemovedFromParent = true ∧
        ((v'.managers p).state.isSome = true ∨ (v'.managers p).isCancelled = true))
    (hchild : ∀ c p cancelled, Event.child c p cancelled ∈ v'.log →
      Event.child c p cancelled ∈ v.log ∨
        ¬c < v.made ∧ cancelled = true ∧ (v'.managers c).parent = some p)
    (hchildOf : ∀ p c, ChildOf v'.log p c ↔ ChildOf v.log p c) : Family v' := by
  have hall : ∀ a < v.made, (v'.managers a).nextSibling = (v.managers a).nextSibling ∧
      (v'.managers a).prevSibling = (v.managers a).prevSibling ∧
      (v'.managers a).isRemovedFromParent = (v.managers a).isRemovedFromParent ∧
      (v'.managers a).parent = (v.managers a).parent ∧
      (v'.managers a).firstChild = (v.managers a).firstChild := by
    intro a ha
    simpa only [links, Prod.mk.injEq] using hlinks a ha
  constructor
  · intro c p cancelled hc
    rcases hchild c p cancelled hc with hc | hc
    · rw [(hall c (hf.known _ hc)).2.2.2.1]
      exact h.parent_of_log c p cancelled hc
    · exact hc.2.2
  · intro c hc p hp
    by_cases hlt : c < v.made
    · rw [(hall c hlt).2.2.2.1] at hp
      exact h.parent_lt c hlt p hp
    · exact ((hnew c hc hlt).2 p hp).1
  · intro p hp
    by_cases hlt : p < v.made
    · have ⟨l, hl, hmem⟩ := h.siblings p hlt
      have hold : ∀ c ∈ l, c < v.made := fun c hc => childOf_lt hf ((hmem c).1 hc)
      refine ⟨l, ?_, fun c => (hmem c).trans (hchildOf p c).symm⟩
      rw [Pool.Siblings, (hall p hlt).2.2.2.2]
      exact hl.congr (fun c hc => (hall c (hold c hc)).1) fun c hc => (hall c (hold c hc)).2.1
    · refine ⟨[], (hnew p hp hlt).1, fun c => ?_⟩
      simp only [not_mem_nil, hchildOf, false_iff]
      exact fun hc => hlt (h.parent_lt_made hf hc.1)
  · intro p c q hc hp
    cases hchild c p false hc with
    | inr hc => cases hc.2.1
    | inl hc =>
      rcases hchild p q true hp with hp | hp
      · exact h.born_live p c q hc hp
      · exact hp.1 (h.parent_lt_made hf hc)
  · intro p c hc
    have hc := (hchildOf p c).1 hc
    rw [(hall c (childOf_lt hf hc)).2.2.1]
    exact h.linked p c hc
  · intro c hc p hp hnot
    by_cases hlt : c < v.made
    · rw [(hall c hlt).2.2.2.1] at hp
      rw [(hall c hlt).2.2.1]
      exact h.removed c hlt p hp fun hchild => hnot ((hchildOf p c).2 hchild)
    · exact ((hnew c hc hlt).2 p hp).2.1
  · intro c hc p hp
    by_cases hlt : c < v.made
    · rw [(hall c hlt).2.2.2.1] at hp
      exact hstate p (lt_trans (h.parent_lt c hlt p hp) hlt) (h.state c hlt p hp)
    · exact ((hnew c hc hlt).2 p hp).2.2

theorem firstChild_ne_made (hf : Flags v) (hp : p < v.made) :
    (v.managers p).firstChild ≠ some v.made := by
  intro heq
  have ⟨l, hl, hmem⟩ := h.siblings p hp
  cases l with
  | nil => cases heq.symm.trans hl
  | cons c =>
    have hc : c = v.made := Option.some.inj (hl.1.symm.trans heq)
    have hlt := childOf_lt hf ((hmem c).1 mem_cons_self)
    omega

theorem adopt (hf : Flags v) (hp : p < v.made) (hb : (v.managers p).begun = false) :
    Family { v with
      managers := v.managers.adopted v.made p
      made := v.made + 1
      log := .child v.made p false :: v.log } := by
  have hnot : .began p ∉ v.log := by
    intro hbegan
    rw [(hf.begun_iff p hp).2 (.inl hbegan)] at hb
    cases hb
  have hfresh : ∀ e : Event κ, e.self = v.made → e ∉ v.log := by
    intro e he hmem
    have hlt := hf.known e hmem
    omega
  have hchildOf : ∀ q c, ChildOf (.child v.made p false :: v.log) q c ↔
      ChildOf v.log q c ∨ q = p ∧ c = v.made := by
    intro q c
    by_cases hqc : q = p ∧ c = v.made
    · obtain ⟨rfl, rfl⟩ := hqc
      simp [ChildOf, hnot, hfresh (.closing v.made) rfl]
    · rw [childOf_cons_iff (by simp [Event.child.injEq]; tauto) (by simp) (by simp)]
      simp [hqc]
  have hold : ∀ a < v.made, v.managers.adopted v.made p a = { v.managers a with
      prevSibling := if (v.managers p).firstChild = some a then some v.made
        else (v.managers a).prevSibling
      state := if a = p then some { (v.managers p).state.getD {} with firstChild := some v.made }
        else (v.managers a).state } := by
    intro a ha
    rw [adopted, if_neg ha.ne]
  have hne : p ≠ v.made := hp.ne
  constructor
  · intro c q cancelled hc
    cases hc with
    | head => simp [adopted]
    | tail _ hc =>
      simp only [hold c (hf.known _ hc)]
      exact h.parent_of_log c q cancelled hc
  · intro c hc q hq
    rcases Nat.lt_succ_iff_lt_or_eq.1 hc with hc | rfl
    · simp only [hold c hc] at hq
      exact h.parent_lt c hc q hq
    · have hqp : p = q := by simpa [adopted] using hq
      exact hqp ▸ hp
  · intro q hq
    rcases Nat.lt_succ_iff_lt_or_eq.1 hq with hq | rfl
    · obtain ⟨l, hl, hmem⟩ := h.siblings q hq
      have hself : v.made ∉ l := by
        intro hc
        exact hfresh _ rfl ((hmem v.made).1 hc).1
      by_cases hqp : q = p
      · subst hqp
        refine ⟨v.made :: l, siblings_adopted hne hl hself, fun c => ?_⟩
        rw [hchildOf, mem_cons, hmem]
        tauto
      · refine ⟨l, siblings_adopted_of_ne hqp hq.ne hl hself ?_, fun c => ?_⟩
        · intro c hc heq
          obtain ⟨lp, hlp, hmemp⟩ := h.siblings p hp
          cases lp with
          | nil => cases heq.symm.trans hlp
          | cons d =>
            have hd : d = c := Option.some.inj (hlp.1.symm.trans heq)
            have hcp := (hmemp d).1 mem_cons_self
            exact hqp (h.childOf_unique ((hmem c).1 hc) (hd ▸ hcp))
        · rw [hchildOf, hmem]
          tauto
    · refine ⟨[], by simp [Pool.Siblings, adopted, firstChild], fun c => ?_⟩
      rw [hchildOf]
      simp only [not_mem_nil, false_iff, not_or, not_and]
      exact ⟨fun hc => lt_irrefl _ (h.parent_lt_made hf hc.1), fun heq => absurd heq hne.symm⟩
  · intro q c r hc hq
    have hq : .child q r true ∈ v.log := by simpa using hq
    cases hc with
    | head =>
      rw [(hf.begun_iff p hp).2 (.inr ⟨r, hq⟩)] at hb
      cases hb
    | tail _ hc => exact h.born_live q c r hc hq
  · intro q c hc
    rcases (hchildOf q c).1 hc with hc | hc
    · simp only [hold c (childOf_lt hf hc)]
      exact h.linked q c hc
    · simp [hc.2, adopted]
  · intro c hc q hq hnotChild
    rcases Nat.lt_succ_iff_lt_or_eq.1 hc with hc | rfl
    · simp only [hold c hc] at hq ⊢
      exact h.removed c hc q hq fun hchild => hnotChild ((hchildOf q c).2 (.inl hchild))
    · have hqp : p = q := by simpa [adopted] using hq
      exact absurd ((hchildOf q v.made).2 (.inr ⟨hqp.symm, rfl⟩)) hnotChild
  · intro c hc q hq
    rcases Nat.lt_succ_iff_lt_or_eq.1 hc with hc | rfl
    · simp only [hold c hc] at hq
      have hstate := h.state c hc q hq
      simp only [hold q (lt_trans (h.parent_lt c hc q hq) hc)]
      by_cases hqp : q = p
      · simp [hqp]
      · simpa [hqp] using hstate
    · have hqp : p = q := by simpa [adopted] using hq
      subst hqp
      simp [hold p hp]

theorem mem_siblings (hp : p < v.made)
    (hl : v.managers.Siblings p l) (c : Nat) : c ∈ l ↔ ChildOf v.log p c := by
  have ⟨l', hl', hmem⟩ := h.siblings p hp
  rw [hl.chain.unique hl'.chain]
  exact hmem c

theorem begin (hself : self < v.made)
    (hl : v.managers.Siblings self l) (frames : Multiset (Frame κ)) :
    Family { v with
      managers := v.managers.detached self l
      frames := frames
      log := .began self :: v.log } := by
  have hmem := h.mem_siblings hself hl
  have hchildOf : ∀ q c, ChildOf (.began self :: v.log) q c ↔ ChildOf v.log q c ∧ q ≠ self := by
    intro q c
    simp only [ChildOf, mem_cons, reduceCtorEq, false_or, Event.began.injEq, not_or]
    tauto
  constructor
  · intro c p cancelled hc
    have hc : .child c p cancelled ∈ v.log := by simpa using hc
    exact h.parent_of_log c p cancelled hc
  · exact h.parent_lt
  · intro q hq
    by_cases hqs : q = self
    · subst hqs
      refine ⟨[], ?_, fun c => by simp [hchildOf]⟩
      cases hst : (v.managers q).state <;>
        simp [Pool.Siblings, detached, firstChild, hst]
    · obtain ⟨lq, hlq, hmemq⟩ := h.siblings q hq
      refine ⟨lq, ?_, fun c => by simp [hchildOf, hmemq, hqs]⟩
      have hfirst : (v.managers.detached self l q).firstChild = (v.managers q).firstChild := by
        simp [detached, firstChild, hqs]
      simp only [Pool.Siblings, hfirst]
      exact hlq.congr (fun c _ => rfl) fun c _ => rfl
  · intro q c r hc hq
    exact h.born_live q c r (by simpa using hc) (by simpa using hq)
  · intro q c hc
    obtain ⟨hc, hqs⟩ := (hchildOf q c).1 hc
    have hcl : c ∉ l := fun hcl => hqs (h.childOf_unique hc ((hmem c).1 hcl))
    simp [detached, hcl, h.linked q c hc]
  · intro c hc q hq hnot
    by_cases hcl : c ∈ l
    · simp [detached, hcl]
    · have hnot' : ¬ChildOf v.log q c := by
        intro hcq
        refine hnot ((hchildOf q c).2 ⟨hcq, fun hqs => hcl ?_⟩)
        rw [hmem, ← hqs]
        exact hcq
      have hremoved := h.removed c hc q hq hnot'
      simp [detached, hremoved]
  · intro c hc q hq
    refine (h.state c hc q hq).imp (fun hstate => ?_) fun hcancelled => hcancelled
    by_cases hqs : q = self
    · simpa [detached, hqs] using hqs ▸ hstate
    · simpa [detached, hqs] using hstate

/-- Where the list surgery of `DeregisterChild` happens. -/
theorem unlinkChild_ok (hself : self < v.made) (hp : (v.managers self).parent = some p)
    (hremoved : (v.managers self).isRemovedFromParent = false) :
    ChildOf v.log p self ∧ ∃ l1 l2, v.managers.Siblings p (l1 ++ self :: l2) ∧
      v.managers.unlinkChild p self = .ok (v.managers.unlinked p self) := by
  have hchild : ChildOf v.log p self := by
    refine Classical.byContradiction fun hnot => ?_
    rw [h.removed self hself p hp hnot] at hremoved
    cases hremoved
  have ⟨l, hl, hmem⟩ := h.siblings p (lt_trans (h.parent_lt self hself p hp) hself)
  have ⟨l1, l2, hsplit⟩ := append_of_mem ((hmem self).2 hchild)
  subst hsplit
  refine ⟨hchild, l1, l2, hl, unlinkChild_eq ?_ ?_⟩
  · rw [hl.prev_eq, Option.or_none]
    intro hlast
    have hnodup := nodup_append.1 hl.chain.nodup
    exact hnodup.2.2 self (mem_of_getLast? hlast) self mem_cons_self rfl
  · cases hst : (v.managers p).state with
    | some => rfl
    | none =>
      have hfirst : (v.managers p).firstChild = none := by simp [firstChild, hst]
      rw [Pool.Siblings, hfirst] at hl
      cases l1 with
      | nil => cases hl.1
      | cons => cases hl.1

theorem unlink {l1 l2 : List Nat} (hp : p < v.made)
    (hchild : ChildOf v.log p self) (hl : v.managers.Siblings p (l1 ++ self :: l2))
    (closers : Multiset (Nat × Option Nat)) :
    Family { v with
      managers := v.managers.unlinked p self
      closers := closers
      log := .closing self :: v.log } := by
  have hmem := h.mem_siblings hp hl
  have hchildOf : ∀ q c, ChildOf (.closing self :: v.log) q c ↔ ChildOf v.log q c ∧ c ≠ self := by
    intro q c
    simp only [ChildOf, mem_cons, reduceCtorEq, false_or, Event.closing.injEq, not_or]
    tauto
  have hnotMem : self ∉ l1 ++ l2 := by
    have hnodup := nodup_append.1 hl.chain.nodup
    intro hc
    rcases mem_append.1 hc with hc | hc
    · exact hnodup.2.2 self hc self mem_cons_self rfl
    · exact (nodup_cons.1 hnodup.2.1).1 hc
  constructor
  · intro c q cancelled hc
    have hc : .child c q cancelled ∈ v.log := by simpa using hc
    exact h.parent_of_log c q cancelled hc
  · exact h.parent_lt
  · intro q hq
    by_cases hqp : q = p
    · subst hqp
      refine ⟨l1 ++ l2, siblings_unlinked hl, fun c => ?_⟩
      rw [hchildOf, ← hmem]
      constructor
      · intro hc
        refine ⟨?_, fun heq => hnotMem (heq ▸ hc)⟩
        simp only [mem_append, mem_cons] at hc ⊢
        tauto
      · intro hc
        simp only [mem_append, mem_cons] at hc ⊢
        tauto
    · have ⟨lq, hlq, hmemq⟩ := h.siblings q hq
      have hdisjoint : ∀ c ∈ lq, c ∉ l1 ++ self :: l2 := fun c hc hcp =>
        hqp (h.childOf_unique ((hmemq c).1 hc) ((hmem c).1 hcp))
      refine ⟨lq, siblings_unlinked_of_ne hqp hlq ?_ ?_, fun c => ?_⟩
      · intro c hc heq
        rw [hl.prev_eq, Option.or_none] at heq
        exact hdisjoint c hc (mem_append_left _ (mem_of_getLast? heq))
      · intro c hc heq
        rw [hl.next_eq] at heq
        exact hdisjoint c hc
          (mem_append_right _ (mem_cons_of_mem _ (mem_of_mem_head? heq)))
      · rw [hchildOf, hmemq]
        refine ⟨fun hc => ⟨hc, fun heq => hqp (h.childOf_unique hc (heq ▸ hchild))⟩, fun hc => hc.1⟩
  · intro q c r hc hq
    exact h.born_live q c r (by simpa using hc) (by simpa using hq)
  · intro q c hc
    have ⟨hc, hcs⟩ := (hchildOf q c).1 hc
    simp [unlinked, hcs, h.linked q c hc]
  · intro c hc q hq hnot
    by_cases hcs : c = self
    · simp [unlinked, hcs]
    · have hremoved := h.removed c hc q hq fun hcq => hnot ((hchildOf q c).2 ⟨hcq, hcs⟩)
      simp [unlinked, hremoved]
  · intro c hc q hq
    refine (h.state c hc q hq).imp (fun hstate => ?_) fun hcancelled => hcancelled
    simp only [unlinked]
    split
    · simpa using hstate
    · exact hstate

end

/-- The event of entering a destructor whose manager is on no list. -/
theorem childOf_closing_iff (hnot : ∀ q, ¬ChildOf v.log q self) (q c : Nat) :
    ChildOf (.closing self :: v.log) q c ↔ ChildOf v.log q c := by
  by_cases hcs : c = self
  · subst hcs
    simp only [hnot q, iff_false]
    intro hc
    exact hc.2.1 mem_cons_self
  · exact childOf_cons_iff (by simp) (by simp [Ne.symm hcs]) (by simp)

theorem leave (h : Family v) (hf : Flags v) {awaited : Option Nat} {pool : Pool κ}
    (hself : self < v.made) (hleave : v.managers.leave self = .ok (awaited, pool))
    (closers : Multiset (Nat × Option Nat)) :
    Family { v with managers := pool, closers := closers, log := .closing self :: v.log } := by
  have hclosing : (∀ q, ¬ChildOf v.log q self) → pool = v.managers → Family
      { v with managers := pool, closers := closers, log := .closing self :: v.log } := by
    intro hnot hpool
    subst hpool
    exact h.congr hf (fun _ _ => rfl) (fun _ _ ha => ha)
      (fun _ hc hlt => absurd hc hlt) (fun c p cancelled hc => .inl (by simpa using hc))
      (childOf_closing_iff hnot)
  rcases leave_ok hleave with hroot | hchild
  · refine hclosing (fun q hq => ?_) hroot.2.2
    have hparent := h.childOf_parent hq
    rw [hroot.1] at hparent
    cases hparent
  · obtain ⟨p, waits, hp, hderegister, -⟩ := hchild
    rcases (deregisterChild_ok hderegister).1 with hr | hr
    · refine hclosing (fun q hq => ?_) hr.2
      rw [h.linked q self hq] at hr
      cases hr.1
    · have ⟨hchild, l1, l2, hl, hunlink⟩ := h.unlinkChild_ok hself hp hr.1
      have hpool : pool = v.managers.unlinked p self :=
        Except.ok.inj (hr.2.symm.trans hunlink)
      rw [hpool]
      exact h.unlink (lt_trans (h.parent_lt self hself p hp) hself) hchild hl closers

theorem not_begun (h : Family v) (hc : ChildOf v.log p c) : ¬Begun p v.log := by
  intro hb
  rcases hb with hb | ⟨q, hb⟩
  · exact hc.2.2 hb
  · exact h.born_live p c q hc.1 hb

theorem act (h : Family v) (hf : Flags v) (hact : Act v v') : Family v' := by
  have hmodify : ∀ self (f : Manager κ → Manager κ) (frames : Multiset (Frame κ))
      (log : List (Event κ)), (∀ m, (f m).links = m.links) →
      (∀ m : Manager κ, m.state.isSome = true ∨ m.isCancelled = true →
        (f m).state.isSome = true ∨ (f m).isCancelled = true) →
      (∀ c p cancelled, .child c p cancelled ∈ log → .child c p cancelled ∈ v.log) →
      (∀ p c, ChildOf log p c ↔ ChildOf v.log p c) →
      Family { v with managers := v.managers.modify self f, frames := frames, log := log } := by
    intro self f frames log hlinks hstate hchild hchildOf
    refine h.congr hf
      (fun a _ => modify_field links v.managers (hlinks _) a) (fun a _ ha => ?_)
      (fun _ hc hlt => absurd hc hlt) (fun c p cancelled hc => .inl (hchild c p cancelled hc)) hchildOf
    simp only [modify_apply]
    split
    · next heq => exact hstate _ (heq ▸ ha)
    · exact ha
  have hquiet : ∀ (frames : Multiset (Frame κ)) (closers : Multiset (Nat × Option Nat))
      (log : List (Event κ)),
      (∀ c p cancelled, .child c p cancelled ∈ log → .child c p cancelled ∈ v.log) →
      (∀ p c, ChildOf log p c ↔ ChildOf v.log p c) →
      Family { v with frames := frames, closers := closers, log := log } :=
    fun frames closers log hchild hchildOf =>
      h.congr hf (fun _ _ => rfl) (fun _ _ ha => ha)
        (fun _ hc hlt => absurd hc hlt) (fun c p cancelled hc => .inl (hchild c p cancelled hc)) hchildOf
  have hsame : ∀ p c, ChildOf v.log p c ↔ ChildOf v.log p c := fun _ _ => .rfl
  cases hact with
  | create =>
    refine h.congr hf (fun a ha => ?_) (fun a ha hstate => ?_) (fun c hc hlt => ?_)
      (fun c p cancelled hc => .inl hc) hsame
    · simp only [Function.update_of_ne ha.ne]
    · simpa only [Function.update_of_ne ha.ne] using hstate
    · rw [Nat.eq_of_lt_succ_of_not_lt hc hlt]
      simp [firstChild]
  | createChild parent hp hlive hstate =>
    have hne : parent ≠ v.made := hp.ne
    have hcancelled : (v.managers.construct v.made parent v.made).isCancelled =
        (v.managers parent).begun :=
      congrArg Bare.isCancelled (construct_bare_self hne)
    rw [hcancelled]
    cases hb : (v.managers parent).begun with
    | true =>
      rw [construct_begun hne hb]
      refine h.congr hf (fun a ha => ?_) (fun a ha hstate => ?_) (fun c hc hlt => ?_)
        ?_ fun p c => childOf_cons_iff (by simp) (by simp) (by simp)
      · simp only [Function.update_of_ne ha.ne]
      · simpa only [Function.update_of_ne ha.ne] using hstate
      · simp only [Nat.eq_of_lt_succ_of_not_lt hc hlt, Function.update_self]
        refine ⟨rfl, fun p hpar => ?_⟩
        cases hpar
        refine ⟨hp, trivial, ?_⟩
        rw [begun, Bool.or_eq_true] at hb
        rw [Function.update_of_ne hne]
        exact hb.symm.imp_left hstate
      · intro c p cancelled hc
        cases hc with
        | head => exact .inr ⟨lt_irrefl _, rfl, by simp⟩
        | tail _ hc => exact .inl hc
    | false =>
      rw [construct_eq hne hb (h.firstChild_ne_made hf hp)]
      exact h.adopt hf hp hb
  | takeToken self =>
    exact hmodify self _ _ _ (fun m => rfl) (fun m hm => hm) (fun _ _ _ hc => hc) hsame
  | register self token callback =>
    exact hmodify self _ _ _ (fun m => m.links_insertCallback token callback) (fun m _ => .inl rfl)
      (fun _ _ _ hc => by simpa using hc)
      fun p c => childOf_cons_iff (by simp) (by simp) (by simp)
  | refuse self token callback hself hfresh hb | keep self token hself hb
  | run self callbacks choice token callback children notification rest hframes hchoice
  | destroy =>
    exact hquiet _ _ _ (fun _ _ _ hc => by simpa using hc)
      fun p c => childOf_cons_iff (by simp) (by simp) (by simp)
  | deregister self token =>
    exact hmodify self _ _ _ (fun m => m.links_eraseCallback token)
      (fun m hm => by simpa [eraseCallback] using hm)
      (fun _ _ _ hc => by simpa using hc) fun p c => childOf_cons_iff (by simp) (by simp) (by simp)
  | begin self l hself hb hl => exact h.begin hself hl _
  | skip self child children notification rest hframes hb
  | proceed => exact hquiet _ _ _ (fun _ _ _ hc => hc) hsame
  | publish self =>
    exact hmodify self _ _ _ (fun m => rfl) (fun m _ => .inr rfl) (fun _ _ _ hc => hc) hsame
  | notify self =>
    exact hmodify self _ _ _ links_notify (fun m hm => by simpa [notify] using hm)
      (fun _ _ _ hc => hc) hsame
  | close self awaited pool hself hlive hchildren hleave => exact h.leave hf hself hleave _

end Family
end TfReading.Cancellation
