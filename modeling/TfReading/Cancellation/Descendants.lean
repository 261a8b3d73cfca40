import TfReading.Cancellation.Callbacks

/-!
# Destructors and descendants

A child that a call of `StartCancel` has taken off its parent's list is not destroyed before
the call has visited it, since its destructor waits for the parent.  So a cancellation
reaches every descendant that was registered when it began, unless that is destroyed first.
-/

namespace TfReading.Cancellation

open List Multiset Event

variable {κ : Type} {awaited : Option Nat} {m p : Nat}

def View.Pending (v : View κ) (self child : Nat) : Prop :=
  ∃ callbacks children notification,
    Frame.visiting self callbacks children notification ∈ v.frames ∧ child ∈ children

structure Destructors (v : View κ) : Prop where
  closing : ∀ c awaited, (c, awaited) ∈ v.closers → Event.closing c ∈ v.log
  destroyed : ∀ c, Event.destroyed c ∈ v.log → Event.closing c ∈ v.log
  outlives : ∀ c < v.made, ∀ p, (v.managers c).parent = some p → Event.closing p ∈ v.log →
    Event.destroyed c ∈ v.log
  pending : ∀ m c, v.Pending m c → c < v.made ∧ (v.managers c).parent = some m ∧
    Event.destroyed c ∉ v.log ∧ ∀ awaited, (c, awaited) ∈ v.closers → awaited = some m

/-- `d` is cancelled or about to be, or its destructor has been entered. -/
inductive Doomed (v : View κ) : Nat → Prop
  | begun {d : Nat} (h : Begun d v.log) : Doomed v d
  | closing {d : Nat} (h : Event.closing d ∈ v.log) : Doomed v d
  | pending {m d : Nat} (h : v.Pending m d) : Doomed v d
  | inherited {p d : Nat} (h : ChildOf v.log p d) (hp : Doomed v p) : Doomed v d

namespace Act

variable {v v' : View κ} {c : Nat}

theorem log_suffix (hact : Act v v') : v'.log = v.log ∨ ∃ e, v'.log = e :: v.log := by
  cases hact with
  | create | takeToken | skip | publish | notify | proceed => exact .inl rfl
  | createChild | register | refuse | deregister | keep | begin | run | close | destroy =>
    exact .inr ⟨_, rfl⟩

theorem mem_log (hact : Act v v') {e : Event κ} (he : e ∈ v.log) : e ∈ v'.log := by
  rcases log_suffix hact with heq | ⟨e', heq⟩
  · exact heq ▸ he
  · exact heq ▸ mem_cons_of_mem _ he

theorem made_le (hact : Act v v') : v.made ≤ v'.made := by
  cases hact with
  | create | createChild => exact Nat.le_succ _
  | _ => exact le_rfl

theorem parent_eq (hact : Act v v') (hc : c < v.made) :
    (v'.managers c).parent = (v.managers c).parent := by
  cases hact with
  | create => exact congrArg Manager.parent (Function.update_of_ne hc.ne _ _)
  | createChild => exact congrArg Bare.parent (Pool.construct_bare_of_ne hc.ne)
  | close self awaited pool hself hlive hchildren hleave =>
    exact congrArg Bare.parent (Pool.leave_bare hleave c)
  | takeToken | register | deregister | publish | notify =>
    exact Pool.modify_field Manager.parent v.managers rfl c
  | _ => rfl

/-- The parent of a new manager, if it has one, is not being destroyed. -/
theorem old_or_new (hact : Act v v') (hc : c < v'.made) : c < v.made ∨
    ∀ p, (v'.managers c).parent = some p → closing p ∉ v'.log := by
  cases hact with
  | create =>
    refine (Nat.lt_succ_iff_lt_or_eq.1 hc).imp_right fun heq p hp => ?_
    simp [heq] at hp
  | createChild parent hp hlive =>
    refine (Nat.lt_succ_iff_lt_or_eq.1 hc).imp_right fun heq p hpar => ?_
    subst heq
    have hbare : (v.managers.construct v.made parent v.made).parent = some parent :=
      congrArg Bare.parent (Pool.construct_bare_self hp.ne)
    have hpp : parent = p := Option.some.inj (hbare.symm.trans hpar)
    simpa [← hpp] using hlive
  | _ => exact .inl hc

theorem destroyed_log (hact : Act v v') (h : destroyed c ∈ v'.log) :
    destroyed c ∈ v.log ∨ closing c ∈ v.log ∧ (c, none) ∈ v.closers := by
  cases hact with
  | destroy self rest hclosing hclosers =>
    cases h with
    | head => exact .inr ⟨hclosing, hclosers ▸ mem_cons_self _ _⟩
    | tail _ h => exact .inl h
  | _ => exact .inl (by simpa using h)

theorem closing_log (hact : Act v v') (h : closing p ∈ v'.log) :
    closing p ∈ v.log ∨
      ∀ c < v.made, (v.managers c).parent = some p → destroyed c ∈ v.log := by
  cases hact with
  | close self awaited pool hself hlive hchildren =>
    cases h with
    | head => exact .inr hchildren
    | tail _ h => exact .inl h
  | _ => exact .inl (by simpa using h)

/-- A destructor waits for the same as before, or no longer, or has just been entered. -/
theorem closer (hact : Act v v') (h : (c, awaited) ∈ v'.closers) :
    (∃ awaited', (c, awaited') ∈ v.closers ∧
      (awaited' = awaited ∨ ∀ p ∈ awaited', (v.managers p).notified = true)) ∨
    closing c ∈ v'.log ∧ ∃ pool, v.managers.leave c = .ok (awaited, pool) := by
  cases hact with
  | close self awaited pool hself hlive hchildren hleave =>
    rcases mem_cons.1 h with heq | h
    · cases heq
      exact .inr ⟨mem_cons_self, pool, hleave⟩
    · exact .inl ⟨_, h, .inl rfl⟩
  | proceed self awaited rest hclosers hnotified =>
    rcases mem_cons.1 h with heq | h
    · cases heq
      exact .inl ⟨awaited, hclosers ▸ mem_cons_self _ _, .inr hnotified⟩
    · exact .inl ⟨_, hclosers ▸ mem_cons_of_mem h, .inl rfl⟩
  | destroy self rest hclosing hclosers =>
    exact .inl ⟨_, hclosers ▸ mem_cons_of_mem h, .inl rfl⟩
  | _ => exact .inl ⟨_, h, .inl rfl⟩

theorem pending (hact : Act v v') (hfam : Family v) (h : v'.Pending m c) :
    v.Pending m c ∨ ChildOf v.log m c ∧ closing c ∉ v'.log := by
  obtain ⟨cs, ch, n, hmem, hc⟩ := h
  cases hact with
  | begin self l hself hb hl =>
    rcases mem_cons.1 hmem with heq | hmem
    · cases heq
      have hchild := (hfam.mem_siblings hself hl c).1 (mem_reverse.1 hc)
      exact .inr ⟨hchild, by simpa using hchild.2.1⟩
    · exact .inl ⟨cs, ch, n, hmem, hc⟩
  | run self callbacks choice token callback children notification rest hframes =>
    rcases mem_cons.1 hmem with heq | hmem
    · cases heq
      exact .inl ⟨_, _, _, hframes ▸ mem_cons_self _ _, hc⟩
    · exact .inl ⟨cs, ch, n, hframes ▸ mem_cons_of_mem hmem, hc⟩
  | skip self child children notification rest hframes =>
    rcases mem_cons.1 hmem with heq | hmem
    · cases heq
      exact .inl ⟨_, _, _, hframes ▸ mem_cons_self _ _, mem_cons_of_mem _ hc⟩
    · exact .inl ⟨cs, ch, n, hframes ▸ mem_cons_of_mem hmem, hc⟩
  | publish self notification rest hframes =>
    have hrest : .visiting m cs ch n ∈ rest := by
      cases notification <;> simpa using hmem
    exact .inl ⟨cs, ch, n, hframes ▸ mem_cons_of_mem hrest, hc⟩
  | notify self rest hframes => exact .inl ⟨cs, ch, n, hframes ▸ mem_cons_of_mem hmem, hc⟩
  | _ => exact .inl ⟨cs, ch, n, hmem, hc⟩

end Act

namespace Destructors

variable {v v' : View κ}

/-- A child whose parent is being cancelled waits for it in its destructor. -/
theorem awaited_of_cancelling {self : Nat} {pool : Pool κ}
    (hleave : v.managers.leave self = .ok (awaited, pool))
    (hp : (v.managers self).parent = some m) (hm : (v.managers m).isCancelling = true) :
    awaited = some m := by
  rcases Pool.leave_ok hleave with hroot | ⟨p, waits, hp', hderegister, rfl⟩
  · rw [hroot.1] at hp
    cases hp
  · have hpm : p = m := Option.some.inj (hp'.symm.trans hp)
    subst hpm
    have hwaits : waits = true := by
      rw [(Pool.deregisterChild_ok hderegister).2]
      exact (congrArg Bare.isCancelling (Pool.deregisterChild_bare hderegister p)).trans hm
    rw [hwaits, if_pos rfl]

theorem act (h : Destructors v) (hf : Flags v) (hfam : Family v) (hact : Act v v') :
    Destructors v' := by
  have hclosers : ∀ c awaited, (c, awaited) ∈ v'.closers → .closing c ∈ v'.log := by
    intro c awaited hc
    obtain ⟨awaited', hmem, -⟩ | ⟨hclosing, -⟩ := hact.closer hc
    · exact hact.mem_log (h.closing c awaited' hmem)
    · exact hclosing
  refine ⟨hclosers, fun c hc => ?_, fun c hc p hp hclosing => ?_, fun m c hc => ?_⟩
  · exact hact.mem_log ((hact.destroyed_log hc).elim (h.destroyed c) And.left)
  · rcases hact.old_or_new hc with hlt | hnew
    · rw [hact.parent_eq hlt] at hp
      exact hact.mem_log ((hact.closing_log hclosing).elim (h.outlives c hlt p hp)
        fun hall => hall c hlt hp)
    · exact absurd hclosing (hnew p hp)
  · rcases hact.pending hfam hc with hc | hc
    · have ⟨hlt, hp, hd, hcl⟩ := h.pending m c hc
      obtain ⟨cs, ch, n, hframe, -⟩ := hc
      have ⟨hm, hcancelling⟩ := hf.visiting m cs ch n hframe
      refine ⟨lt_of_lt_of_le hlt hact.made_le, (hact.parent_eq hlt).trans hp, fun hd' => ?_,
        fun awaited hmem => ?_⟩
      · exact (hact.destroyed_log hd').elim hd fun hnone => nomatch hcl none hnone.2
      · obtain ⟨awaited', hold, heq | hnotified⟩ | ⟨-, pool, hleave⟩ := hact.closer hmem
        · exact heq ▸ hcl _ hold
        · -- The parent would have been notified while it is still being cancelled.
          have hnot := hnotified m (hcl awaited' hold ▸ rfl)
          rw [hf.exclusive m hm (hf.notified m hm hnot)] at hcancelling
          cases hcancelling
        · exact awaited_of_cancelling hleave hp hcancelling
    · have hlt := Family.childOf_lt hf hc.1
      refine ⟨lt_of_lt_of_le hlt hact.made_le,
        (hact.parent_eq hlt).trans (hfam.childOf_parent hc.1), fun hd => ?_,
        fun awaited hmem => absurd (hclosers c awaited hmem) hc.2⟩
      exact hc.1.2.1 ((hact.destroyed_log hd).elim (h.destroyed c) And.left)

end Destructors

namespace Doomed

variable {v v' : View κ} {d : Nat}

theorem begun_act (hact : Act v v') (h : Begun d v.log) : Begun d v'.log := by
  refine h.imp hact.mem_log fun hchild => ?_
  obtain ⟨parent, hchild⟩ := hchild
  exact ⟨parent, hact.mem_log hchild⟩

theorem pending_act (hf : Flags v) (hd : Destructors v) (hact : Act v v')
    (h : v.Pending m d) : v'.Pending m d ∨ Begun d v'.log := by
  obtain ⟨cs, ch, n, hmem, hdch⟩ := h
  cases hact with
  | begin => exact .inl ⟨cs, ch, n, mem_cons_of_mem hmem, hdch⟩
  | run self callbacks choice token callback children notification rest hframes =>
    rw [hframes] at hmem
    rcases mem_cons.1 hmem with heq | hmem
    · cases heq
      exact .inl ⟨_, _, _, mem_cons_self _ _, hdch⟩
    · exact .inl ⟨cs, ch, n, mem_cons_of_mem hmem, hdch⟩
  | skip self child children notification rest hframes hb =>
    have hchild := hd.pending self child ⟨_, _, _, hframes ▸ mem_cons_self _ _,
      mem_cons_self⟩
    rw [hframes] at hmem
    rcases mem_cons.1 hmem with heq | hmem
    · cases heq
      cases hdch with
      | head => exact .inr ((hf.begun_iff d hchild.1).1 hb)
      | tail _ hdch => exact .inl ⟨_, _, _, mem_cons_self _ _, hdch⟩
    · exact .inl ⟨cs, ch, n, mem_cons_of_mem hmem, hdch⟩
  | publish self notification rest hframes =>
    rw [hframes] at hmem
    rcases mem_cons.1 hmem with heq | hmem
    · cases heq
      cases hdch
    · exact .inl ⟨cs, ch, n, mem_add.2 (.inr hmem), hdch⟩
  | notify self rest hframes =>
    rw [hframes] at hmem
    rcases mem_cons.1 hmem with heq | hmem
    · cases heq
    · exact .inl ⟨cs, ch, n, hmem, hdch⟩
  | create | createChild | takeToken | register | refuse | deregister | keep | close | proceed
  | destroy => exact .inl ⟨cs, ch, n, hmem, hdch⟩

/-- A registered child stays registered until its destructor is entered or its parent's
cancellation takes it off the list. -/
theorem childOf_act (hfam : Family v) (hact : Act v v') (h : ChildOf v.log p d) :
    ChildOf v'.log p d ∨ Event.closing d ∈ v'.log ∨ v'.Pending p d := by
  have hkeep : ∀ e : Event κ, (∀ c, e ≠ .closing c) → (∀ m, e ≠ .began m) →
      ChildOf (e :: v.log) p d := by
    intro e hclosing hbegan
    refine ⟨mem_cons_of_mem _ h.1, ?_, ?_⟩
    · simp [h.2.1, (hclosing d).symm]
    · simp [h.2.2, (hbegan p).symm]
  cases hact with
  | begin self l hself hb hl =>
    by_cases hps : p = self
    · subst hps
      refine .inr (.inr ⟨_, _, _, mem_cons_self _ _, ?_⟩)
      exact mem_reverse.2 ((hfam.mem_siblings hself hl d).2 h)
    · exact .inl ((childOf_cons_iff (by simp) (by simp) (by simp [Ne.symm hps])).2 h)
  | close self =>
    by_cases hds : d = self
    · subst hds
      exact .inr (.inl mem_cons_self)
    · exact .inl ((childOf_cons_iff (by simp) (by simp [Ne.symm hds]) (by simp)).2 h)
  | create | takeToken | skip | publish | notify | proceed => exact .inl h
  | createChild | register | refuse | deregister | keep | run | destroy =>
    exact .inl (hkeep _ (by simp) (by simp))

theorem act (hf : Flags v) (hfam : Family v) (hd : Destructors v) (hact : Act v v')
    (h : Doomed v d) : Doomed v' d := by
  induction h with
  | begun h => exact .begun (begun_act hact h)
  | closing h => exact .closing (hact.mem_log h)
  | pending h => exact (pending_act hf hd hact h).elim .pending .begun
  | inherited h _ ih =>
    rcases childOf_act hfam hact h with h | h
    · exact .inherited h ih
    · exact h.elim .closing .pending

/-- With no call of `StartCancel` in progress, who is doomed has been reached. -/
theorem reached (hf : Flags v) (hfam : Family v) (hd : Destructors v) (hnone : v.frames = 0)
    (h : Doomed v d) : Begun d v.log ∨ Event.closing d ∈ v.log := by
  induction h with
  | begun h => exact .inl h
  | closing h => exact .inr h
  | pending h =>
    obtain ⟨cs, ch, n, hmem, -⟩ := h
    simp [hnone] at hmem
  | inherited h _ ih =>
    rcases ih with hb | hp
    · exact absurd hb (hfam.not_begun h)
    · have hlt := Family.childOf_lt hf h
      exact .inr (hd.destroyed _ (hd.outlives _ hlt _ (hfam.childOf_parent h) hp))

end Doomed
end TfReading.Cancellation
