import TfReading.Cancellation.Descendants

/-!
# Steps are sequences of acts

The invariant of all acts, and that a step of the system neither faults nor does anything
but acts.
-/

namespace TfReading.Cancellation

open Relation List Multiset Pool Manager

variable {κ : Type} {self : Nat}

structure Inv (v : View κ) : Prop where
  flags : Flags v
  family : Family v
  handed : Handed v
  destructors : Destructors v
  doomed : ∀ later self past d, v.log = later ++ .began self :: past →
    TransGen (ChildOf past) self d → Doomed v d

namespace Inv

variable {v v' : View κ}

theorem doomed_descendant (h : Inv v) (hact : Act v v') {d : Nat} (hself : Doomed v' self)
    (hd : TransGen (ChildOf v.log) self d) : Doomed v' d := by
  have hchild : ∀ p c, ChildOf v.log p c → Doomed v' p → Doomed v' c := by
    intro p c hc hp
    rcases Doomed.childOf_act h.family hact hc with hc | hc
    · exact .inherited hc hp
    · exact hc.elim .closing .pending
  induction hd with
  | single hc => exact hchild _ _ hc hself
  | tail _ hc ih => exact hchild _ _ hc ih

theorem act (h : Inv v) (hact : Act v v') : Inv v' := by
  refine ⟨h.flags.act hact, h.family.act h.flags hact, h.handed.act h.flags hact,
    h.destructors.act h.flags h.family hact, ?_⟩
  intro later self past d hlog hd
  have hold : ∀ later, v.log = later ++ .began self :: past → Doomed v' d := fun later hlog =>
    (h.doomed later self past d hlog hd).act h.flags h.family h.destructors hact
  rcases hact.log_suffix with heq | ⟨e, heq⟩
  · exact hold later (heq.symm.trans hlog)
  · rw [heq] at hlog
    cases later with
    | cons e' later => exact hold later (cons.inj hlog).2
    | nil =>
      obtain ⟨rfl, rfl⟩ := cons.inj hlog
      refine h.doomed_descendant hact (.begun (.inl ?_)) hd
      rw [heq]
      exact mem_cons_self

theorem acts (h : Inv v) (hacts : ReflTransGen Act v v') : Inv v' := by
  induction hacts with
  | refl => exact h
  | tail _ hact ih => exact ih.act hact

theorem initial : Inv (World.initial : World κ).view := by
  constructor
  case doomed => simp [World.initial, World.view, World.viewOf]
  all_goals
    constructor <;> simp [World.initial, World.view, World.viewOf, framesOf, closersOf, LawfulLog,
      ChildOf, View.handed, BegunWith, View.Pending]

end Inv

namespace World

variable {w w' : World κ}

variable {closers : Multiset (Nat × Option Nat)} {rest : Multiset (Frame κ)} {t : Thread κ}
    {index : Nat} {a : Label κ}

theorem startCancel_cases {frames : Multiset (Frame κ)}
    (hinv : Inv (w.viewOf frames closers)) (hself : self < w.made) :
    ((w.managers self).begun = true ∧ w.startCancel self = .ok (w, [])) ∨
    (w.managers self).begun = false ∧ ∃ l, w.managers.Siblings self l ∧
      w.startCancel self = .ok ({ w with managers := w.managers.detached self l }.record (.began self),
        [.visiting self (w.managers self).callbacks.entries l.reverse
          (w.managers self).state.isSome]) := by
  cases hb : (w.managers self).begun with
  | true =>
    refine .inl ⟨rfl, ?_⟩
    rw [startCancel, startCancel_begun hb]
    rfl
  | false =>
    have ⟨l, hl, hmem⟩ := hinv.family.siblings self hself
    have hlen : l.length ≤ w.made := by
      have hsub : l ⊆ range w.made := fun c hc =>
        List.mem_range.2 (Family.childOf_lt hinv.flags ((hmem c).1 hc))
      have hle := (hl.chain.nodup.subperm hsub).length_le
      rwa [length_range] at hle
    refine .inr ⟨rfl, l, hl, ?_⟩
    rw [startCancel, startCancel_eq hb hl hlen]
    rfl

/-- What `StartCancel` does without the lock and in its second locked section.  `rest` and
`closers` are the other calls in progress. -/
theorem advance_acts (choice : Nat) {frames : List (Frame κ)}
    (hinv : Inv (w.viewOf (frames + rest) closers)) :
    ∃ w' frames', w.advance choice frames = .ok (w', frames') ∧ w'.threads = w.threads ∧
      ReflTransGen Act (w.viewOf (frames + rest) closers) (w'.viewOf (frames' + rest) closers) := by
  cases frames with
  | nil => exact ⟨w, [], rfl, rfl, .refl⟩
  | cons frame frames =>
    have hcons : ((frame :: frames : List (Frame κ)) : Multiset (Frame κ)) + rest =
        frame ::ₘ (frames + rest) := by
      rw [← cons_coe, cons_add]
    rw [hcons] at hinv ⊢
    cases frame with
    | published self => exact ⟨_, _, rfl, rfl, .single (.notify _ self _ rfl)⟩
    | visiting self callbacks children notification =>
      cases callbacks with
      | cons callback callbacks =>
        cases hchoice : (callback :: callbacks)[choice]? with
        | none =>
          refine ⟨w, _, by rw [advance, hchoice], rfl, ?_⟩
          rw [← hcons]
        | some chosen =>
          obtain ⟨token, chosen⟩ := chosen
          refine ⟨w.record (.ran self token chosen), _, by rw [advance, hchoice], rfl, ?_⟩
          rw [← cons_coe, cons_add]
          exact .single (.run _ self _ choice _ _ children notification _ rfl hchoice)
      | nil =>
        cases children with
        | nil =>
          refine ⟨_, _, rfl, rfl, .single ?_⟩
          have hact := Act.publish (w.viewOf (.visiting self [] [] notification ::ₘ (frames + rest))
            closers) self notification _ rfl
          cases notification with
          | true => simpa [viewOf, modify, ← cons_coe] using hact
          | false => simpa [viewOf, modify] using hact
        | cons child children =>
          have hchild : child < w.made := (hinv.destructors.pending self child
            ⟨_, _, _, mem_cons_self _ _, mem_cons_self⟩).1
          rcases startCancel_cases hinv hchild with hb | ⟨hb, l, hl, hstart⟩
          · refine ⟨w, _, by rw [advance, hb.2]; rfl, rfl, .single ?_⟩
            rw [nil_append, ← cons_coe, cons_add]
            exact .skip _ self child children notification _ rfl hb.1
          · refine ⟨{ w with managers := w.managers.detached child l }.record (.began child), _,
              by rw [advance, hstart]; rfl, rfl, ?_⟩
            have hbegin := Act.begin (w.viewOf
              (.visiting self [] (child :: children) notification ::ₘ (frames + rest)) closers)
              child l hchild hb hl
            refine (ReflTransGen.single hbegin).tail ?_
            have hbegun : (w.managers.detached child l child).begun = true := by
              simp [detached, begun]
            have hskip := Act.skip (({ w with managers := w.managers.detached child l }.record
              (.began child)).viewOf (.visiting child (w.managers child).callbacks.entries l.reverse
                (w.managers child).state.isSome ::ₘ
              .visiting self [] (child :: children) notification ::ₘ (frames + rest)) closers)
              self child children notification _ (cons_swap _ _ _) hbegun
            rw [singleton_append, ← cons_coe, ← cons_coe, cons_add,
              cons_add, cons_swap]
            exact hskip

theorem continued_acts (choice : Nat)

    (hinv : Inv (w.viewOf (framesOf [t] + rest) (closersOf [t] + closers)))
    (hderegister : ∀ self token, t = .deregisterCallback self token → self < w.made ∧
      (w.managers self).notified = true)
    (hclosing : ∀ self awaited, t = .closing self awaited → ∀ parent ∈ awaited,
      (w.managers parent).notified = true) :
    ∃ w' ts, w.continued choice t = .ok (w', ts) ∧ w'.threads = w.threads ∧
      (∀ self token, .deregisterCallback self token ∉ ts) ∧
      ReflTransGen Act (w.viewOf (framesOf [t] + rest) (closersOf [t] + closers))
        (w'.viewOf (framesOf ts + rest) (closersOf ts + closers)) := by
  cases t with
  | startCancel frames =>
    cases frames with
    | nil => exact ⟨w, [], rfl, rfl, by simp, .refl⟩
    | cons =>
      rw [framesOf_startCancel] at hinv ⊢
      have ⟨w', frames', hadvance, hthreads, hacts⟩ := advance_acts choice hinv
      refine ⟨w', [.startCancel frames'], by rw [continued, hadvance]; rfl, hthreads, by simp, ?_⟩
      rw [framesOf_startCancel]
      exact hacts
  | destructor self frames =>
    rw [closersOf_destructor, singleton_add, framesOf_destructor] at hinv ⊢
    have hself := hinv.destructors.closing self none (mem_cons_self _ _)
    cases frames with
    | nil =>
      refine ⟨w.record (.destroyed self), [], rfl, rfl, by simp, .single ?_⟩
      rw [closersOf_nil, zero_add]
      exact .destroy _ self closers hself rfl
    | cons =>
      have ⟨w', frames', hadvance, hthreads, hacts⟩ := advance_acts choice hinv
      refine ⟨w', [.destructor self frames'], by rw [continued, hadvance]; rfl, hthreads, by simp, ?_⟩
      rw [closersOf_destructor, singleton_add, framesOf_destructor]
      exact hacts
  | deregisterCallback self token =>
    have ⟨hself, hnotified⟩ := hderegister self token rfl
    have hbegun : (w.managers self).begun = true := by
      have hcancelled : (w.managers self).isCancelled = true :=
        hinv.flags.notified self hself hnotified
      simp [begun, hcancelled]
    refine ⟨w.record (.deregister self token false), [], rfl, rfl, by simp, .single ?_⟩
    exact .keep _ self token hself hbegun
  | closing self awaited =>
    rw [closersOf_closing, singleton_add, framesOf_closing, zero_add] at hinv ⊢
    have hself : self < w.made := hinv.flags.known (.closing self)
      (hinv.destructors.closing self awaited (mem_cons_self _ _))
    have hproceed := Act.proceed (w.viewOf rest ((self, awaited) ::ₘ closers)) self awaited closers
      rfl (hclosing self awaited rfl)
    have hidle : ReflTransGen Act (w.viewOf rest ((self, awaited) ::ₘ closers))
        (w.viewOf (framesOf [.destructor self []] + rest)
          (closersOf [.destructor self ([] : List (Frame κ))] + closers)) := by
      rw [framesOf_destructor, closersOf_destructor, coe_nil, zero_add,
        singleton_add]
      exact .single hproceed
    cases hstate : (w.managers self).state.isSome with
    | false => exact ⟨w, [.destructor self []], by simp [continued, hstate], rfl, by simp, hidle⟩
    | true =>
      rcases startCancel_cases (hinv.act hproceed) hself with hb | ⟨hb, l, hl, hstart⟩
      · refine ⟨w, [.destructor self []], ?_, rfl, by simp, hidle⟩
        rw [continued, if_pos hstate, hb.2]
        rfl
      · refine ⟨{ w with managers := w.managers.detached self l }.record (.began self),
          [.destructor self [.visiting self (w.managers self).callbacks.entries l.reverse
            (w.managers self).state.isSome]], ?_, rfl, by simp, (ReflTransGen.single hproceed).tail ?_⟩
        · rw [continued, if_pos hstate, hstart]
          rfl
        · rw [framesOf_destructor, closersOf_destructor, singleton_add,
            coe_singleton, singleton_add]
          exact .begin _ self l hself hb hl

theorem leave_exists (hinv : Inv w.view) (hself : self < w.made) :
    ∃ awaited pool, w.managers.leave self = .ok (awaited, pool) := by
  rw [leave]
  cases hp : (w.managers self).parent with
  | none => exact ⟨_, _, rfl⟩
  | some parent =>
    have hwait : ∀ pool : Pool κ, (∀ a, (pool a).bare = (w.managers a).bare) →
        (pool parent).state.isSome = (w.managers parent).state.isSome → ∃ waits pool',
        (if (pool parent).isCancelling = true then
          if (pool parent).state.isSome = true then Except.ok (true, pool) else .error Fault.nullState
        else .ok (false, pool)) = .ok (waits, pool') := by
      intro pool hbare hstate
      have hcancelling : (pool parent).isCancelling = (w.managers parent).isCancelling :=
        congrArg Bare.isCancelling (hbare parent)
      cases hc : (w.managers parent).isCancelling with
      | false => exact ⟨_, _, if_neg (by simp [hcancelling, hc])⟩
      | true =>
        have hsome : (w.managers parent).state.isSome = true := by
          rcases hinv.family.state self hself parent hp with hsome | hcancelled
          · exact hsome
          · have hlt := lt_trans (hinv.family.parent_lt self hself parent hp) hself
            have hnot : (w.managers parent).isCancelling = false :=
              hinv.flags.exclusive parent hlt hcancelled
            rw [hc] at hnot
            cases hnot
        exact ⟨true, pool, by rw [if_pos (hcancelling.trans hc), if_pos (hstate.trans hsome)]⟩
    have hderegister : ∃ waits pool', w.managers.deregisterChild parent self = .ok (waits, pool') := by
      rw [deregisterChild]
      cases hr : (w.managers self).isRemovedFromParent with
      | true => exact hwait w.managers (fun _ => rfl) rfl
      | false =>
        obtain ⟨_, _, _, _, hunlink⟩ := hinv.family.unlinkChild_ok hself hp hr
        rw [show w.managers.unlinkChild parent self = _ from hunlink]
        refine hwait _ (unlinkChild_bare hunlink) ?_
        simp only [unlinked]
        split
        · exact Option.isSome_map
        · rfl
    obtain ⟨waits, pool, hderegister⟩ := hderegister
    exact ⟨if waits then some parent else none, pool, by simp only [hderegister]; rfl⟩

def others (w : World κ) (index : Nat) : List (Thread κ) :=
  w.threads.take index ++ w.threads.drop (index + 1)

theorem view_replace {w1 : World κ} (ts : List (Thread κ)) (h : w1.threads = w.threads) :
    ({ w1 with threads := w1.threads.take index ++ ts ++ w1.threads.drop (index + 1) } : World κ).view =
      w1.viewOf (framesOf ts + framesOf (w.others index)) (closersOf ts + closersOf (w.others index)) := by
  simp only [view, viewOf, others, h, framesOf_append, closersOf_append]
  rw [add_comm (framesOf (w.threads.take index)) (framesOf ts), add_assoc,
    add_comm (closersOf (w.threads.take index)) (closersOf ts), add_assoc]

theorem view_split (ht : w.threads[index]? = some t) :
    w.view = w.viewOf (framesOf [t] + framesOf (w.others index))
      (closersOf [t] + closersOf (w.others index)) := by
  have hsplit : w.threads = w.threads.take index ++ [t] ++ w.threads.drop (index + 1) := by
    have ⟨hlt, hget⟩ := List.getElem?_eq_some_iff.1 ht
    rw [← hget, append_assoc, singleton_append, getElem_cons_drop,
      take_append_drop]
  rw [← view_replace [t] rfl, ← hsplit]

/-- The callers' side of the invariant: who waits does so on a manager that exists. -/
structure Good (w : World κ) : Prop where
  inv : Inv w.view
  waiting : ∀ self token, Thread.deregisterCallback self token ∈ w.threads → self < w.made

/-- Where `DeregisterCallback` does not wait it does what `TryDeregisterCallback` does. -/
theorem deregisterCallback_cases (m : Manager κ) (token : Token) :
    m.deregisterCallback token = (.waits, m) ∨ m.deregisterCallback token =
      (.returned (m.tryDeregisterCallback token).1, (m.tryDeregisterCallback token).2) := by
  rw [Manager.deregisterCallback, tryDeregisterCallback, begun]
  cases m.isCancelled <;> cases m.isCancelling <;> cases m.state.isSome <;> simp

theorem tryDeregister_acts (hself : self < w.made) (token : Token) :
    ∃ w', w.next (.tryDeregisterCallback self token) = .ok w' ∧
      ReflTransGen Act w.view w'.view ∧ w'.threads = w.threads := by
  cases hb : (w.managers self).begun with
  | true =>
    refine ⟨w.record (.deregister self token false), ?_, .single (.keep _ self token hself hb), rfl⟩
    simp [next, tryDeregisterCallback, hb, modify, Pool.modify]
  | false =>
    refine ⟨(w.modify self fun m => m.eraseCallback token).record (.deregister self token true), ?_,
      .single (.deregister _ self token hself hb), rfl⟩
    simp [next, tryDeregisterCallback, hb, modify, Pool.modify]

theorem next_acts (h : w.Good) (ha : w.Enabled a) :
    ∃ w', w.next a = .ok w' ∧ ReflTransGen Act w.view w'.view ∧
      ∀ self token, .deregisterCallback self token ∈ w'.threads →
        .deregisterCallback self token ∈ w.threads ∨ self < w.made := by
  have hold : ∀ w' : World κ, w'.threads = w.threads → ∀ self token,
      .deregisterCallback self token ∈ w'.threads →
        .deregisterCallback self token ∈ w.threads ∨ self < w.made :=
    fun w' hthreads self token hmem => .inl (hthreads ▸ hmem)
  have hinv := h.inv
  cases a with
  | create => exact ⟨_, rfl, .single (.create _), hold _ rfl⟩
  | createChild parent =>
    exact ⟨_, rfl, .single (.createChild _ parent ha.1.1 ha.1.2 ha.2), hold _ rfl⟩
  | getCancellationToken self => exact ⟨_, rfl, .single (.takeToken _ self), hold _ rfl⟩
  | registerCallback self token callback =>
    cases hb : (w.managers self).begun with
    | true =>
      refine ⟨w.record (.register self token callback false), ?_,
        .single (.refuse _ self token callback ha.1.1 ha.2.2 hb), hold _ rfl⟩
      simp [next, registerCallback, hb, modify, Pool.modify]
    | false =>
      refine ⟨(w.modify self fun m => m.insertCallback token callback).record
        (.register self token callback true), ?_,
        .single (.register _ self token callback ha.1.1 ha.2.2 hb), hold _ rfl⟩
      simp [next, registerCallback, hb, modify, Pool.modify]
  | tryDeregisterCallback self token =>
    obtain ⟨w', hnext, hacts, hthreads⟩ := tryDeregister_acts ha.1 token
    exact ⟨w', hnext, hacts, hold w' hthreads⟩
  | deregisterCallback self token =>
    rcases deregisterCallback_cases (w.managers self) token with hwaits | hreturned
    · refine ⟨w.spawn (.deregisterCallback self token), ?_, ?_, ?_⟩
      · simp [next, hwaits, modify, Pool.modify]
      · have hview : (w.spawn (.deregisterCallback self token)).view = w.view := by
          rw [view, spawn, framesOf_append, closersOf_append]
          exact congrArg₂ _ (add_zero _) (add_zero _)
        rw [hview]
      · intro self' token' hmem
        rcases mem_append.1 hmem with hmem | hmem
        · exact .inl hmem
        · cases Multiset.mem_singleton.1 hmem
          exact .inr ha.1
    · obtain ⟨w', hnext, hacts, hthreads⟩ := tryDeregister_acts ha.1 token
      refine ⟨w', ?_, hacts, hold w' hthreads⟩
      rw [← hnext, next, hreturned]
      rfl
  | startCancel self =>
    rcases startCancel_cases hinv ha.1 with hb | ⟨hb, l, hl, hstart⟩
    · refine ⟨w.spawn (.startCancel []), by rw [next, hb.2]; rfl, ?_,
        fun self token hmem => .inl (by simpa [spawn] using hmem)⟩
      have hview : (w.spawn (.startCancel [])).view = w.view := by
        simp [view, viewOf, spawn]
      rw [hview]
    · refine ⟨_, by rw [next, hstart]; rfl, .single ?_,
        fun self token hmem => .inl (by simpa [spawn, record] using hmem)⟩
      have hbegin := Act.begin w.view self l ha.1 hb hl
      have hview : ∀ (w1 : World κ) (frame : Frame κ), (w1.spawn (.startCancel [frame])).view =
          w1.viewOf (frame ::ₘ framesOf w1.threads) (closersOf w1.threads) := by
        intro w1 frame
        simp [view, viewOf, spawn, add_comm, singleton_add]
      rw [hview]
      exact hbegin
  | destroy self =>
    obtain ⟨awaited, pool, hleave⟩ := leave_exists hinv ha.1.1
    have hclose := Act.close w.view self awaited pool ha.1.1 ha.1.2 ha.2 hleave
    have hview : ((({ w with managers := pool } : World κ).record (.closing self)).spawn
        (.closing self awaited)).view = { w.view with
          managers := pool
          closers := (self, awaited) ::ₘ w.view.closers
          log := .closing self :: w.log } := by
      simp [view, viewOf, spawn, record, add_comm, singleton_add]
    refine ⟨_, ?_, .single (hview ▸ hclose),
      fun self token hmem => .inl (by simpa [spawn, record] using hmem)⟩
    rcases Pool.leave_ok hleave with hroot | ⟨parent, waits, hp, hderegister, rfl⟩
    · simp only [next, hroot.1]
      rw [hroot.2.1, hroot.2.2]
    · simp only [next, hp, hderegister]
      rfl
  | resume index choice =>
    cases ht : w.threads[index]? with
    | none => simp [Enabled, ht] at ha
    | some t =>
      have hmem : t ∈ w.threads := mem_of_getElem? ht
      rw [view_split ht] at hinv ⊢
      obtain ⟨w', ts, hcontinued, hthreads, hnew, hacts⟩ := continued_acts choice hinv
        (by
          intro self token heq
          subst heq
          rw [Enabled, ht] at ha
          exact ⟨h.waiting self token hmem, ha⟩)
        (by
          intro self awaited heq
          subst heq
          rw [Enabled, ht] at ha
          exact ha)
      refine ⟨_, by simp only [next, ht, hcontinued]; rfl, ?_, ?_⟩
      · rw [view_replace ts hthreads]
        exact hacts
      · intro self token hmem
        simp only [hthreads, mem_append, hnew self token, or_false] at hmem
        exact .inl (hmem.elim mem_of_mem_take mem_of_mem_drop)

theorem made_le (hacts : ReflTransGen Act w.view w'.view) : w.made ≤ w'.made := by
  have hle : ∀ v v' : View κ, Act v v' → v.made ≤ v'.made := by
    intro v v' hact
    cases hact with
    | create => exact Nat.le_succ _
    | createChild => exact Nat.le_succ _
    | _ => exact le_rfl
  have hle' : ∀ v', ReflTransGen Act w.view v' → w.made ≤ v'.made := by
    intro v' h
    induction h with
    | refl => exact le_rfl
    | tail _ hact ih => exact le_trans ih (hle _ _ hact)
  exact hle' _ hacts

theorem Good.step (h : w.Good) (hstep : (system κ).step w a w') : w'.Good := by
  have ⟨w1, hnext, hacts, hwaiting⟩ := next_acts h hstep.1
  have hw : w1 = w' := Except.ok.inj (hnext.symm.trans hstep.2)
  subst hw
  refine ⟨h.inv.acts hacts, fun self token hmem => ?_⟩
  have hlt : self < w.made := (hwaiting self token hmem).elim (h.waiting self token) id
  exact lt_of_lt_of_le hlt (made_le hacts)

theorem good_of_reachable (h : (system κ).Reachable w) : w.Good :=
  h.invariant
    (by
      intro w hw
      rw [hw]
      exact ⟨.initial, by simp [initial]⟩)
    fun _ _ _ hgood hstep => hgood.step hstep

end World
end TfReading.Cancellation
