import Mathlib.Data.Finset.Card
import TfReading.Cancellation.Steps

/-!
# The callback protocol

What holds in every run, over every tree of managers: a registered callback runs at most
once, and exactly if its manager's cancellation begins while it is registered; a callback
that was reported as deregistered does not run; a cancellation reaches the descendants.
-/

namespace TfReading.Cancellation

open Relation LinkedLists Multiset List Event Manager

variable {κ : Type}

/-! ## Calls of `StartCancel` return -/

def Frame.weight : Frame κ → Nat
  | .visiting _ callbacks children _ => callbacks.length + children.length + 2
  | .published _ => 1

def View.weight (v : View κ) : Nat := (v.frames.map Frame.weight).sum

def View.unbegun (v : View κ) : Finset Nat :=
  (Finset.range v.made).filter fun m => (v.managers m).begun = false

/-- A step brings the calls in progress closer to their end: it begins a cancellation, of which
there are finitely many, or leaves less to do. -/
def View.Lower (v' v : View κ) : Prop :=
  v'.unbegun.card < v.unbegun.card ∨ v'.unbegun.card = v.unbegun.card ∧ v'.weight < v.weight

theorem View.unbegun_congr {v v' : View κ} (hmade : v'.made = v.made)
    (hbegun : ∀ m < v.made, (v'.managers m).begun = (v.managers m).begun) :
    v'.unbegun.card = v.unbegun.card := by
  rw [unbegun, unbegun, hmade]
  refine congrArg Finset.card (Finset.filter_congr fun m hm => ?_)
  rw [hbegun m (Finset.mem_range.1 hm)]

namespace World

variable {w w' : World κ}

theorem advance_lower {frame : Frame κ} {frames frames' : List (Frame κ)}
    {rest : Multiset (Frame κ)} {closers : Multiset (Nat × Option Nat)}
    (hinv : Inv (w.viewOf (↑(frame :: frames) + rest) closers))
    (h : w.advance 0 (frame :: frames) = .ok (w', frames')) :
    View.Lower (w'.viewOf (frames' + rest) closers) (w.viewOf (↑(frame :: frames) + rest) closers) := by
  have hmem : frame ∈ (↑(frame :: frames) + rest : Multiset (Frame κ)) := by simp
  cases frame with
  | published =>
    cases h
    refine .inr ⟨View.unbegun_congr rfl fun m _ => ?_, ?_⟩
    · exact Pool.modify_field begun w.managers rfl m
    · simp [View.weight, viewOf, Frame.weight]
  | visiting self callbacks children notification =>
    cases callbacks with
    | cons =>
      cases h
      refine .inr ⟨View.unbegun_congr rfl fun m _ => rfl, ?_⟩
      simp [View.weight, viewOf, Frame.weight]
    | nil =>
      cases children with
      | nil =>
        cases h
        refine .inr ⟨View.unbegun_congr rfl fun m _ => ?_, ?_⟩
        · have hself : (w.managers self).isCancelling = true := (hinv.flags.visiting self _ _ _ hmem).2
          refine Pool.modify_field begun w.managers ?_ m
          simp [begun, publish, hself]
        · cases notification <;> simp [View.weight, viewOf, Frame.weight]
      | cons child =>
        have hchild : child < w.made := (hinv.destructors.pending self child
          ⟨_, _, _, hmem, mem_cons_self⟩).1
        rcases startCancel_cases hinv hchild with hb | ⟨hb, l, hl, hstart⟩
        · rw [advance, hb.2] at h
          cases h
          refine .inr ⟨View.unbegun_congr rfl fun m _ => rfl, ?_⟩
          simp [View.weight, viewOf, Frame.weight]
        · rw [advance, hstart] at h
          cases h
          refine .inl (Finset.card_lt_card (Finset.ssubset_iff_of_subset ?_ |>.2 ⟨child, ?_, ?_⟩))
          · intro m hm
            simp only [View.unbegun, Finset.mem_filter, Finset.mem_range] at hm ⊢
            refine ⟨hm.1, ?_⟩
            by_cases hmc : m = child
            · exact hmc ▸ hb
            · rw [← begun_of_bare (Pool.detached_bare_of_ne hmc)]
              exact hm.2
          · exact Finset.mem_filter.2 ⟨Finset.mem_range.2 hchild, hb⟩
          · intro hmem
            have hbegun := (Finset.mem_filter.1 hmem).2
            simp [viewOf, record, Pool.detached, begun] at hbegun

/-- While a call of `StartCancel` is in progress, one of the threads can bring it closer to its
end. -/
theorem resume_lower (h : w.Good) (hframes : framesOf w.threads ≠ 0) :
    ∃ index w', (system κ).step w (.resume index 0) w' ∧ View.Lower w'.view w.view := by
  obtain ⟨frame, hframe⟩ := exists_mem_of_ne_zero hframes
  obtain ⟨t, ht, hft⟩ : ∃ t ∈ w.threads, frame ∈ t.frames := by
    simpa [framesOf] using hframe
  obtain ⟨index, hindex⟩ := mem_iff_getElem?.1 ht
  have hinv := h.inv
  cases t with
  | deregisterCallback self token | closing self awaited => simp [Thread.frames] at hft
  | startCancel frames | destructor self frames =>
    cases frames with
    | nil => simp [Thread.frames] at hft
    | cons =>
      have henabled : w.Enabled (.resume index 0) := by simp [Enabled, hindex]
      obtain ⟨w1, hnext, _⟩ := next_acts h henabled
      simp only [view_split hindex, framesOf_startCancel, closersOf_startCancel,
        framesOf_destructor, closersOf_destructor] at hinv
      obtain ⟨w', frames', hadvance, hthreads, _⟩ := advance_acts 0 hinv
      refine ⟨index, w1, ⟨henabled, hnext⟩, ?_⟩
      simp only [next, hindex, continued, hadvance] at hnext
      cases hnext
      simp only [view_replace _ hthreads, view_split hindex, framesOf_startCancel,
        closersOf_startCancel, framesOf_destructor, closersOf_destructor]
      exact advance_lower hinv hadvance

def Resumes (w w' : World κ) : Prop := ∃ index, (system κ).step w (.resume index 0) w'

/-- The calls of `StartCancel` in progress return without any other call being made. -/
theorem startCancel_returns (h : w.Good) :
    ∃ w', ReflTransGen Resumes w w' ∧ framesOf w'.threads = 0 := by
  -- The outer induction is on the cancellations that can still begin, the inner one on what is
  -- left to do for those that have.
  suffices hall : ∀ n k (w : World κ), w.view.unbegun.card = n → w.view.weight = k → w.Good →
      ∃ w', ReflTransGen Resumes w w' ∧ framesOf w'.threads = 0 from hall _ _ w rfl rfl h
  intro n
  induction n using Nat.strong_induction_on with
  | _ n ihn =>
    intro k
    induction k using Nat.strong_induction_on with
    | _ k ihk =>
      intro w hn hk hgood
      by_cases hframes : framesOf w.threads = 0
      · exact ⟨w, .refl, hframes⟩
      · have ⟨index, w1, hstep, hlower⟩ := resume_lower hgood hframes
        have hgood1 := hgood.step hstep
        have ⟨w', hrun, hend⟩ : ∃ w', ReflTransGen Resumes w1 w' ∧ framesOf w'.threads = 0 := by
          rcases hlower with hless | hless
          · exact ihn _ (hn ▸ hless) _ w1 rfl rfl hgood1
          · exact ihk _ (hk ▸ hless.2) w1 (hless.1.trans hn) rfl hgood1
        exact ⟨w', .head ⟨index, hstep⟩ hrun, hend⟩

end World

/-! ## The protocol -/

def World.Owes (w : World κ) (self : Nat) (token : Token) (callback : κ) : Prop :=
  ∃ thread ∈ w.threads, ∃ callbacks children notification,
    Frame.visiting self callbacks children notification ∈ thread.frames ∧
      ⟨token, callback⟩ ∈ callbacks

def World.Settled (w : World κ) : Prop := ∀ thread ∈ w.threads, thread.frames = []

structure Protocol (w : World κ) : Prop where
  /-- No registration is run twice. -/
  runs_once : ((w.log.filterMap Event.ranCallback).map fun x => (x.1, x.2.1)).Nodup
  /-- What runs was registered when the cancellation of its manager began. -/
  runs_only : ∀ self token callback, Event.ran self token callback ∈ w.log →
    BegunWith self token callback w.log
  /-- What was registered then has run, or a call in progress has it next. -/
  runs : ∀ self token callback, BegunWith self token callback w.log →
    Event.ran self token callback ∈ w.log ∨ w.Owes self token callback
  /-- A callback that was reported as deregistered has not run. -/
  deregistered : ∀ later self token past callback,
    w.log = later ++ .deregister self token true :: past →
    Event.register self token callback true ∈ past →
    ∀ callback', Event.ran self token callback' ∉ w.log
  /-- `RegisterCallback` returns false exactly if the cancellation had begun. -/
  registered : ∀ later self token callback registered past,
    w.log = later ++ .register self token callback registered :: past →
    (registered = false ↔ Begun self past)
  /-- Once the calls in progress have returned, the descendants that were registered when a
  cancellation began are cancelled, or their destructors have been entered. -/
  descendants : ∀ later self past d, w.log = later ++ .began self :: past →
    TransGen (ChildOf past) self d → w.Settled →
    (w.managers d).isCancelled = true ∨ Event.closing d ∈ w.log
  /-- The children of every manager are a doubly linked list. -/
  siblings : ∀ parent < w.made, ∃ l, Linked (fun a => (w.managers a).nextSibling)
    (fun a => (w.managers a).prevSibling) none (w.managers parent).firstChild l ∧
    ∀ child, child ∈ l ↔ ChildOf w.log parent child
  /-- The calls of `StartCancel` return. -/
  returns : ∃ w', ReflTransGen World.Resumes w w' ∧ w'.Settled
  /-- No call faults. -/
  faultless : ∀ a, w.Enabled a → ∃ w', w.next a = .ok w'

namespace World

variable {w : World κ}

theorem settled_iff : w.Settled ↔ framesOf w.threads = 0 := by
  simp [Settled, framesOf, flatMap_eq_nil_iff]

variable {self : Nat} {token : Token} {callback : κ} {later log past : List (Event κ)}

theorem mem_ran :
    (self, token, callback) ∈ log.filterMap ranCallback ↔
      ran self token callback ∈ log := by
  rw [List.mem_filterMap]
  constructor
  · intro h
    obtain ⟨e, he, heq⟩ := h
    cases e <;> simp_all [ranCallback]
  · intro h
    exact ⟨_, h, rfl⟩

theorem runs_only (h : Inv w.view)
    (hran : ran self token callback ∈ w.log) : BegunWith self token callback w.log :=
  (h.handed.handed_iff self token callback).1
    (mem_add.2 (.inr (mem_coe.2 (mem_ran.2 hran))))

theorem register_unique (h : LawfulLog log)
    {c1 c2 : κ} {b1 b2 : Bool} (h1 : register self token c1 b1 ∈ log)
    (h2 : register self token c2 b2 ∈ log) : c1 = c2 := by
  induction log with
  | nil => cases h1
  | cons e log ih =>
    cases h1 with
    | head =>
      cases h2 with
      | head => rfl
      | tail _ h2 => exact absurd h2 (h.1.2 _ _)
    | tail _ h1 =>
      cases h2 with
      | head => exact absurd h1 (h.1.2 _ _)
      | tail _ h2 => exact ih h.2 h1 h2

theorem runs_once (h : Inv w.view) :
    ((w.log.filterMap ranCallback).map fun x => (x.1, x.2.1)).Nodup := by
  have hnodup : (w.log.filterMap ranCallback).Nodup :=
    coe_nodup.1 (nodup_add.1 h.handed.nodup).2.1
  refine hnodup.map_on fun x hx y hy hxy => ?_
  obtain ⟨self, token, callback⟩ := x
  obtain ⟨self', token', callback'⟩ := y
  obtain ⟨rfl, rfl⟩ := Prod.mk.inj hxy
  have hregister : ∀ callback, (self, token, callback) ∈ w.log.filterMap ranCallback →
      .register self token callback true ∈ w.log := by
    intro callback hx
    obtain ⟨later, past, hlog, hr⟩ := runs_only h (mem_ran.1 hx)
    simp [hlog, hr.exists_register]
  rw [register_unique h.flags.lawful (hregister _ hx) (hregister _ hy)]

theorem owes_of_mem (h : (self, token, callback) ∈ (framesOf w.threads).bind Frame.owed) :
    w.Owes self token callback := by
  obtain ⟨frame, hframe, hmem⟩ := mem_bind.1 h
  have ⟨t, ht, hft⟩ : ∃ t ∈ w.threads, frame ∈ t.frames := by
    simpa [framesOf] using hframe
  cases frame with
  | published => simp [Frame.owed] at hmem
  | visiting self' callbacks children notification =>
    simp only [Frame.owed, mem_coe, List.mem_map, Prod.mk.injEq] at hmem
    obtain ⟨x, hx, rfl, rfl, rfl⟩ := hmem
    exact ⟨t, ht, callbacks, children, notification, hft, hx⟩

theorem past_cases {later' past' : List (Event κ)} {e e' : Event κ} (hne : e ≠ e')
    (h : later ++ e :: past = later' ++ e' :: past') :
    (∃ l, past = l ++ e' :: past') ∨ ∃ l, past' = l ++ e :: past := by
  rw [append_eq_append_iff] at h
  rcases h with ⟨l, -, hl⟩ | ⟨l, -, hl⟩
  · cases l with
    | nil => exact absurd (cons.inj hl).1 hne
    | cons _ l => exact .inl ⟨l, (cons.inj hl).2⟩
  · cases l with
    | nil => exact absurd (cons.inj hl).1 hne.symm
    | cons _ l => exact .inr ⟨l, (cons.inj hl).2⟩

/-- The cancellation that ran a callback began before or after a successful deregistration:
before is refused by the deregistration, after finds the callback gone. -/
theorem deregistered (h : Inv w.view)
    {callback' : κ} (hlog : w.log = later ++ .deregister self token true :: past)
    (hregister : register self token callback true ∈ past) :
    ran self token callback' ∉ w.log := by
  intro hran
  obtain ⟨later', past', hlog', hr⟩ := runs_only h hran
  have hlawful : LawfulLog w.log := h.flags.lawful
  have hnot : ¬Begun self past := by
    rw [hlog] at hlawful
    have hd := hlawful.at.1
    simpa [Event.Lawful] using hd
  -- Everything after the deregistration keeps the callback out of the map.
  have hgone : ∀ l, LawfulLog (l ++ .deregister self token true :: past) →
      ¬Registered self token callback' (l ++ .deregister self token true :: past) := by
    intro l
    induction l with
    | nil => exact fun _ hr => hr.1 ⟨rfl, rfl, rfl⟩
    | cons e l ih =>
      intro hl hr
      cases e with
      | register =>
        rcases hr with ⟨rfl, rfl, rfl, rfl⟩ | hr
        · exact hl.1.2 callback true (by simp [hregister])
        · exact ih hl.2 hr
      | deregister => exact ih hl.2 hr.2
      | child _ _ _ | began _ | ran _ _ _ | closing _ | destroyed _ => exact ih hl.2 hr
  rcases past_cases (by simp) (hlog.symm.trans hlog') with ⟨l, hpast⟩ | ⟨l, hpast⟩
  · exact hnot (.inl (by simp [hpast]))
  · rw [hlog'] at hlawful
    refine hgone l ?_ (hpast ▸ hr)
    rw [← hpast]
    exact hlawful.at.2

theorem reached (h : Inv w.view) {d : Nat}
    (hlog : w.log = later ++ .began self :: past) (hd : TransGen (ChildOf past) self d)
    (hsettled : w.Settled) : (w.managers d).isCancelled = true ∨ closing d ∈ w.log := by
  have hnone : framesOf w.threads = 0 := settled_iff.1 hsettled
  refine ((h.doomed later self past d hlog hd).reached h.flags h.family h.destructors hnone).imp_left
    fun hbegun => ?_
  have hlt : d < w.made := by
    rcases hbegun with hbegan | ⟨parent, hborn⟩
    · exact h.flags.known _ hbegan
    · exact h.flags.known _ hborn
  have hflag : (w.managers d).begun = true := (h.flags.begun_iff d hlt).2 hbegun
  rw [begun, Bool.or_eq_true] at hflag
  refine hflag.elim id fun hcancelling => ?_
  obtain ⟨callbacks, children, notification, hframe⟩ := h.flags.cancelling d hlt hcancelling
  have hmem : .visiting d callbacks children notification ∈ framesOf w.threads := hframe
  simp [hnone] at hmem

end World

/-- The callback protocol of the cancellation managers, in every run. -/
theorem callback_protocol {w : World κ} (h : (system κ).Reachable w) : Protocol w := by
  have hgood := World.good_of_reachable h
  have hinv := hgood.inv
  have ⟨w', hrun, hend⟩ := World.startCancel_returns hgood
  constructor
  · exact World.runs_once hinv
  · exact fun self token callback => World.runs_only hinv
  · intro self token callback hbegun
    have hmem := (hinv.handed.handed_iff self token callback).2 hbegun
    rcases mem_add.1 hmem with howed | hran
    · exact .inr (World.owes_of_mem howed)
    · exact .inl (World.mem_ran.1 (mem_coe.1 hran))
  · exact fun later self token past callback hlog hregister callback' =>
      World.deregistered hinv hlog hregister
  · intro later self token callback registered past hlog
    have hlawful : LawfulLog w.log := hinv.flags.lawful
    rw [hlog] at hlawful
    exact hlawful.at.1.1
  · exact fun later self past d => World.reached hinv
  · exact hinv.family.siblings
  · exact ⟨w', hrun, World.settled_iff.2 hend⟩
  · intro a ha
    have ⟨w₁, hnext, _⟩ := World.next_acts hgood ha
    exact ⟨w₁, hnext⟩

theorem World.reachable_next {w w' : World κ} (h : (system κ).Reachable w) (a : Label κ)
    (ha : w.Enabled a) (hnext : w.next a = .ok w') : (system κ).Reachable w' :=
  h.step ⟨ha, hnext⟩

/-- A callback that is registered with a child runs when its parent is cancelled. -/
theorem parent_runs_callback : ∃ w : World Nat, Protocol w ∧ Event.ran 1 0 7 ∈ w.log := by
  have h₀ : (system Nat).Reachable .initial := .init rfl
  have h₁ := World.reachable_next h₀ .create trivial rfl
  have h₂ := World.reachable_next h₁ (.createChild 0) ⟨⟨by decide, not_mem_nil⟩, nofun⟩ rfl
  have h₃ := World.reachable_next h₂ (.getCancellationToken 1) ⟨by decide, by simp [World.initial]⟩ rfl
  have h₄ := World.reachable_next h₃ (.registerCallback 1 0 7)
    ⟨⟨by decide, by simp [World.initial, World.modify]⟩, by decide,
      by simp [World.initial, World.modify]⟩ rfl
  have h₅ := World.reachable_next h₄ (.startCancel 0)
    ⟨by decide, by simp [World.initial, World.modify, World.record]⟩ rfl
  have h₆ := World.reachable_next h₅ (.resume 0 0) trivial rfl
  have h₇ := World.reachable_next h₆ (.resume 0 0) trivial rfl
  exact ⟨_, callback_protocol h₇, mem_cons_self⟩

/-! ## Waits -/

theorem Inv.not_visiting {v : View κ} (h : Inv v) {m : Nat} (hm : (v.managers m).notified = true)
    {callbacks children notification} : .visiting m callbacks children notification ∉ v.frames := by
  intro hframe
  obtain ⟨hlt, hcancelling⟩ := h.flags.visiting m _ _ _ hframe
  simp [h.flags.exclusive m hlt (h.flags.notified m hlt hm)] at hcancelling

structure Waits (w : World κ) : Prop where
  /-- `DeregisterCallback` goes on when the callbacks that the cancellation took have run. -/
  callbacks : ∀ index choice self token, w.threads[index]? = some (.deregisterCallback self token) →
    w.Enabled (.resume index choice) → ∀ token' callback, BegunWith self token' callback w.log →
    ran self token' callback ∈ w.log
  /-- A destructor goes on when no `StartCancel` in progress will come to its manager. -/
  children : ∀ index choice self awaited, w.threads[index]? = some (.closing self awaited) →
    w.Enabled (.resume index choice) → ∀ m, ¬w.view.Pending m self

/-- No wait ends too early. -/
theorem waits_suffice {w : World κ} (h : (system κ).Reachable w) : Waits w := by
  have hinv := (World.good_of_reachable h).inv
  constructor
  · intro index choice self token hindex henabled token' callback hbegun
    simp only [World.Enabled, hindex] at henabled
    rcases mem_add.1 ((hinv.handed.handed_iff self token' callback).2 hbegun) with howed | hran
    · obtain ⟨t, ht, _, _, _, hframe, -⟩ := World.owes_of_mem howed
      exact absurd (mem_coe.2 (mem_flatMap.2 ⟨t, ht, hframe⟩)) (hinv.not_visiting henabled)
    · exact World.mem_ran.1 (mem_coe.1 hran)
  · intro index choice self awaited hindex henabled m hpending
    simp only [World.Enabled, hindex] at henabled
    have hcloser : (self, awaited) ∈ w.view.closers :=
      mem_coe.2 (mem_filterMap.2 ⟨_, mem_of_getElem? hindex, rfl⟩)
    -- the manager that will come to it is the one that the destructor waits for
    have hawaited := (hinv.destructors.pending m self hpending).2.2.2 awaited hcloser
    obtain ⟨_, _, _, hframe, -⟩ := hpending
    exact hinv.not_visiting (henabled m (by simp [hawaited])) hframe

/-- A `DeregisterCallback` waits for a callback that the cancellation took. -/
theorem waits_suffice_deregister : ∃ w : World Nat, Waits w ∧
    w.threads[1]? = some (.deregisterCallback 0 5) ∧ w.Enabled (.resume 1 0) ∧
    BegunWith 0 0 7 w.log := by
  have h₀ : (system Nat).Reachable .initial := .init rfl
  have h₁ := World.reachable_next h₀ .create trivial rfl
  have h₂ := World.reachable_next h₁ (.getCancellationToken 0) ⟨by decide, by simp [World.initial]⟩ rfl
  have h₃ := World.reachable_next h₂ (.registerCallback 0 0 7)
    ⟨⟨by decide, by simp [World.initial, World.modify]⟩, by decide,
      by simp [World.initial, World.modify]⟩ rfl
  have h₄ := World.reachable_next h₃ (.startCancel 0)
    ⟨by decide, by simp [World.initial, World.modify, World.record]⟩ rfl
  have h₅ := World.reachable_next h₄ (.deregisterCallback 0 5)
    ⟨by decide, by simp [World.initial, World.modify, World.record, World.spawn]⟩ rfl
  have h₆ := World.reachable_next h₅ (.resume 0 0) trivial rfl
  have h₇ := World.reachable_next h₆ (.resume 0 0) trivial rfl
  have h₈ := World.reachable_next h₇ (.resume 0 0) trivial rfl
  exact ⟨_, waits_suffice h₈, rfl, rfl, [.ran 0 0 7], _, rfl, .inl ⟨rfl, rfl, rfl, rfl⟩⟩

/-! ## The state of the parent -/

/-- What the callers owe if also a manager that is being cancelled without a state may get
children. -/
def World.Permitted (w : World κ) : Label κ → Prop
  | .createChild parent => w.Live parent
  | a => w.Enabled a

def unguarded (κ : Type) : System (World κ) (Label κ) where
  init w := w = World.initial
  step w a w' := w.Permitted a ∧ w.next a = .ok w'

/-- In every run of enabled steps, `state_` is there where it is read. -/
theorem state_present {w : World κ} (h : (system κ).Reachable w) {a : Label κ} (ha : w.Enabled a) :
    w.next a ≠ .error .nullState := by
  have ⟨w', hnext, _⟩ := World.next_acts (World.good_of_reachable h) ha
  rw [hnext]
  nofun

/-- A child is destroyed while its parent is being cancelled. -/
theorem state_present_child : ∃ w : World Nat, (w.managers 0).isCancelling = true ∧
    w.next (.destroy 1) ≠ .error .nullState := by
  have h₀ : (system Nat).Reachable .initial := .init rfl
  have h₁ := World.reachable_next h₀ .create trivial rfl
  have h₂ := World.reachable_next h₁ (.createChild 0) ⟨⟨by decide, not_mem_nil⟩, nofun⟩ rfl
  have h₃ := World.reachable_next h₂ (.startCancel 0) ⟨by decide, by simp [World.initial]⟩ rfl
  refine ⟨_, rfl, state_present h₃ ⟨⟨by decide, ?_⟩, ?_⟩⟩
  · simp [World.initial, World.record, World.spawn]
  · rintro (_ | _ | child) hchild hparent
    · cases hparent
    · cases hparent
    · exact absurd (show child + 2 < 2 from hchild) (by omega)

/-- The first child is constructed while its parent is being cancelled. -/
theorem nullState_firstChild : ∃ w : World Nat, (unguarded Nat).Reachable w ∧
    w.Permitted (.destroy 1) ∧ w.next (.destroy 1) = .error .nullState := by
  have h₀ : (unguarded Nat).Reachable .initial := .init rfl
  have h₁ := h₀.step (show (unguarded Nat).step _ .create _ from ⟨trivial, rfl⟩)
  have h₂ := h₁.step (show (unguarded Nat).step _ (.startCancel 0) _ from
    ⟨⟨by decide, by simp [World.initial]⟩, rfl⟩)
  have h₃ := h₂.step (show (unguarded Nat).step _ (.createChild 0) _ from
    ⟨⟨by decide, by simp [World.initial, World.record, World.spawn]⟩, rfl⟩)
  refine ⟨_, h₃, ⟨⟨by decide, ?_⟩, ?_⟩, rfl⟩
  · simp [World.initial, World.record, World.spawn]
  · rintro (_ | _ | child) hchild hparent
    · cases hparent
    · cases hparent
    · exact absurd (show child + 2 < 2 from hchild) (by omega)

end TfReading.Cancellation
