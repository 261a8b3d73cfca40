import TfReading.Cancellation.Acts

/-!
# The flags of the managers and the calls of `StartCancel`

A manager is being cancelled exactly while one call is between its two locked sections, and
its flags say whether the log has its cancellation begun.
-/

namespace TfReading.Cancellation

open Multiset

variable {κ : Type} {log : List (Event κ)} {m : Nat} {f : Frame κ} {e : Event κ}

theorem begun_cons_iff {self : Nat}
    (hbegan : e ≠ .began self) (hchild : ∀ parent, e ≠ .child self parent true) :
    Begun self (e :: log) ↔ Begun self log := by
  simp [Begun, hbegan.symm, fun parent => (hchild parent).symm]

/-- What of a manager the locked sections test. -/
def Manager.flags (m : Manager κ) : Bool × Bool × Bool := (m.isCancelling, m.isCancelled, m.notified)

theorem Manager.flags_of_bare {m m' : Manager κ} (h : m'.bare = m.bare) : m'.flags = m.flags :=
  congrArg (fun b : Bare κ => (b.isCancelling, b.isCancelled, b.notified)) h

theorem Manager.flags_insertCallback (m : Manager κ) (token : Token) (callback : κ) :
    (m.insertCallback token callback).flags = m.flags := by
  cases hst : m.state <;> simp [insertCallback, flags, notified, hst]

theorem Manager.flags_eraseCallback (m : Manager κ) (token : Token) :
    (m.eraseCallback token).flags = m.flags := by
  cases hst : m.state <;> simp [eraseCallback, flags, notified, hst]

/-- The frame is a call on `self` between its two locked sections. -/
def Frame.visits (self : Nat) : Frame κ → Bool
  | .visiting self' _ _ _ => decide (self' = self)
  | .published _ => false

@[simp] theorem Frame.visits_visiting {self : Nat} {callbacks : List (Sigma fun _ : Token => κ)}
    {children : List Nat} {notification : Bool} :
    (Frame.visiting self callbacks children notification).visits m = decide (self = m) := rfl

@[simp] theorem Frame.visits_published {self : Nat} :
    (Frame.published self : Frame κ).visits m = false := rfl

structure Flags (v : View κ) : Prop where
  lawful : LawfulLog v.log
  known : ∀ e ∈ v.log, e.self < v.made
  begun_iff : ∀ m < v.made, (v.managers m).begun = true ↔ Begun m v.log
  visiting : ∀ m callbacks children notification,
    Frame.visiting m callbacks children notification ∈ v.frames →
      m < v.made ∧ (v.managers m).isCancelling = true
  visiting_once : ∀ m, v.frames.countP (fun f => f.visits m) ≤ 1
  cancelling : ∀ m < v.made, (v.managers m).isCancelling = true →
    ∃ callbacks children notification,
      Frame.visiting m callbacks children notification ∈ v.frames
  exclusive : ∀ m < v.made, (v.managers m).isCancelled = true → (v.managers m).isCancelling = false
  published : ∀ m, Frame.published m ∈ v.frames → m < v.made ∧ (v.managers m).isCancelled = true
  notified : ∀ m < v.made, (v.managers m).notified = true → (v.managers m).isCancelled = true

/-- What is said of one manager: `calls` are the calls of `StartCancel` on it. -/
structure FlagsAt (m : Nat) (flags : Bool × Bool × Bool) (calls : Multiset (Frame κ))
    (begun : Prop) : Prop where
  begun_iff : (flags.2.1 || flags.1) = true ↔ begun
  visiting : ∀ callbacks children notification,
    Frame.visiting m callbacks children notification ∈ calls → flags.1 = true
  visiting_once : calls.countP (fun f => f.visits m) ≤ 1
  cancelling : flags.1 = true → ∃ callbacks children notification,
    Frame.visiting m callbacks children notification ∈ calls
  exclusive : flags.2.1 = true → flags.1 = false
  published : Frame.published m ∈ calls → flags.2.1 = true
  notified : flags.2.2 = true → flags.2.1 = true

def Frame.self : Frame κ → Nat
  | .visiting self _ _ _ => self
  | .published self => self

def callsOn (m : Nat) (frames : Multiset (Frame κ)) : Multiset (Frame κ) :=
  frames.filter fun f => f.self = m

theorem callsOn_cons_self (f : Frame κ) (rest : Multiset (Frame κ)) :
    callsOn f.self (f ::ₘ rest) = f ::ₘ callsOn f.self rest := filter_cons_of_pos _ rfl

theorem callsOn_cons_of_ne (h : m ≠ f.self) (rest : Multiset (Frame κ)) :
    callsOn m (f ::ₘ rest) = callsOn m rest := filter_cons_of_neg _ (Ne.symm h)

namespace FlagsAt

variable {m : Nat} {flags : Bool × Bool × Bool} {calls : Multiset (Frame κ)} {begun : Prop}
  {callbacks callbacks' : List (Sigma fun _ : Token => κ)} {children children' : List Nat}
  {notification notification' : Bool}

theorem begin (h : FlagsAt m flags calls begun) (hb : (flags.2.1 || flags.1) = false)
    {begun' : Prop} (hbegun : begun') : FlagsAt m (true, flags.2)
      (.visiting m callbacks children notification ::ₘ calls) begun' := by
  obtain ⟨hcancelled, hcancelling⟩ := Bool.or_eq_false_iff.1 hb
  have hnone : calls.countP (fun f => f.visits m) = 0 := by
    refine countP_eq_zero.2 fun f hf hvisits => ?_
    cases f with
    | published => simp at hvisits
    | visiting m' =>
      have hm : m' = m := by simpa using hvisits
      cases hcancelling.symm.trans (h.visiting _ _ _ (hm ▸ hf))
  constructor
  · simp [hbegun]
  · exact fun _ _ _ _ => rfl
  · simp [hnone]
  · exact fun _ => ⟨_, _, _, mem_cons_self _ _⟩
  · intro hc
    cases hcancelled.symm.trans hc
  · exact fun hf => h.published (by simpa using hf)
  · exact h.notified

theorem reframe (h : FlagsAt m flags (.visiting m callbacks children notification ::ₘ calls) begun) :
    FlagsAt m flags (.visiting m callbacks' children' notification' ::ₘ calls) begun where
  begun_iff := h.begun_iff
  visiting _ _ _ _ := h.visiting _ _ _ (mem_cons_self _ _)
  visiting_once := by
    have hone := h.visiting_once
    rw [countP_cons] at hone ⊢
    exact hone
  cancelling _ := ⟨_, _, _, mem_cons_self _ _⟩
  exclusive := h.exclusive
  published hf := h.published (by simpa using hf)
  notified := h.notified

theorem publish (h : FlagsAt m flags (.visiting m callbacks children notification ::ₘ calls) begun)
    {new : Multiset (Frame κ)} (hnew : ∀ f ∈ new, f = .published m) :
    FlagsAt m (false, true, flags.2.2) (new + calls) begun := by
  have hnone : (new + calls).countP (fun f => f.visits m) = 0 := by
    have hone := h.visiting_once
    rw [countP_cons, if_pos (by simp)] at hone
    rw [countP_add, countP_eq_zero.2 fun f hf => by simp [hnew f hf]]
    omega
  constructor
  · simp [← h.begun_iff, h.visiting _ _ _ (mem_cons_self _ _)]
  · intro cs ch n hf
    have hpos : 0 < (new + calls).countP fun f => f.visits m := countP_pos.2 ⟨_, hf, by simp⟩
    omega
  · omega
  · exact fun hc => nomatch hc
  · exact fun _ => rfl
  · exact fun _ => rfl
  · exact fun _ => rfl

theorem notify (h : FlagsAt m flags (.published m ::ₘ calls) begun) {notified : Bool} :
    FlagsAt m (flags.1, flags.2.1, notified) calls begun where
  begun_iff := h.begun_iff
  visiting cs ch n hf := h.visiting cs ch n (mem_cons_of_mem hf)
  visiting_once := by simpa using h.visiting_once
  cancelling hc := by simpa using h.cancelling hc
  exclusive := h.exclusive
  published hf := h.published (mem_cons_of_mem hf)
  notified _ := h.published (mem_cons_self _ _)

end FlagsAt

namespace Flags

variable {v v' : View κ} {pool : Pool κ}

theorem self_lt (h : Flags v) (hf : f ∈ v.frames) : f.self < v.made := by
  cases f with
  | visiting => exact (h.visiting _ _ _ _ hf).1
  | published => exact (h.published _ hf).1

theorem flagsAt (h : Flags v) (hm : m < v.made) :
    FlagsAt m (v.managers m).flags (callsOn m v.frames) (Begun m v.log) where
  begun_iff := h.begun_iff m hm
  visiting cs ch n hf := (h.visiting m cs ch n (mem_of_mem_filter hf)).2
  visiting_once := (countP_le_of_le _ (filter_le _ _)).trans (h.visiting_once m)
  cancelling hc := by
    obtain ⟨cs, ch, n, hf⟩ := h.cancelling m hm hc
    exact ⟨cs, ch, n, mem_filter.2 ⟨hf, rfl⟩⟩
  exclusive := h.exclusive m hm
  published hf := (h.published m (mem_of_mem_filter hf)).2
  notified := h.notified m hm

theorem of_at (hlawful : LawfulLog v.log) (hknown : ∀ e ∈ v.log, e.self < v.made)
    (hself : ∀ f ∈ v.frames, f.self < v.made)
    (hat : ∀ m < v.made, FlagsAt m (v.managers m).flags (callsOn m v.frames) (Begun m v.log)) :
    Flags v where
  lawful := hlawful
  known := hknown
  begun_iff m hm := (hat m hm).begun_iff
  visiting m cs ch n hf :=
    ⟨hself _ hf, (hat m (hself _ hf)).visiting cs ch n (mem_filter.2 ⟨hf, rfl⟩)⟩
  visiting_once m := by
    have hcalls : v.frames.countP (fun f => f.visits m) = (callsOn m v.frames).countP fun f => f.visits m := by
      rw [callsOn, countP_filter]
      refine countP_congr rfl fun f _ => ?_
      cases f <;> simp [Frame.self]
    rw [hcalls]
    by_cases hm : m < v.made
    · exact (hat m hm).visiting_once
    · have hnone : callsOn m v.frames = 0 := filter_eq_nil.2 fun f hf heq => hm (heq ▸ hself f hf)
      rw [hnone]
      exact Nat.zero_le 1
  cancelling m hm hc := by
    obtain ⟨cs, ch, n, hf⟩ := (hat m hm).cancelling hc
    exact ⟨cs, ch, n, mem_of_mem_filter hf⟩
  exclusive m hm := (hat m hm).exclusive
  published m hf := ⟨hself _ hf, (hat m (hself _ hf)).published (mem_filter.2 ⟨hf, rfl⟩)⟩
  notified m hm := (hat m hm).notified

/-- Nothing but the flags, the calls of `StartCancel` and the log is read. -/
theorem congr (h : Flags v) (hflags : ∀ m < v.made, (v'.managers m).flags = (v.managers m).flags)
    (hmade : v'.made = v.made) (hframes : v'.frames = v.frames) (hlog : v'.log = v.log) :
    Flags v' := by
  refine of_at (hlog ▸ h.lawful) (hlog ▸ hmade ▸ h.known) (fun f hf => hmade ▸ h.self_lt (hframes ▸ hf))
    fun m hm => ?_
  rw [hmade] at hm
  rw [hflags m hm, hframes, hlog]
  exact h.flagsAt hm

theorem change (h : Flags v) {self : Nat} {frames : Multiset (Frame κ)}
    (hlawful : LawfulLog log) (hknown : ∀ e ∈ log, e.self < v.made) (hself : self < v.made)
    (hother : ∀ m ≠ self, (pool m).flags = (v.managers m).flags ∧
      callsOn m frames = callsOn m v.frames ∧ (Begun m log ↔ Begun m v.log))
    (hat : FlagsAt self (pool self).flags (callsOn self frames) (Begun self log)) :
    Flags { v with managers := pool, frames := frames, log := log } := by
  refine of_at hlawful hknown (fun f hf => ?_) fun m hm => ?_
  · by_cases hs : f.self = self
    · exact hs ▸ hself
    · have hmem : f ∈ callsOn f.self frames := mem_filter.2 ⟨hf, rfl⟩
      rw [(hother _ hs).2.1] at hmem
      exact h.self_lt (mem_of_mem_filter hmem)
  · by_cases hs : m = self
    · exact hs ▸ hat
    · obtain ⟨hflags, hcalls, hbegun⟩ := hother m hs
      rw [hflags, hcalls, hbegun]
      exact h.flagsAt hm

theorem cons (h : Flags v) (hself : e.self < v.made) (hlawful : e.Lawful v.log)
    (hbegun : ∀ m, Begun m (e :: v.log) ↔ Begun m v.log) : Flags { v with log := e :: v.log } :=
  { h with
    lawful := ⟨hlawful, h.lawful⟩
    known := fun e' he' => by
      cases he' with
      | head => exact hself
      | tail _ he' => exact h.known e' he'
    begun_iff := fun m hm => (h.begun_iff m hm).trans (hbegun m).symm }

theorem not_begun (h : Flags v) (hm : m < v.made) (hb : (v.managers m).begun = false) :
    ¬Begun m v.log := by
  rw [← h.begun_iff m hm, hb]
  exact Bool.false_ne_true

theorem not_begun_made (h : Flags v) : ¬Begun v.made v.log := by
  intro hb
  rcases hb with hb | ⟨parent, hb⟩
  · exact absurd (h.known _ hb) (lt_irrefl _)
  · exact absurd (h.known _ hb) (lt_irrefl _)

theorem add (h : Flags v) (hold : ∀ m < v.made, (pool m).flags = (v.managers m).flags)
    (hnew : (pool v.made).isCancelling = false ∧ (pool v.made).notified = false)
    (hlawful : LawfulLog log) (hknown : ∀ e ∈ log, e.self < v.made + 1)
    (hbegun : ∀ m < v.made, Begun m log ↔ Begun m v.log)
    (hbegun' : (pool v.made).isCancelled = true ↔ Begun v.made log) :
    Flags { v with managers := pool, made := v.made + 1, log := log } := by
  refine of_at hlawful hknown (fun f hf => Nat.lt_succ_of_lt (h.self_lt hf)) fun m hm => ?_
  rcases Nat.lt_succ_iff_lt_or_eq.1 hm with hm | rfl
  · rw [hold m hm, hbegun m hm]
    exact h.flagsAt hm
  · have hnone : callsOn v.made v.frames = 0 :=
      filter_eq_nil.2 fun f hf heq => (h.self_lt hf).ne heq
    rw [hnone, Manager.flags, hnew.1, hnew.2, ← hbegun']
    constructor <;> simp

theorem begin (h : Flags v) {self : Nat} {l : List Nat} (hself : self < v.made)
    (hb : (v.managers self).begun = false) (callbacks : List (Sigma fun _ : Token => κ))
    (children : List Nat) (notification : Bool) :
    Flags { v with
      managers := v.managers.detached self l
      frames := .visiting self callbacks children notification ::ₘ v.frames
      log := .began self :: v.log } := by
  refine h.change ⟨h.not_begun hself hb, h.lawful⟩ (fun e he => ?_) hself (fun m hm => ⟨?_, ?_, ?_⟩) ?_
  · cases he with
    | head => exact hself
    | tail _ he => exact h.known e he
  · exact Manager.flags_of_bare (Pool.detached_bare_of_ne hm)
  · exact callsOn_cons_of_ne hm _
  · exact begun_cons_iff (by simp [hm.symm]) (by simp)
  · have hcalls := callsOn_cons_self (.visiting self callbacks children notification) v.frames
    have hflags : (v.managers.detached self l self).flags = (true, (v.managers self).flags.2) := by
      cases hst : (v.managers self).state <;>
        simp [Pool.detached, Manager.flags, Manager.notified, hst]
    rw [Frame.self] at hcalls
    rw [hcalls, hflags]
    exact (h.flagsAt hself).begin hb (.inl List.mem_cons_self)

variable {rest : Multiset (Frame κ)}

theorem resume (h : Flags v) (hframes : v.frames = f ::ₘ rest)
    (hother : ∀ m ≠ f.self, pool m = v.managers m) (new : Multiset (Frame κ))
    (hnew : ∀ g ∈ new, g.self = f.self)
    (hat : ∀ calls, FlagsAt f.self (v.managers f.self).flags (f ::ₘ calls) (Begun f.self v.log) →
      FlagsAt f.self (pool f.self).flags (new + calls) (Begun f.self v.log)) :
    Flags { v with managers := pool, frames := new + rest } := by
  have hself : f.self < v.made := h.self_lt (hframes ▸ mem_cons_self _ _)
  refine h.change h.lawful h.known hself (fun m hm => ⟨by rw [hother m hm], ?_, .rfl⟩) ?_
  · rw [hframes, callsOn_cons_of_ne hm, callsOn, filter_add,
      filter_eq_nil.2 fun g hg heq => hm (heq.symm.trans (hnew g hg)), zero_add, callsOn]
  · have hcalls := h.flagsAt hself
    rw [hframes, callsOn_cons_self] at hcalls
    rw [callsOn, filter_add, filter_eq_self.2 hnew]
    exact hat _ hcalls

theorem act (h : Flags v) (hact : Act v v') : Flags v' := by
  have hsame : ∀ self (f : Manager κ → Manager κ), (∀ m, (f m).flags = m.flags) →
      Flags { v with managers := v.managers.modify self f } := by
    intro self f hf
    exact h.congr (fun m _ => Pool.modify_field Manager.flags v.managers (hf _) m) rfl rfl rfl
  cases hact with
  | create =>
    have hne : ∀ m < v.made, m ≠ v.made := fun m hm => hm.ne
    refine h.add (fun m hm => by rw [Function.update_of_ne (hne m hm)]) ?_ h.lawful
      (fun e he => Nat.lt_succ_of_lt (h.known e he)) (fun m _ => .rfl) ?_
    · simp [Manager.notified]
    · simp [h.not_begun_made]
  | createChild parent hp =>
    have hbare : (v.managers.construct v.made parent v.made).bare = ⟨false, _, some parent, ∅, false⟩ :=
      Pool.construct_bare_self hp.ne
    have hcancelled : (v.managers.construct v.made parent v.made).isCancelled =
        (v.managers parent).begun := congrArg Bare.isCancelled hbare
    refine h.add (fun m hm => Manager.flags_of_bare (Pool.construct_bare_of_ne hm.ne))
      ⟨congrArg Bare.isCancelling hbare, congrArg Bare.notified hbare⟩ ⟨?_, h.lawful⟩ ?_ ?_ ?_
    · rw [hcancelled]
      exact h.begun_iff parent hp
    · intro e he
      cases he with
      | head => exact Nat.lt_succ_self _
      | tail _ he => exact Nat.lt_succ_of_lt (h.known e he)
    · intro m hm
      have hne : v.made ≠ m := hm.ne.symm
      exact begun_cons_iff (by simp) (by simp [hne])
    · have hnot := h.not_begun_made
      simp only [Begun, not_or, not_exists] at hnot
      cases hc : (v.managers.construct v.made parent v.made).isCancelled <;> simp [Begun, hnot]
  | takeToken self => exact hsame self _ fun m => rfl
  | register self token callback hself hfresh hb =>
    refine (hsame self _ fun m => m.flags_insertCallback token callback).cons hself ⟨?_, hfresh⟩ ?_
    · simp [h.not_begun hself hb]
    · exact fun m => begun_cons_iff (by simp) (by simp)
  | refuse self token callback hself hfresh hb =>
    have hb' : Begun self v.log := (h.begun_iff self hself).1 hb
    exact h.cons hself ⟨by simp [hb'], hfresh⟩ fun m => begun_cons_iff (by simp) (by simp)
  | deregister self token hself hb =>
    exact (hsame self _ fun m => m.flags_eraseCallback token).cons hself
      (by simp [Event.Lawful, h.not_begun hself hb]) fun m => begun_cons_iff (by simp) (by simp)
  | keep self token hself hb =>
    have hb' : Begun self v.log := (h.begun_iff self hself).1 hb
    exact h.cons hself (by simp [Event.Lawful, hb']) fun m => begun_cons_iff (by simp) (by simp)
  | begin self l hself hb => exact h.begin hself hb _ _ _
  | run self callbacks choice token callback children notification rest hframes =>
    have hself := (h.visiting self _ _ _ (hframes ▸ mem_cons_self _ _)).1
    have hreframed := h.resume hframes (fun _ _ => rfl)
      {.visiting self (callbacks.eraseIdx choice) children notification} (by simp [Frame.self])
      fun _ hat => hat.reframe
    exact hreframed.cons hself trivial fun m => begun_cons_iff (by simp) (by simp)
  | skip self child children notification rest hframes =>
    exact h.resume hframes (fun _ _ => rfl) {.visiting self [] children notification}
      (by simp [Frame.self]) fun _ hat => hat.reframe
  | publish self notification rest hframes => 
    have hnew : ∀ f ∈ if notification then ({.published self} : Multiset (Frame κ)) else 0,
        f = .published self := by
      cases notification <;> simp
    refine h.resume hframes (fun m hm => Pool.modify_of_ne _ _ hm) _
      (fun g hg => by rw [hnew g hg, Frame.self, Frame.self]) fun _ hat => ?_
    rw [Frame.self, Pool.modify_self]
    exact hat.publish hnew
  | notify self rest hframes => 
    rw [← zero_add rest]
    refine h.resume hframes (fun m hm => Pool.modify_of_ne _ _ hm) 0 (by simp) fun _ hat => ?_
    rw [Frame.self, Pool.modify_self, zero_add]
    exact hat.notify
  | close self awaited pool hself hlive hchildren hleave =>
    have hflags : Flags { v with managers := pool, closers := (self, awaited) ::ₘ v.closers } :=
      h.congr (fun m _ => Manager.flags_of_bare (Pool.leave_bare hleave m)) rfl rfl rfl
    exact hflags.cons hself trivial fun m => begun_cons_iff (by simp) (by simp)
  | proceed => exact h.congr (fun _ _ => rfl) rfl rfl rfl
  | destroy self rest hclosing =>
    have hflags : Flags { v with closers := rest } := h.congr (fun _ _ => rfl) rfl rfl rfl
    have hself : self < v.made := h.known (.closing self) hclosing
    exact hflags.cons hself trivial fun m => begun_cons_iff (by simp) (by simp)

end Flags
end TfReading.Cancellation
