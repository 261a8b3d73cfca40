import TfReading.Cancellation.Family

/-!
# Callbacks

A registered callback is in its manager's map until the manager is cancelled or it is
deregistered.  From then on a call of `StartCancel` holds it until it has run.
-/

namespace TfReading.Cancellation

open Multiset Manager TfReading.Cancellation.Frame

variable {κ : Type} {log : List (Event κ)} {token : Token} {self : Nat} {callback : κ} {e : Event κ}

theorem Manager.lookup_insertCallback (m : Manager κ) (token token' : Token) (callback : κ) :
    (m.insertCallback token callback).callbacks.lookup token' =
      if token' = token then some callback else m.callbacks.lookup token' := by
  have hinsert : (m.insertCallback token callback).callbacks = m.callbacks.insert token callback := by
    cases hst : m.state <;> simp [insertCallback, callbacks, hst]
  rw [hinsert]
  by_cases h : token' = token
  · rw [h, if_pos rfl, AList.lookup_insert]
  · rw [if_neg h, AList.lookup_insert_ne h]

theorem Manager.lookup_eraseCallback (m : Manager κ) (token token' : Token) :
    (m.eraseCallback token).callbacks.lookup token' =
      if token' = token then none else m.callbacks.lookup token' := by
  cases hst : m.state with
  | none => simp [eraseCallback, callbacks, hst]
  | some =>
    by_cases h : token' = token
    · subst h
      simp [eraseCallback, callbacks, hst]
    · simp [eraseCallback, callbacks, hst, h, AList.lookup_erase_ne h]

def Frame.owed : Frame κ → Multiset (Nat × Token × κ)
  | .visiting self callbacks _ _ => callbacks.map fun x => (self, x.1, x.2)
  | .published _ => 0

def Event.ranCallback : Event κ → Option (Nat × Token × κ)
  | .ran self token callback => some (self, token, callback)
  | .child _ _ _ => none
  | .register _ _ _ _ => none
  | .deregister _ _ _ => none
  | .began _ => none
  | .closing _ => none
  | .destroyed _ => none

def View.handed (v : View κ) : Multiset (Nat × Token × κ) :=
  v.frames.bind Frame.owed + v.log.filterMap Event.ranCallback

theorem begunWith_cons : BegunWith self token callback (e :: log) ↔
      (e = .began self ∧ Registered self token callback log) ∨ BegunWith self token callback log := by
  constructor
  · rintro ⟨later, past, hlog, hr⟩
    cases later with
    | nil =>
      obtain ⟨rfl, rfl⟩ := List.cons.inj hlog
      exact .inl ⟨rfl, hr⟩
    | cons e' later => exact .inr ⟨later, past, (List.cons.inj hlog).2, hr⟩
  · rintro (⟨rfl, hr⟩ | ⟨later, past, hlog, hr⟩)
    · exact ⟨[], log, rfl, hr⟩
    · exact ⟨e :: later, past, by rw [hlog, List.cons_append], hr⟩

theorem begunWith_cons_iff (h : e ≠ .began self) :
    BegunWith self token callback (e :: log) ↔ BegunWith self token callback log :=
  begunWith_cons.trans (or_iff_right fun hb => h hb.1)

theorem BegunWith.begun (h : BegunWith self token callback log) : Begun self log := by
  obtain ⟨later, past, hlog, -⟩ := h
  exact .inl (by simp [hlog])

structure Handed (v : View κ) : Prop where
  kept : ∀ m < v.made, ∀ token callback, (v.managers m).callbacks.lookup token = some callback ↔
    Registered m token callback v.log ∧ ¬Begun m v.log
  nodup : v.handed.Nodup
  handed_iff : ∀ m token callback, (m, token, callback) ∈ v.handed ↔
    BegunWith m token callback v.log

namespace Handed

variable {v v' : View κ}

/-- Nothing but the maps and what the log says of callbacks is read, and a manager begins with an
empty map. -/
theorem congr (h : Handed v) (hf : Flags v)
    (hcallbacks : ∀ m < v.made, (v'.managers m).callbacks = (v.managers m).callbacks)
    (hnew : ∀ m < v'.made, ¬m < v.made → (v'.managers m).callbacks = ∅)
    (hhanded : v'.handed = v.handed)
    (hregistered : ∀ m token callback, Registered m token callback v'.log ↔
      Registered m token callback v.log)
    (hbegun : ∀ m < v.made, Begun m v'.log ↔ Begun m v.log)
    (hwith : ∀ m token callback, BegunWith m token callback v'.log ↔
      BegunWith m token callback v.log) : Handed v' where
  kept m hm token callback := by
    by_cases hlt : m < v.made
    · rw [hcallbacks m hlt, h.kept m hlt, hregistered, hbegun m hlt]
    · have hnone : ¬Registered m token callback v.log := fun hr =>
        hlt (hf.known _ hr.exists_register)
      simp [hnew m hm hlt, hregistered, hnone]
  nodup := hhanded ▸ h.nodup
  handed_iff m token callback := by
    rw [hhanded, h.handed_iff, hwith]

theorem begin (h : Handed v) (hf : Flags v) {l : List Nat} (hself : self < v.made)
    (hb : (v.managers self).begun = false) (children : List Nat) (notification : Bool) :
    Handed { v with
      managers := v.managers.detached self l
      frames := .visiting self (v.managers self).callbacks.entries children notification ::ₘ v.frames
      log := .began self :: v.log } := by
  have hnot := hf.not_begun hself hb
  have hmem : ∀ m token callback, (m, token, callback) ∈
      (visiting self (v.managers self).callbacks.entries children notification).owed ↔
        m = self ∧ Registered self token callback v.log := by
    intro m token callback
    have hlookup := h.kept self hself token callback
    rw [← Option.mem_def, AList.mem_lookup_iff] at hlookup
    simp only [hnot, not_false_iff, and_true] at hlookup
    rw [← hlookup]
    simp only [owed, mem_coe, List.mem_map, Prod.mk.injEq]
    constructor
    · intro hx
      obtain ⟨x, hx, rfl, rfl, rfl⟩ := hx
      exact ⟨rfl, hx⟩
    · intro hx
      exact ⟨⟨token, callback⟩, hx.2, hx.1.symm, rfl, rfl⟩
  have hhanded : View.handed { v with
      managers := v.managers.detached self l
      frames := .visiting self (v.managers self).callbacks.entries children notification ::ₘ v.frames
      log := .began self :: v.log } =
      (visiting self (v.managers self).callbacks.entries children notification).owed +
        v.handed := by
    have hran : List.filterMap Event.ranCallback (.began self :: v.log) =
        v.log.filterMap Event.ranCallback := rfl
    simp only [View.handed, cons_bind, hran, add_assoc]
  constructor
  · intro m hm token callback
    by_cases hms : m = self
    · subst hms
      have hempty : (v.managers.detached m l m).callbacks = ∅ := by
        cases hst : (v.managers m).state <;> simp [Pool.detached, callbacks, hst]
      have hbegun : Begun m (.began m :: v.log) := .inl List.mem_cons_self
      simp [hempty, hbegun]
    · have hsame : (v.managers.detached self l m).callbacks = (v.managers m).callbacks :=
        congrArg Bare.callbacks (Pool.detached_bare_of_ne hms)
      simp only [hsame]
      rw [h.kept m hm, begun_cons_iff (by simp [Ne.symm hms]) (by simp)]
      exact .rfl
  · rw [hhanded]
    refine nodup_add.2 ⟨?_, h.nodup, ?_⟩
    · refine coe_nodup.2 ((v.managers self).callbacks.nodupKeys.nodup.map ?_)
      intro x y hxy
      simp only [Prod.mk.injEq, true_and] at hxy
      exact Sigma.ext hxy.1 (heq_of_eq hxy.2)
    · rw [disjoint_left]
      intro x hx hx'
      obtain ⟨m, token, callback⟩ := x
      have hms := ((hmem m token callback).1 hx).1
      exact hnot (hms ▸ ((h.handed_iff m token callback).1 hx').begun)
  · intro m token callback
    rw [hhanded, mem_add, hmem, h.handed_iff]
    by_cases hms : m = self
    · subst hms
      rw [begunWith_cons]
      simp
    · rw [begunWith_cons_iff (by simp [Ne.symm hms])]
      simp [hms]

theorem run (h : Handed v) (hf : Flags v) {callbacks : List (Sigma fun _ : Token => κ)} {choice : Nat}
    {children : List Nat} {notification : Bool} {rest : Multiset (Frame κ)}
    (hframes : v.frames = .visiting self callbacks children notification ::ₘ rest)
    (hchoice : callbacks[choice]? = some ⟨token, callback⟩) :
    Handed { v with
      frames := .visiting self (callbacks.eraseIdx choice) children notification ::ₘ rest
      log := .ran self token callback :: v.log } := by
  have hperm : (callbacks : Multiset (Sigma fun _ : Token => κ)) =
      ⟨token, callback⟩ ::ₘ (callbacks.eraseIdx choice : Multiset _) := by
    have ⟨hlt, hget⟩ := List.getElem?_eq_some_iff.1 hchoice
    rw [cons_coe, coe_eq_coe, ← hget]
    exact (List.getElem_cons_eraseIdx_perm hlt).symm
  have howed : (visiting self callbacks children notification).owed =
      (self, token, callback) ::ₘ
        (visiting self (callbacks.eraseIdx choice) children notification).owed := by
    simp only [owed, ← map_coe, hperm, map_cons]
  refine h.congr hf (fun _ _ => rfl) (fun _ hm hlt => absurd hm hlt) ?_
    (fun m token callback => .rfl) (fun m _ => begun_cons_iff (by simp) (by simp))
    fun m token callback => begunWith_cons_iff (by simp)
  have hran : List.filterMap Event.ranCallback (.ran self token callback :: v.log) =
      (self, token, callback) :: v.log.filterMap Event.ranCallback := rfl
  simp only [View.handed, hframes, cons_bind, howed, hran, ← cons_coe,
    cons_add, add_cons]

theorem act (h : Handed v) (hf : Flags v) (hact : Act v v') : Handed v' := by
  -- The acts on frames other than `run` leave what is owed as it is.
  have hsilent : ∀ (pool : Pool κ) (frames : Multiset (Frame κ)) (closers : Multiset (Nat × Option Nat)),
      (∀ m, (pool m).callbacks = (v.managers m).callbacks) →
      frames.bind owed = v.frames.bind owed → Handed ⟨pool, v.made, frames, closers, v.log⟩ := by
    intro pool frames closers hcallbacks howed
    refine h.congr hf (fun m _ => hcallbacks m) (fun _ hm hlt => absurd hm hlt) ?_ (fun _ _ _ => .rfl)
      (fun _ _ => .rfl) fun _ _ _ => .rfl
    simp only [View.handed, howed]
  have hlogged : ∀ (pool : Pool κ) (closers : Multiset (Nat × Option Nat)) (e : Event κ),
      (∀ m, (pool m).callbacks = (v.managers m).callbacks) → e.ranCallback = none →
      (∀ m, e ≠ .began m) → (∀ m parent, e ≠ .child m parent true) →
      (∀ m token callback, Registered m token callback (e :: v.log) ↔
        Registered m token callback v.log) →
      Handed ⟨pool, v.made, v.frames, closers, e :: v.log⟩ := by
    intro pool closers e hcallbacks hran hbegan hchild hregistered
    refine h.congr hf (fun m _ => hcallbacks m) (fun _ hm hlt => absurd hm hlt) ?_ hregistered
      (fun m _ => begun_cons_iff (hbegan m) (hchild m)) fun m _ _ => begunWith_cons_iff (hbegan m)
    simp only [View.handed, List.filterMap_cons_none hran]
  have hkeep : ∀ self (f : Manager κ → Manager κ), (∀ m : Manager κ, (f m).callbacks = m.callbacks) →
      ∀ m, (v.managers.modify self f m).callbacks = (v.managers m).callbacks :=
    fun self f hf => Pool.modify_field callbacks v.managers (hf _)
  cases hact with
  | create =>
    refine h.congr hf (fun m hm => by simp only [Function.update_of_ne hm.ne])
      (fun m hm hlt => ?_) rfl (fun _ _ _ => .rfl) (fun _ _ => .rfl) fun _ _ _ => .rfl
    rw [Nat.eq_of_lt_succ_of_not_lt hm hlt]
    simp [callbacks]
  | createChild parent hp =>
    refine h.congr hf
      (fun m hm => congrArg Bare.callbacks (Pool.construct_bare_of_ne hm.ne))
      (fun m hm hlt => ?_) rfl (fun _ _ _ => .rfl) (fun m hm => ?_)
      fun _ _ _ => begunWith_cons_iff (by simp)
    · rw [Nat.eq_of_lt_succ_of_not_lt hm hlt]
      exact congrArg Bare.callbacks (Pool.construct_bare_self hp.ne)
    · have hne : v.made ≠ m := hm.ne.symm
      exact begun_cons_iff (by simp) (by simp [hne])
  | takeToken self =>
    exact hsilent _ _ _ (hkeep self _ fun m => rfl) rfl
  | register self token callback hself hfresh hb =>
    have hnot := hf.not_begun hself hb
    constructor
    · intro m hm token' callback'
      rw [begun_cons_iff (by simp) (by simp)]
      by_cases hms : m = self
      · subst hms
        simp only [Pool.modify_self, lookup_insertCallback]
        by_cases ht : token' = token
        · subst ht
          have hnone : ¬Registered m token' callback' v.log := fun hr =>
            hfresh _ _ hr.exists_register
          simp [Registered, hnot, hnone]
        · rw [if_neg ht, h.kept m hm]
          simp [Registered, Ne.symm ht]
      · simp only [Pool.modify_of_ne _ _ hms]
        rw [h.kept m hm]
        simp [Registered, Ne.symm hms]
    · exact h.nodup
    · intro m token' callback'
      rw [begunWith_cons_iff (by simp)]
      exact h.handed_iff m token' callback'
  | refuse self token callback hself hfresh hb | keep self token hself hb =>
    exact hlogged _ _ _ (fun _ => rfl) rfl (by simp) (by simp) (by simp [Registered])
  | deregister self token =>
    constructor
    · intro m hm token' callback'
      rw [begun_cons_iff (by simp) (by simp)]
      by_cases hms : m = self
      · subst hms
        simp only [Pool.modify_self, lookup_eraseCallback]
        by_cases ht : token' = token
        · subst ht
          simp [Registered]
        · rw [if_neg ht, h.kept m hm]
          simp [Registered, Ne.symm ht]
      · simp only [Pool.modify_of_ne _ _ hms]
        rw [h.kept m hm]
        simp [Registered, Ne.symm hms]
    · exact h.nodup
    · intro m token' callback'
      rw [begunWith_cons_iff (by simp)]
      exact h.handed_iff m token' callback'
  | begin self l hself hb => exact h.begin hf hself hb _ _
  | run self callbacks choice token callback children notification rest hframes hchoice =>
    exact h.run hf hframes hchoice
  | skip self child children notification rest hframes =>
    exact hsilent _ _ _ (fun _ => rfl) (by simp [hframes, owed])
  | publish self notification rest hframes =>
    refine hsilent _ _ _ (hkeep self _ fun m => rfl) ?_
    cases notification <;> simp [hframes, owed]
  | notify self rest hframes =>
    refine hsilent _ _ _ (hkeep self _ fun m => ?_) (by simp [hframes, owed])
    cases hst : m.state <;> simp [notify, callbacks, hst]
  | close self awaited pool hself hlive hchildren hleave =>
    exact hlogged _ _ _ (fun m => congrArg Bare.callbacks (Pool.leave_bare hleave m)) rfl (by simp)
      (by simp) fun _ _ _ => .rfl
  | proceed => exact hsilent _ _ _ (fun _ => rfl) rfl
  | destroy => exact hlogged _ _ _ (fun _ => rfl) rfl (by simp) (by simp) fun _ _ _ => .rfl

end Handed
end TfReading.Cancellation
