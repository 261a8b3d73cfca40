import TfReading.Cancellation.Manager
import TfReading.Library.LinkedLists

/-!
# The list of a manager's children

What the locked sections do to the sibling links, and that they leave everything else of
the managers alone.
-/

namespace TfReading.Cancellation

open LinkedLists Function Manager

variable {κ : Type}

/-- What a manager holds apart from its links and its token counter. -/
structure Bare (κ : Type) where
  isCancelling : Bool
  isCancelled : Bool
  parent : Option Nat
  callbacks : Callbacks κ
  notified : Bool

def Manager.bare (m : Manager κ) : Bare κ :=
  ⟨m.isCancelling, m.isCancelled, m.parent, m.callbacks, m.notified⟩

theorem Manager.begun_of_bare {m m' : Manager κ} (h : m'.bare = m.bare) : m'.begun = m.begun := by
  have hcancelling : m'.isCancelling = m.isCancelling := congrArg Bare.isCancelling h
  have hcancelled : m'.isCancelled = m.isCancelled := congrArg Bare.isCancelled h
  rw [begun, begun, hcancelling, hcancelled]

namespace Pool

variable {pool pool' : Pool κ} {a child fuel p q self : Nat} {l l1 l2 : List Nat} {waits : Bool}

def next (pool : Pool κ) (a : Nat) : Option Nat := (pool a).nextSibling

def prev (pool : Pool κ) (a : Nat) : Option Nat := (pool a).prevSibling

def Siblings (pool : Pool κ) (p : Nat) (l : List Nat) : Prop :=
  Linked pool.next pool.prev none (pool p).firstChild l

def detached (pool : Pool κ) (self : Nat) (l : List Nat) : Pool κ := fun a =>
  { pool a with
    isRemovedFromParent := (pool a).isRemovedFromParent || decide (a ∈ l)
    isCancelling := (pool a).isCancelling || decide (a = self)
    state := if a = self then (pool a).state.map fun st => { st with callbacks := ∅, firstChild := none }
      else (pool a).state }

theorem detachChildren_eq {start : Option Nat} (fuel : Nat) (found : List Nat)
    (h : Chain pool.next start l) (hfuel : l.length ≤ fuel) :
    detachChildren fuel pool start found = .ok (l.reverse ++ found, fun a =>
      { pool a with isRemovedFromParent := (pool a).isRemovedFromParent || decide (a ∈ l) }) := by
  induction l generalizing fuel pool start found with
  | nil =>
    rw [chain_nil.1 h]
    cases fuel <;> simp [detachChildren]
  | cons a l ih =>
    cases fuel with
    | zero => simp at hfuel
    | succ fuel =>
      obtain ⟨rfl, hrest⟩ := h
      let pool' := pool.modify a fun c => { c with isRemovedFromParent := true }
      have hnext : ∀ b, pool'.next b = pool.next b := modify_field nextSibling pool rfl
      have hchain : Chain pool'.next (pool' a).nextSibling l := by
        have hstart : (pool' a).nextSibling = pool.next a := hnext a
        rw [hstart]
        exact hrest.congr fun c _ => hnext c
      have hlen : l.length ≤ fuel := by simpa using hfuel
      have hrec := ih fuel (a :: found) hchain hlen
      refine hrec.trans ?_
      congr 2
      · simp
      · funext b
        by_cases hb : b = a
        · subst hb
          simp [pool']
        · simp [pool', modify_of_ne _ _ hb, hb]

theorem startCancel_begun (h : (pool self).begun = true) :
    startCancel fuel pool self = .ok (none, pool) := by
  rw [startCancel, if_pos h]

theorem startCancel_eq (hb : (pool self).begun = false)
    (hl : pool.Siblings self l) (hfuel : l.length ≤ fuel) :
    startCancel fuel pool self = .ok (some (.visiting self (pool self).callbacks.entries l.reverse
      (pool self).state.isSome), pool.detached self l) := by
  rw [startCancel, if_neg (by simp [hb])]
  cases hst : (pool self).state with
  | none =>
    have hnil : l = [] := by
      have hfirst : (pool self).firstChild = none := by simp [firstChild, hst]
      rw [Siblings, hfirst] at hl
      exact hl.chain.unique rfl
    subst hnil
    simp only [modify_self, hst, List.reverse_nil]
    congr 3
    · simp [callbacks, hst]
    · funext a
      by_cases ha : a = self
      · subst ha
        simp [detached, hst]
      · simp [detached, modify_of_ne _ _ ha, ha]
  | some st =>
    let pool1 := pool.modify self fun m => { m with isCancelling := true }
    let pool2 := pool1.modify self fun m => { m with state := some { st with callbacks := ∅ } }
    have hnext : ∀ b, pool2.next b = pool.next b := fun b =>
      (modify_field nextSibling pool1 rfl b).trans (modify_field nextSibling pool rfl b)
    have hchain : Chain pool2.next st.firstChild l := by
      have hfirst : (pool self).firstChild = st.firstChild := by simp [firstChild, hst]
      rw [Siblings, hfirst] at hl
      exact hl.chain.congr fun c _ => hnext c
    have hloop := detachChildren_eq fuel [] hchain hfuel
    simp only [modify_self, hst]
    rw [show detachChildren fuel _ st.firstChild [] = _ from hloop]
    refine congrArg Except.ok (Prod.ext ?_ ?_)
    · simp [callbacks, hst]
    · funext a
      by_cases ha : a = self
      · subst ha
        simp [detached, pool2, pool1, hst, modify_self]
      · simp [detached, pool2, pool1, modify_of_ne _ _ ha, ha]

theorem detached_bare_of_ne (h : a ≠ self) :
    (pool.detached self l a).bare = (pool a).bare := by
  simp [detached, bare, callbacks, notified, h]

def adopted (pool : Pool κ) (self parent : Nat) : Pool κ := fun a =>
  if a = self then { parent := some parent, nextSibling := (pool parent).firstChild }
  else
    { pool a with
      prevSibling := if (pool parent).firstChild = some a then some self else (pool a).prevSibling
      state := if a = parent then
          some { (pool parent).state.getD {} with firstChild := some self }
        else (pool a).state }

theorem construct_begun (hne : p ≠ self) (h : (pool p).begun = true) :
    pool.construct self p = update pool self
      { parent := some p, isRemovedFromParent := true, isCancelled := true } := by
  have hp : (update pool self { parent := some p } p).begun = true := by
    rw [update_of_ne hne, h]
  simp only [construct, registerChild, if_pos hp]
  funext a
  by_cases ha : a = self
  · subst ha
    simp
  · simp [modify_of_ne _ _ ha, ha]

theorem construct_eq (hne : p ≠ self) (h : (pool p).begun = false)
    (hfirst : (pool p).firstChild ≠ some self) : pool.construct self p = pool.adopted self p := by
  have hhead : ((pool p).state.getD {}).firstChild = (pool p).firstChild := by
    cases hst : (pool p).state <;> simp [firstChild, hst]
  simp only [construct, registerChild, update_of_ne hne, h, hhead, Bool.false_eq_true,
    if_false]
  funext a
  cases hc : (pool p).firstChild with
  | none =>
    by_cases ha : a = self
    · subst ha
      simp [adopted, modify_apply, hne.symm, hc]
    · by_cases hap : a = p
      · subst hap
        simp [adopted, modify_apply, ha, hc]
      · simp [adopted, modify_apply, ha, hap, hc]
  | some head =>
    have hhs : head ≠ self := fun heq => hfirst (heq ▸ hc)
    by_cases ha : a = self
    · subst ha
      simp [adopted, modify_apply, hne.symm, hhs.symm, hc]
    · by_cases hah : a = head
      · subst hah
        by_cases hap : a = p
        · subst hap
          simp [adopted, modify_apply, ha, hc]
        · simp [adopted, modify_apply, ha, hap, hc]
      · by_cases hap : a = p
        · subst hap
          simp [adopted, modify_apply, ha, hah, Ne.symm hah, hc]
        · simp [adopted, modify_apply, ha, hah, Ne.symm hah, hap, hc]

theorem registerChild_bare (self a : Nat) :
    ((pool.registerChild self child).2 a).bare = (pool a).bare := by
  have hstate : ∀ first, ({ (pool self) with
      state := some { (pool self).state.getD {} with firstChild := first } } : Manager κ).bare =
        (pool self).bare := by
    intro first
    cases hst : (pool self).state <;> simp [bare, callbacks, notified, hst]
  cases hb : (pool self).begun with
  | true =>
    simp only [registerChild, hb, if_true]
    exact modify_field bare pool rfl a
  | false =>
    simp only [registerChild, hb, Bool.false_eq_true, if_false]
    split
    · exact (modify_field bare _ rfl a).trans (modify_field bare pool (hstate _) a)
    · exact (modify_field bare _ rfl a).trans
        ((modify_field bare _ rfl a).trans (modify_field bare pool (hstate _) a))

theorem construct_bare_of_ne (ha : a ≠ self) :
    (pool.construct self p a).bare = (pool a).bare := by
  simp only [construct]
  rw [modify_of_ne _ _ ha, registerChild_bare, update_of_ne ha]

theorem construct_bare_self (hne : p ≠ self) :
    (pool.construct self p self).bare = ⟨false, (pool p).begun, some p, ∅, false⟩ := by
  have hbare : ((registerChild (update pool self { parent := some p }) p self).2 self).bare =
      (update pool self { parent := some p } self).bare := registerChild_bare p self
  have hresult : (registerChild (update pool self { parent := some p }) p self).1 =
      (pool p).begun := by
    simp only [registerChild, update_of_ne hne]
    cases (pool p).begun with
    | true => rfl
    | false => simp only [Bool.false_eq_true, if_false]; split <;> rfl
  rw [update_self] at hbare
  simp only [bare, Bare.mk.injEq, construct, modify_self, hresult] at hbare ⊢
  exact ⟨hbare.1, trivial, hbare.2.2.1, hbare.2.2.2.1, hbare.2.2.2.2⟩

theorem siblings_adopted (hne : p ≠ self) (h : pool.Siblings p l) (hself : self ∉ l) :
    (pool.adopted self p).Siblings p (self :: l) := by
  have hfirst : (pool.adopted self p p).firstChild = some self := by
    simp [adopted, hne, firstChild]
  rw [Siblings, hfirst]
  have hmem : ∀ c ∈ l, c ≠ self := fun c hc heq => hself (heq ▸ hc)
  refine .push h ?_ ?_ ?_ ?_
  · simp [next, adopted]
  · simp [prev, adopted]
  · intro c hc
    simp [next, adopted, hmem c hc]
  · intro c hc
    simp [prev, adopted, hmem c hc]

theorem siblings_adopted_of_ne (hq : q ≠ p) (hqs : q ≠ self) (h : pool.Siblings q l)
    (hself : self ∉ l) (hhead : ∀ c ∈ l, (pool p).firstChild ≠ some c) :
    (pool.adopted self p).Siblings q l := by
  have hfirst : (pool.adopted self p q).firstChild = (pool q).firstChild := by
    simp [adopted, hqs, hq, firstChild]
  rw [Siblings, hfirst]
  have hmem : ∀ c ∈ l, c ≠ self := fun c hc heq => hself (heq ▸ hc)
  refine h.congr ?_ ?_
  · intro c hc
    simp [next, adopted, hmem c hc]
  · intro c hc
    simp [prev, adopted, hmem c hc, hhead c hc]

def unlinked (pool : Pool κ) (p child : Nat) : Pool κ := fun a =>
  { pool a with
    nextSibling := if pool.prev child = some a then pool.next child else (pool a).nextSibling
    prevSibling := if pool.next child = some a then pool.prev child else (pool a).prevSibling
    isRemovedFromParent := (pool a).isRemovedFromParent || decide (a = child)
    state := if a = p ∧ pool.prev child = none then
        (pool a).state.map fun st => { st with firstChild := pool.next child }
      else (pool a).state }

theorem bypassForward_eq (hstate : (pool p).state.isSome = true) :
    pool.bypassForward p child = .ok fun a =>
      { pool a with
        nextSibling := if pool.prev child = some a then pool.next child else (pool a).nextSibling
        state := if a = p ∧ pool.prev child = none then
            (pool a).state.map fun st => { st with firstChild := pool.next child }
          else (pool a).state } := by
  have ⟨st, hst⟩ := Option.isSome_iff_exists.1 hstate
  rw [bypassForward]
  cases hb : (pool child).prevSibling with
  | none =>
    simp only [hst]
    refine congrArg Except.ok (funext fun a => ?_)
    by_cases ha : a = p
    · subst ha
      simp [prev, next, hb, hst]
    · simp [prev, hb, modify_of_ne _ _ ha, ha]
  | some before =>
    refine congrArg Except.ok (funext fun a => ?_)
    by_cases ha : a = before
    · subst ha
      simp [prev, next, hb]
    · have ha' : before ≠ a := fun heq => ha heq.symm
      simp [prev, hb, modify_of_ne _ _ ha, ha']

theorem bypassBackward_apply (a : Nat) : pool.bypassBackward child a =
    { pool a with
      prevSibling := if pool.next child = some a then pool.prev child else (pool a).prevSibling } := by
  rw [bypassBackward]
  cases hn : (pool child).nextSibling with
  | none => simp [next, hn]
  | some after =>
    by_cases ha : a = after
    · subst ha
      simp [prev, next, hn]
    · have ha' : after ≠ a := fun heq => ha heq.symm
      simp [next, hn, modify_of_ne _ _ ha, ha']

theorem unlinkChild_eq (hprev : pool.prev child ≠ some child)
    (hstate : (pool p).state.isSome = true) :
    pool.unlinkChild p child = .ok (pool.unlinked p child) := by
  rw [unlinkChild, bypassForward_eq hstate]
  refine congrArg Except.ok (funext fun a => ?_)
  rw [modify_apply]
  -- The forward links are read again once they have been written.
  have hread : (if pool.prev child = some child then pool.next child else (pool child).nextSibling) =
      pool.next child := if_neg hprev
  split
  next ha =>
    rw [ha, bypassBackward_apply, unlinked]
    simp only [next, prev] at hread ⊢
    simp only [hread, decide_true, Bool.or_true]
    congr
  next ha =>
    rw [bypassBackward_apply, unlinked]
    simp only [next, prev] at hread ⊢
    simp only [hread, ha, decide_false, Bool.or_false]
    congr

theorem unlinkChild_bare (h : pool.unlinkChild p child = .ok pool') (a : Nat) :
    (pool' a).bare = (pool a).bare := by
  have hback : ∀ pool1 : Pool κ, (pool1.bypassBackward child a).bare = (pool1 a).bare := by
    intro pool1
    rw [bypassBackward_apply]
    rfl
  have hlast : ∀ pool1 : Pool κ, (modify pool1 child
      (fun c => { c with isRemovedFromParent := true }) a).bare = (pool1 a).bare :=
    fun pool1 => modify_field bare pool1 rfl a
  rw [unlinkChild, bypassForward] at h
  split at h
  · split at h
    · cases h
    · next st hst =>
      cases h
      refine (hlast _).trans ((hback _).trans (modify_field bare pool ?_ a))
      simp [bare, callbacks, notified, hst]
  · cases h
    exact (hlast _).trans ((hback _).trans (modify_field bare pool rfl a))

/-- `DeregisterChild` takes the child off the list where that is still to be done, and waits
while the parent is being cancelled. -/
theorem deregisterChild_ok (h : pool.deregisterChild p child = .ok (waits, pool')) :
    ((pool child).isRemovedFromParent = true ∧ pool' = pool ∨
      (pool child).isRemovedFromParent = false ∧ pool.unlinkChild p child = .ok pool') ∧
    waits = (pool' p).isCancelling := by
  have hwait : ∀ pool1 : Pool κ, (if (pool1 p).isCancelling = true then
        if (pool1 p).state.isSome = true then Except.ok (true, pool1) else .error Fault.nullState
      else .ok (false, pool1)) = .ok (waits, pool') →
      pool' = pool1 ∧ waits = (pool' p).isCancelling := by
    intro pool1 h1
    split at h1
    · next hc =>
      split at h1
      · cases h1
        exact ⟨rfl, hc.symm⟩
      · cases h1
    · next hc =>
      cases h1
      exact ⟨rfl, by simpa using hc⟩
  rw [deregisterChild] at h
  cases hr : (pool child).isRemovedFromParent with
  | true =>
    rw [hr] at h
    have ⟨heq, hw⟩ := hwait pool h
    exact ⟨.inl ⟨rfl, heq⟩, hw⟩
  | false =>
    rw [hr] at h
    cases hu : pool.unlinkChild p child with
    | error =>
      rw [hu] at h
      cases h
    | ok pool1 =>
      rw [hu] at h
      have ⟨heq, hw⟩ := hwait pool1 h
      exact ⟨.inr ⟨rfl, congrArg Except.ok heq.symm⟩, hw⟩

theorem deregisterChild_bare (h : pool.deregisterChild p child = .ok (waits, pool')) (a : Nat) :
    (pool' a).bare = (pool a).bare := by
  rcases (deregisterChild_ok h).1 with h | h
  · rw [h.2]
  · exact unlinkChild_bare h.2 a

theorem siblings_unlinked (h : pool.Siblings p (l1 ++ child :: l2)) :
    (pool.unlinked p child).Siblings p (l1 ++ l2) := by
  have hprev : pool.prev child = l1.getLast? := by
    rw [h.prev_eq, Option.or_none]
  have hfirst : (pool.unlinked p child p).firstChild =
      if l1 = [] then pool.next child else (pool p).firstChild := by
    cases l1 with
    | nil =>
      cases hst : (pool p).state with
      | none =>
        have hnone : (pool p).firstChild = none := by simp [firstChild, hst]
        have hsome : (pool p).firstChild = some child := h.1
        rw [hnone] at hsome
        cases hsome
      | some => simp [unlinked, hprev, firstChild, hst]
    | cons =>
      have hsome : pool.prev child ≠ none := by simp [hprev]
      simp [unlinked, hsome, firstChild]
  rw [Siblings, hfirst]
  refine .remove h (fun c _ => by simp) ?_ ?_
  · intro c _
    rfl
  · intro c _
    rfl

theorem siblings_unlinked_of_ne (hq : q ≠ p) (h : pool.Siblings q l)
    (hprev : ∀ c ∈ l, pool.prev child ≠ some c) (hnext : ∀ c ∈ l, pool.next child ≠ some c) :
    (pool.unlinked p child).Siblings q l := by
  have hfirst : (pool.unlinked p child q).firstChild = (pool q).firstChild := by
    simp [unlinked, hq, firstChild]
  rw [Siblings, hfirst]
  refine h.congr ?_ ?_
  · intro c hc
    simp [next, unlinked, hprev c hc]
  · intro c hc
    simp [prev, unlinked, hnext c hc]

end Pool
end TfReading.Cancellation
