import Mathlib.Logic.Relation

/-!
# Runs of a transition system

A system is given by its initial states and by a step relation that names the
action taken.  A property of every reachable state is proved from one step.
-/

namespace TfReading

/-- Initial states and labelled steps. -/
structure System (σ ι : Type*) where
  init : σ → Prop
  step : σ → ι → σ → Prop

namespace System

variable {σ ι : Type*} (S : System σ ι)

/-- The states that some finite run ends in. -/
inductive Reachable : σ → Prop
  | init {s : σ} (h : S.init s) : Reachable s
  | step {s s' : σ} {a : ι} (h : Reachable s) (hs : S.step s a s') : Reachable s'

variable {S}

/-- What holds initially and survives every step holds in every reachable state. -/
theorem Reachable.invariant {P : σ → Prop} (hinit : ∀ s, S.init s → P s)
    (hstep : ∀ s a s', P s → S.step s a s' → P s') {s : σ} (h : S.Reachable s) : P s := by
  induction h with
  | init h => exact hinit _ h
  | step _ hs ih => exact hstep _ _ _ ih hs

theorem Reachable.replay {next : σ → ι → Option σ}
    (hnext : ∀ s a s', next s a = some s' → S.step s a s') {as : List ι} {s s' : σ}
    (h : S.Reachable s) (hrun : as.foldlM next s = some s') : S.Reachable s' := by
  induction as generalizing s with
  | nil =>
    cases hrun
    exact h
  | cons a as ih =>
    rw [List.foldlM_cons] at hrun
    obtain ⟨s1, hs, hrun⟩ := Option.bind_eq_some_iff.mp hrun
    exact ih (h.step (hnext s a s1 hs)) hrun

end System

/-- Actions replayed on two sides at once stay related if each action keeps them so.  The first
side may refuse an action, which ends the run. -/
theorem foldlM_simulates {σ τ ι : Type*} {R : σ → τ → Prop} {next : σ → ι → Option σ}
    {spec : τ → ι → τ} {as : List ι}
    (hnext : ∀ a ∈ as, ∀ s t s', R s t → next s a = some s' → R s' (spec t a)) {s s' : σ} {t : τ}
    (h : R s t) (hrun : as.foldlM next s = some s') : R s' (as.foldl spec t) := by
  induction as generalizing s t with
  | nil =>
    cases hrun
    exact h
  | cons a as ih =>
    rw [List.foldlM_cons] at hrun
    obtain ⟨s1, hs, hrun⟩ := Option.bind_eq_some_iff.mp hrun
    exact ih (fun b hb => hnext b (List.mem_cons_of_mem a hb))
      (hnext a List.mem_cons_self s t s1 h hs) hrun

end TfReading
