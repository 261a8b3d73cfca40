import Mathlib.Data.Finset.Max
import TfReading.Executor.Runs

/-!
# Frames are reclaimed

In runs in which the last `Enter` node of a frame finds or leaves something to do in iteration 0, a
child frame outlives the execution only if it waits for an `Enter` node itself, or holds a frame
that does.
-/

namespace TfReading.Executor

open Outcome List ExecState

def busySystem (g : Graph) : System ExecState (TaggedNode × List Entry) where
  init s := ExecState.init g = .ok s
  step s a s' := a.1 ∈ s.running ∧ s.propagator.entersBusy g a.1 a.2 = true ∧
    s.complete g a.1 a.2 = .ok s'

namespace PropagatorState

variable {g : Graph} {s : PropagatorState} {ids : Finset FrameId} {cnt : FrameId → Nat → Nat}

theorem Outstanding.mem_of_suffix
    (h : Outstanding g True False s ids (fun _ => false) cnt (childCount ids)) {id id' : FrameId}
    (hsuffix : id <:+ id') (hmem : id' ∈ ids) : id ∈ ids := by
  induction id' with
  | nil => rwa [suffix_nil.mp hsuffix]
  | cons step parent ih =>
    rcases suffix_cons_iff.mp hsuffix with heq | hsuffix
    · rwa [heq]
    · apply ih hsuffix
      obtain ⟨frameName, iter⟩ := step
      have hcount := childCount_erase hmem parent iter
      rw [if_pos ⟨rfl, rfl⟩] at hcount
      rw [h.mem_iff, Option.isSome_iff_ne_none]
      intro hnone
      exact Nat.succ_ne_zero _ (hcount.symm.trans (h.absent parent hnone iter).2)

/-- Among the frames inside of an outstanding one, a deepest one waits for an input. -/
theorem Outstanding.exists_waiting
    (h : Outstanding g True False s ids (fun _ => false) (fun _ _ => 0) (childCount ids)) {id : FrameId}
    (hmem : id ∈ ids) :
    ∃ id' f, id <:+ id' ∧ s.frames id' = some f ∧ 0 < f.numPendingInputs := by
  obtain ⟨id', hid', hmax⟩ := (ids.filter fun id' => id <:+ id').exists_max_image length
    ⟨id, Finset.mem_filter.mpr ⟨hmem, suffix_rfl⟩⟩
  obtain ⟨hmem', hsuffix⟩ := Finset.mem_filter.mp hid'
  obtain ⟨f, hf⟩ := Option.isSome_iff_exists.mp ((h.mem_iff id').mp hmem')
  refine ⟨id', f, hsuffix, hf, ?_⟩
  have hheld := h.frame id' f hf
  obtain ⟨lo, -, -, -, hawake⟩ := hheld.held
  by_contra hle
  have hpending := hheld.pending trivial
  obtain ⟨-, hbusy⟩ := hawake trivial rfl (by omega)
  -- Nothing runs, so the oldest iteration waits for a frame that is deeper still.
  have hkids : childCount ids id' lo ≠ 0 := by
    rcases hbusy with hbusy | hbusy
    · exact absurd rfl hbusy
    · exact hbusy
  obtain ⟨frameName, hchild⟩ := exists_child hkids
  have hlong := hmax _ (Finset.mem_filter.mpr
    ⟨hchild, hsuffix.trans (suffix_cons (frameName, lo) id')⟩)
  rw [length_cons] at hlong
  omega

end PropagatorState

variable {g : Graph} {s : ExecState}

theorem PropagatorState.serves_of_entersBusy {p : PropagatorState} {t : TaggedNode}
    {outputs : List Entry} (hbusy : p.entersBusy g t outputs = true) :
    p.Serves g True False t outputs where
  limit_pos isConstant frameName _ hkind hnone := by
    rw [entersBusy, hkind] at hbusy
    simp only [Bool.and_eq_true, decide_eq_true_eq, enteredFrame, hnone, Option.getD_none] at hbusy
    exact hbusy.1.1
  busy _ := hbusy
  starts := False.elim

/-- A graph without roots stays in its initial state. -/
theorem reachable_accounted (hs : (busySystem g).Reachable s) :
    (∃ ids, s.Accounted g True False ids) ∨ (init g = .ok s ∧ s.running = []) := by
  refine hs.invariant (P := fun s => (∃ ids, s.Accounted g True False ids) ∨
    (init g = .ok s ∧ s.running = [])) (fun s hs => ?_) (fun s a s' h hstep => ?_)
  · by_cases hne : s.running = []
    · exact .inr ⟨hs, hne⟩
    · exact .inl ⟨_, init_accounted hs (fun _ => hne)⟩
  · obtain ⟨hmem, hbusy, hc⟩ := hstep
    rcases h with ⟨ids, h⟩ | ⟨-, hnil⟩
    · exact .inl ((complete_accounted h hmem (PropagatorState.serves_of_entersBusy hbusy)).of_ok hc)
    · rw [hnil] at hmem
      exact absurd hmem not_mem_nil

/-- Outside of the frames that still wait for an `Enter` node, no child frame is left when nothing
is ready or running, and every iteration counts the frames that are left. -/
theorem frames_reclaimed (g : Graph) (s : ExecState) (hs : (busySystem g).Reachable s)
    (hquiet : s.running = []) :
    (∀ id, id ≠ [] → (∀ id' f, id <:+ id' → s.propagator.frames id' = some f →
        f.numPendingInputs ≤ 0) → s.propagator.frames id = none) ∧
      ∃ ids : Finset FrameId, (∀ id, id ∈ ids ↔ (s.propagator.frames id).isSome) ∧
        ∀ id f k it, s.propagator.frames id = some f → f.getIteration k = some it →
          it.outstandingFrameCount = childCount ids id it.iterNum := by
  rcases reachable_accounted hs with ⟨ids, h⟩ | ⟨hinit, -⟩
  · rw [ExecState.Accounted, hquiet] at h
    refine ⟨fun id _ hin => ?_, ids, h.mem_iff, fun id f k it hf hget => ?_⟩
    · by_contra hsome
      have hmem : id ∈ ids := (h.mem_iff id).mpr (Option.isSome_iff_ne_none.mpr hsome)
      obtain ⟨id', f, hsuffix, hf, hpos⟩ := h.exists_waiting hmem
      have hle := hin id' f hsuffix hf
      omega
    · obtain ⟨lo, hwin, -⟩ := (h.frame id f hf).held
      exact (hwin.of_get hget).2
  · obtain ⟨hframes, -⟩ := init_frames hinit
    refine ⟨fun id hne _ => ?_, {[]}, fun id => ?_, fun id f k it hf hget => ?_⟩
    · rw [hframes, Function.update_of_ne hne]
    · rw [hframes, Finset.mem_singleton]
      by_cases hid : id = [] <;> simp [hid]
    · rw [hframes] at hf
      by_cases hid : id = []
      · subst hid
        rw [Function.update_self, Option.some.injEq] at hf
        subst hf
        exact ((activatedRoot_window g).of_get hget).2
      · rw [Function.update_of_ne hid] at hf
        cases hf

/-- The source 0 feeds the `Enter` node 1, which leads through the `Exit` node 2 to node 3. -/
def enterExit : Graph where
  numNodes := 4
  node
    | 0 => ⟨.ordinary, 0, [⟨1, 0, 0⟩], []⟩
    | 1 => ⟨.enter false 1 1, 1, [⟨2, 0, 0⟩], []⟩
    | 2 => ⟨.exit, 1, [⟨3, 0, 1⟩], []⟩
    | _ => ⟨.ordinary, 1, [], []⟩

def ExecState.completeBusy (g : Graph) (s : ExecState) (a : TaggedNode × List Entry) :
    Option ExecState :=
  if a.1 ∈ s.running ∧ s.propagator.entersBusy g a.1 a.2 = true then
    (s.complete g a.1 a.2).toOption
  else none

theorem completeBusy_step (s : ExecState) (a : TaggedNode × List Entry)
    (s' : ExecState) (h : s.completeBusy g a = some s') : (busySystem g).step s a s' := by
  rw [completeBusy] at h
  split at h
  next hallowed => exact ⟨hallowed.1, hallowed.2, eq_ok_of_toOption h⟩
  next => cases h

/-- At the end of the run the root frame is gone too, so nothing is outstanding inside of it. -/
theorem frames_reclaimed_enterExit :
    ∃ s, (busySystem enterExit).Reachable s ∧ s.running = [] ∧
      (∀ id' f, [(1, 0)] <:+ id' → s.propagator.frames id' = some f → f.numPendingInputs ≤ 0) ∧
      s.propagator.frames [(1, 0)] = none := by
  have hrun : ((ExecState.init enterExit).toOption.bind (fun s =>
      [rootCall 0, rootCall 1, loopCall 0 2, rootCall 3].foldlM
        (ExecState.completeBusy enterExit) s)).map
        (fun s => (s.running, (s.propagator.frames []).isSome)) = some ([], false) := by
    decide +kernel
  obtain ⟨s, hs, heq⟩ := Option.map_eq_some_iff.mp hrun
  obtain ⟨hquiet, hroot⟩ := Prod.mk.inj heq
  obtain ⟨s₀, hinit, hs⟩ := Option.bind_eq_some_iff.mp hs
  have hreach : (busySystem enterExit).Reachable s :=
    (System.Reachable.init (eq_ok_of_toOption hinit)).replay completeBusy_step hs
  have hinner : ∀ id' f, [(1, 0)] <:+ id' → s.propagator.frames id' = some f →
      f.numPendingInputs ≤ 0 := by
    intro id' f _ hf
    rcases reachable_accounted hreach with ⟨ids, h⟩ | ⟨hstart, hnil⟩
    · have hmem := h.mem_of_suffix (nil_suffix) (h.mem hf)
      rw [h.mem_iff, hroot] at hmem
      cases hmem
    · obtain ⟨hframes, -⟩ := init_frames hstart
      rw [hframes] at hroot
      cases hroot
  exact ⟨s, hreach, hquiet, hinner,
    (frames_reclaimed enterExit s hreach hquiet).1 [(1, 0)] (cons_ne_nil _ _) hinner⟩

/-- The source 0 feeds the `Enter` nodes 1 and 2 of one frame.  The merge 3 takes either of them
on through the `Exit` node 4 to node 5. -/
def twoEnters : Graph where
  numNodes := 6
  node
    | 0 => ⟨.ordinary, 0, [⟨1, 0, 0⟩, ⟨2, 0, 1⟩], []⟩
    | 1 => ⟨.enter false 1 1, 1, [⟨3, 0, 0⟩], []⟩
    | 2 => ⟨.enter false 1 1, 1, [⟨3, 0, 1⟩], []⟩
    | 3 => ⟨.merge, 2, [⟨4, 0, 2⟩], []⟩
    | 4 => ⟨.exit, 1, [⟨5, 0, 2⟩], []⟩
    | _ => ⟨.ordinary, 1, [], []⟩

/-- The second `Enter` node comes after all other nodes.  It looks at the counts while its own
input is still pending, and nothing looks at them again. -/
theorem frame_left_outstanding :
    ∃ s f, (system twoEnters (fun _ _ => True)).Reachable s ∧ s.running = [] ∧
      s.propagator.frames [(1, 0)] = some f ∧ f.numPendingInputs = 0 ∧
      ∃ p it, s.propagator.frames [] = some p ∧ p.getIteration 0 = some it ∧
        it.outstandingFrameCount = 1 := by
  have hrun : (ExecState.reached twoEnters [rootCall 0, rootCall 1, loopCall 0 3, loopCall 0 4,
      rootCall 5, rootCall 2]).map (fun s => (s.running,
        (s.propagator.frames [(1, 0)]).map FrameState.numPendingInputs,
        ((s.propagator.frames []).bind (fun p => p.getIteration 0)).map
          IterationState.outstandingFrameCount)) = some ([], some 0, some 1) := by
    decide +kernel
  obtain ⟨s, hs, heq⟩ := Option.map_eq_some_iff.mp hrun
  obtain ⟨hquiet, heq⟩ := Prod.mk.inj heq
  obtain ⟨hchild, hroot⟩ := Prod.mk.inj heq
  obtain ⟨f, hf, hin⟩ := Option.map_eq_some_iff.mp hchild
  obtain ⟨it, hit, hcount⟩ := Option.map_eq_some_iff.mp hroot
  obtain ⟨p, hp, hget⟩ := Option.bind_eq_some_iff.mp hit
  refine ⟨s, f, reachable_of_reached (fun _ _ => trivial) ?_ hs, hquiet, hf, hin, p, it, hp, hget,
    hcount⟩
  simp [admissible_rootCall, admissible_loopCall]

end TfReading.Executor
