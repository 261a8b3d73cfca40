import Mathlib.Data.Finset.Card

/-!
# Depth-first search that records its path

On entering a node the search puts it at the end of the path and pushes a marker, with
the successors that it has not seen yet above.  When the marker comes up again, the node
leaves the path.  A bounded buffer receives the path as it grows.
-/

namespace TfReading.PathSearch

open Function Relation List

/-- A path is sought from `start` to `target`, in a buffer of `limit` entries. -/
structure Query (ν : Type*) where
  succ : ν → List ν
  start : ν
  target : ν
  limit : Int

namespace Query

variable {ν : Type*} (q : Query ν)

/-! ## The path -/

/-- The entry is dropped where the buffer ends. -/
def record (path : Nat → ν) (len : Nat) (n : ν) : Nat → ν :=
  if len < q.limit then update path len n else path

/-- `n` may come after the path `p`, which is listed backwards. -/
def Follows : List ν → ν → Prop
  | [], n => n = q.start
  | m :: _, n => n ∈ q.succ m

/-- The buffer holds the path, as far as it goes. -/
def Trace (path : Nat → ν) : List ν → Prop
  | [] => True
  | n :: p => q.Follows p n ∧ (p.length < q.limit → path p.length = n) ∧ Trace path p

def Reach : ν → ν → Prop := ReflTransGen fun a b => b ∈ q.succ a

variable {q} {path : Nat → ν} {p : List ν} {n : ν}

theorem Trace.tail (h : q.Trace path p) : q.Trace path p.tail := by
  cases p with
  | nil => trivial
  | cons => exact h.2.2

theorem Trace.of_update (h : q.Trace path p) {k : Nat} (hk : p.length ≤ k) :
    q.Trace (update path k n) p := by
  induction p with
  | nil => trivial
  | cons m p ih =>
    rw [length_cons] at hk
    refine ⟨h.1, fun hlt => ?_, ih h.2.2 (by omega)⟩
    rw [update_of_ne (by omega)]
    exact h.2.1 hlt

theorem Trace.enter (h : q.Trace path p) (hn : q.Follows p n) :
    q.Trace (q.record path p.length n) (n :: p) := by
  rw [record]
  split
  · exact ⟨hn, fun _ => update_self .., h.of_update le_rfl⟩
  next hlt => exact ⟨hn, fun h => absurd h hlt, h⟩

theorem Trace.reach (h : q.Trace path (n :: p)) : q.Reach q.start n := by
  induction p generalizing n with
  | nil => exact (show n = q.start from h.1) ▸ .refl
  | cons m p ih => exact (ih h.2.2).tail h.1

theorem Trace.fits (h : q.Trace path (n :: p)) (hfits : p.length < q.limit) :
    path 0 = q.start ∧ path p.length = n ∧ ∀ i < p.length, path (i + 1) ∈ q.succ (path i) := by
  have hn := h.2.1 hfits
  induction p generalizing n with
  | nil => exact ⟨hn.trans h.1, hn, nofun⟩
  | cons m p ih =>
    rw [length_cons] at hfits hn ⊢
    have hfits' : (p.length : Int) < q.limit := by omega
    obtain ⟨hstart, hm, hstep⟩ := ih h.2.2 hfits' (h.2.2.2.1 hfits')
    refine ⟨hstart, hn, fun i hi => ?_⟩
    by_cases hip : i = p.length
    · rw [hip, hn, hm]
      exact h.1
    · exact hstep i (by omega)

/-! ## The stack -/

variable [DecidableEq ν]

/-- Pushes the successors that have not been seen.  Nodes leave `unseen` where the program adds
them to the set of seen ones. -/
def push : List ν → Finset ν → List (Option ν) → Finset ν × List (Option ν)
  | [], unseen, stack => (unseen, stack)
  | w :: ws, unseen, stack =>
    if w ∈ unseen then push ws (unseen.erase w) (some w :: stack) else push ws unseen stack

/-- A node on the stack still has its marker to push. -/
def weight (unseen : Finset ν) (stack : List (Option ν)) : Nat :=
  2 * unseen.card + stack.length + stack.countP Option.isSome

theorem weight_push (ws : List ν) (unseen : Finset ν) (stack : List (Option ν)) :
    weight (push ws unseen stack).1 (push ws unseen stack).2 = weight unseen stack := by
  fun_induction push ws unseen stack with
  | case1 => rfl
  | case2 w ws unseen stack hw ih =>
    have hcard := Finset.card_erase_add_one hw
    rw [ih]
    simp only [weight, length_cons, countP_cons, Option.isSome_some, if_true]
    omega
  | case3 w ws unseen stack hw ih => exact ih

variable (q)

/-- Returns the length of the path that was found, or 0, and the buffer. -/
def loop (unseen : Finset ν) (stack : List (Option ν)) (len : Nat) (path : Nat → ν) :
    Nat × (Nat → ν) :=
  match stack with
  | [] => (0, path)
  | none :: stack => loop unseen stack (len - 1) path
  | some n :: stack =>
    if n = q.target then (len + 1, q.record path len n)
    else
      loop (push (q.succ n) unseen (none :: stack)).1 (push (q.succ n) unseen (none :: stack)).2
        (len + 1) (q.record path len n)
termination_by weight unseen stack
decreasing_by
  · simp [weight]
  · rw [weight_push]
    simp [weight]

/-- A node on the stack follows the path as it is when the node comes up. -/
def Marked : List ν → List (Option ν) → Prop
  | _, [] => True
  | p, none :: stack => Marked p.tail stack
  | p, some n :: stack => q.Follows p n ∧ Marked p stack

/-- A node that has been seen is on the stack, or it is not the target and its successors have been
seen. -/
def Explored (nodes unseen : Finset ν) (stack : List (Option ν)) : Prop :=
  ∀ v, v = q.start ∨ (v ∈ nodes ∧ v ∉ unseen) →
    some v ∈ stack ∨ (v ≠ q.target ∧ ∀ w ∈ q.succ v, w ∉ unseen)

structure Spec (o : Nat × (Nat → ν)) : Prop where
  pos_iff : 0 < o.1 ↔ q.Reach q.start q.target
  path : 0 < o.1 → o.1 ≤ q.limit → o.2 0 = q.start ∧ o.2 (o.1 - 1) = q.target ∧
    ∀ i, i + 1 < o.1 → o.2 (i + 1) ∈ q.succ (o.2 i)

variable {q} {nodes unseen : Finset ν} {stack : List (Option ν)} {ws : List ν}

theorem mem_push (v : ν) : (v ∈ (push ws unseen stack).1 ↔ v ∈ unseen ∧ v ∉ ws) ∧
    (some v ∈ (push ws unseen stack).2 ↔ some v ∈ stack ∨ (v ∈ ws ∧ v ∈ unseen)) := by
  fun_induction push ws unseen stack with
  | case1 => simp
  | case2 w ws unseen stack hw ih | case3 w ws unseen stack hw ih =>
    rw [ih.1, ih.2]
    by_cases hv : v = w
    · subst hv
      simp [hw]
    · simp [hv]

theorem Marked.push (h : q.Marked p stack) (hws : ∀ w ∈ ws, q.Follows p w) :
    q.Marked p (push ws unseen stack).2 := by
  fun_induction Query.push ws unseen stack with
  | case1 => exact h
  | case2 w ws unseen stack hw ih =>
    obtain ⟨hw, hws⟩ := forall_mem_cons.mp hws
    exact ih ⟨hw, h⟩ hws
  | case3 w ws unseen stack hw ih => exact ih h (forall_mem_cons.mp hws).2

theorem Explored.enter (h : q.Explored nodes unseen (some n :: stack)) (hn : n ≠ q.target) :
    q.Explored nodes (push (q.succ n) unseen (none :: stack)).1
      (push (q.succ n) unseen (none :: stack)).2 := by
  intro v hv
  simp only [mem_push, mem_cons, reduceCtorEq, false_or] at hv ⊢
  by_cases hnew : v ∈ q.succ n ∧ v ∈ unseen
  · exact .inl (.inr hnew)
  rcases h v (by tauto) with hmem | ⟨hne, hsucc⟩
  · rcases mem_cons.mp hmem with heq | hmem
    · cases heq
      exact .inr ⟨hn, fun w hw hin => hin.2 hw⟩
    · exact .inl (.inl hmem)
  · exact .inr ⟨hne, fun w hw hin => hsucc w hw hin.1⟩

omit [DecidableEq ν] in
/-- With an empty stack, what has been seen is closed. -/
theorem Explored.not_reach (h : q.Explored nodes unseen [])
    (hnodes : ∀ v, ∀ w ∈ q.succ v, w ∈ nodes) : ¬q.Reach q.start q.target := by
  simp only [Explored, not_mem_nil, false_or] at h
  have hseen : ∀ v, q.Reach q.start v → v = q.start ∨ (v ∈ nodes ∧ v ∉ unseen) := by
    intro v hv
    induction hv with
    | refl => exact .inl rfl
    | tail _ hbc ih => exact .inr ⟨hnodes _ _ hbc, (h _ ih).2 _ hbc⟩
  exact fun hreach => (h _ (hseen _ hreach)).1 rfl

theorem loop_spec (hnodes : ∀ v, ∀ w ∈ q.succ v, w ∈ nodes) (hmarked : q.Marked p stack)
    (htrace : q.Trace path p) (hexplored : q.Explored nodes unseen stack) :
    q.Spec (q.loop unseen stack p.length path) := by
  generalize hlen : p.length = len
  fun_induction loop q unseen stack len path generalizing p with
  | case1 => exact ⟨iff_of_false (lt_irrefl 0) (hexplored.not_reach hnodes), nofun⟩
  | case2 unseen len path stack ih =>
    refine ih hmarked htrace.tail (fun v hv => ?_) (by rw [length_tail, hlen])
    simpa using hexplored v hv
  | case3 unseen len path stack =>
    have hfound := htrace.enter hmarked.1
    rw [hlen] at hfound
    refine ⟨iff_of_true (Nat.succ_pos _) hfound.reach, fun _ hle => ?_⟩
    obtain ⟨hstart, hend, hstep⟩ := hfound.fits (by push_cast at hle; omega)
    rw [hlen] at hend hstep
    exact ⟨hstart, hend, fun i hi => hstep i (by omega)⟩
  | case4 unseen len path n stack hn ih =>
    have hentered := htrace.enter hmarked.1
    rw [hlen] at hentered
    exact ih (hmarked.2.push (p := n :: p) fun w hw => hw) hentered (hexplored.enter hn)
      (by rw [length_cons, hlen])

end Query
end TfReading.PathSearch
