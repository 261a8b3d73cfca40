import TfReading.Library.Search

/-!
# Post-order of a depth-first search

The stack holds nodes to enter and nodes to leave.  A node is marked when it is entered, then its
unmarked successors are pushed on top of the note to leave it.
-/

namespace TfReading.PostOrder

open Function List

variable {ν : Type*}

inductive Work (ν : Type*)
  | enter (n : ν)
  | leave (n : ν)

def Work.node : Work ν → ν
  | .enter n => n
  | .leave n => n

section Loop

variable [DecidableEq ν] (nodes : Finset ν) (succ : ν → List ν)

def push (visited : ν → Bool) (outs : List ν) (stack : List (Work ν)) : List (Work ν) :=
  outs.foldl (fun stack out => if visited out then stack else .enter out :: stack) stack

/-- `order` lists the nodes that have been left. -/
def loop (visited : ν → Bool) (stack : List (Work ν)) (order : List ν) : List ν :=
  match stack with
  | [] => order
  | .leave n :: stack => loop visited stack (order ++ [n])
  | .enter n :: stack =>
    if _h : n ∈ nodes ∧ visited n = false then
      loop (Function.update visited n true)
        (push (Function.update visited n true) (succ n) (.leave n :: stack)) order
    else loop visited stack order
termination_by ((nodes.filter (fun v => visited v = false)).card, stack.length)
decreasing_by
  · exact Prod.Lex.right _ (by simp)
  · exact Prod.Lex.left _ _ (Search.card_unvisited_lt _h)
  · exact Prod.Lex.right _ (by simp)

def run (start : ν) : List ν := loop nodes succ (fun _ => false) [.enter start] []

end Loop

/-! ## The stack -/

/-- The nodes that have been entered but not left, the last one first. -/
def leaves : List (Work ν) → List ν
  | [] => []
  | .enter _ :: stack => leaves stack
  | .leave n :: stack => n :: leaves stack

theorem push_eq (visited : ν → Bool) (outs : List ν) (stack : List (Work ν)) :
    push visited outs stack =
      ((outs.filter (fun out => !visited out)).map Work.enter).reverse ++ stack := by
  induction outs generalizing stack with
  | nil => rfl
  | cons out outs ih =>
    cases hv : visited out with
    | true => simpa [hv, push] using ih stack
    | false => simpa [hv, push] using ih (.enter out :: stack)

theorem leaves_enters (outs : List ν) (stack : List (Work ν)) :
    leaves (outs.map Work.enter ++ stack) = leaves stack := by
  induction outs with
  | nil => rfl
  | cons out outs ih => exact ih

variable (succ : ν → List ν) (start : ν)

/-- Every item but the start was put there by the node that was entered last before it. -/
def Stacked : List (Work ν) → Prop
  | [] => True
  | w :: stack =>
    (match leaves stack with
      | u :: _ => w.node ∈ succ u
      | [] => w.node = start ∧ stack = []) ∧ Stacked stack

def Acyclic : Prop := ∀ v, ¬Relation.TransGen (fun a b => b ∈ succ a) v v

def Finished (order : List ν) : Prop :=
  ∀ l₁ u l₂, order = l₁ ++ u :: l₂ → ∀ x ∈ succ u, x ∈ l₁

/-- Every successor of a node to leave is marked, or to be entered before. -/
def Expanded (visited : ν → Bool) : List ν → List (Work ν) → Prop
  | _, [] => True
  | pending, .enter x :: stack => Expanded visited (x :: pending) stack
  | pending, .leave u :: stack =>
    (∀ x ∈ succ u, visited x = true ∨ x ∈ pending) ∧ Expanded visited pending stack

structure Inv (visited : ν → Bool) (stack : List (Work ν)) (order : List ν) : Prop where
  visited_iff : ∀ v, visited v = true ↔ v ∈ order ∨ v ∈ leaves stack
  nodup : (order ++ leaves stack).Nodup
  stacked : Stacked succ start stack
  entered : ∀ v, visited v = true → v = start ∨ ∃ u, visited u = true ∧ v ∈ succ u
  begun : ∀ n, stack = [.enter n] → visited n = false
  ended : stack = [] → order.getLast? = some start
  closed : ∀ u ∈ order, ∀ x ∈ succ u, visited x = true
  expanded : Expanded succ visited [] stack
  finished : Acyclic succ → Finished succ order

variable {succ start} {nodes : Finset ν} {visited : ν → Bool} {stack : List (Work ν)}
    {order : List ν} {n u : ν} {rest : List ν} {xs : List ν}

theorem Stacked.reaches (h : Stacked succ start stack) (htop : leaves stack = u :: rest) :
    ∀ v ∈ leaves stack, Relation.ReflTransGen (fun a b => b ∈ succ a) v u := by
  induction stack generalizing u rest with
  | nil => cases htop
  | cons w stack ih =>
    cases w with
    | enter => exact ih h.2 htop
    | leave =>
      obtain ⟨rfl, hrest⟩ := cons.inj htop
      intro v hv
      rcases mem_cons.mp hv with heq | hv
      · rw [heq]
      · cases htop' : leaves stack with
        | nil =>
          rw [htop'] at hv
          exact absurd hv not_mem_nil
        | cons =>
          have hedge := h.1
          rw [htop'] at hedge
          exact (ih h.2 htop' v hv).tail hedge

theorem Stacked.not_alone {w : Work ν} (h : Stacked succ start (w :: stack)) (n : ν)
    (hstack : stack = [.enter n]) : visited n = false := by
  subst hstack
  exact absurd h.1.2 nofun

theorem Finished.snoc (h : Finished succ order) (hn : ∀ x ∈ succ n, x ∈ order) :
    Finished succ (order ++ [n]) := by
  intro l1 u l2 heq x hx
  rcases append_eq_append_iff.mp heq with ⟨as, hl, hr⟩ | ⟨bs, hl, hr⟩
  · cases as with
    | nil =>
      simp only [nil_append, cons.injEq] at hr
      rw [hl, append_nil]
      exact hn x (hr.1 ▸ hx)
    | cons => simp at hr
  · cases bs with
    | nil =>
      simp only [nil_append, cons.injEq] at hr
      rw [← append_nil l1, ← hl]
      exact hn x (hr.1 ▸ hx)
    | cons b bs =>
      obtain ⟨rfl, -⟩ := cons.inj hr
      exact h l1 u bs hl x hx

theorem Stacked.enters (h : Stacked succ start stack)
    (htop : leaves stack = u :: rest) (hxs : ∀ x ∈ xs, x ∈ succ u) :
    Stacked succ start (xs.map Work.enter ++ stack) := by
  induction xs with
  | nil => exact h
  | cons x xs ih =>
    have htop' : leaves (xs.map .enter ++ stack) = u :: rest := by rw [leaves_enters, htop]
    rw [map_cons, cons_append, Stacked, htop']
    exact ⟨hxs x mem_cons_self, ih fun y hy => hxs y (mem_cons_of_mem x hy)⟩

theorem Expanded.mono {visited' : ν → Bool} {pending pending' : List ν}
    (hle : ∀ x, visited x = true ∨ x ∈ pending → visited' x = true ∨ x ∈ pending')
    (h : Expanded succ visited pending stack) : Expanded succ visited' pending' stack := by
  induction stack generalizing pending pending' with
  | nil => trivial
  | cons w stack ih =>
    cases w with
    | leave => exact ⟨fun x hx => hle x (h.1 x hx), ih hle h.2⟩
    | enter =>
      refine ih (fun y hy => ?_) h
      rw [mem_cons] at hy ⊢
      rcases hy with hy | heq | hy
      · exact (hle y (.inl hy)).imp_right .inr
      · exact .inr (.inl heq)
      · exact (hle y (.inr hy)).imp_right .inr

theorem Expanded.enters {pending : List ν}
    (h : Expanded succ visited (xs.reverse ++ pending) stack) :
    Expanded succ visited pending (xs.map Work.enter ++ stack) := by
  induction xs generalizing pending with
  | nil => exact h
  | cons x xs ih =>
    apply ih
    simpa using h

/-! ## Steps -/

theorem Inv.leave (h : Inv succ start visited (.leave n :: stack) order) :
    Inv succ start visited stack (order ++ [n]) where
  visited_iff v := by
    rw [h.visited_iff, leaves, mem_append, mem_singleton, mem_cons, or_assoc]
  nodup := by
    rw [append_assoc]
    exact h.nodup
  stacked := h.stacked.2
  entered := h.entered
  begun := h.stacked.not_alone
  ended hnil := by
    have hbase := h.stacked.1
    subst hnil
    have hn : n = start := hbase.1
    rw [hn, getLast?_append]
    rfl
  closed u hu x hx := by
    rcases mem_append.mp hu with hu | hu
    · exact h.closed u hu x hx
    · rw [mem_singleton.mp hu] at hx
      exact (h.expanded.1 x hx).resolve_right not_mem_nil
  expanded := h.expanded.2
  finished hacyclic := by
    refine (h.finished hacyclic).snoc fun x hx => ?_
    have hvisited := (h.expanded.1 x hx).resolve_right not_mem_nil
    refine ((h.visited_iff x).mp hvisited).resolve_right fun hleaf => ?_
    -- A node that is not left yet leads to `n`, and `n` leads to it.
    exact hacyclic x (.tail' (h.stacked.reaches rfl x hleaf) hx)

theorem Inv.drop (h : Inv succ start visited (.enter n :: stack) order)
    (hn : visited n = true) : Inv succ start visited stack order :=
  { h with
    stacked := h.stacked.2
    begun := h.stacked.not_alone
    ended := fun hnil => by
      have hfalse := h.begun n (hnil ▸ rfl)
      rw [hn] at hfalse
      cases hfalse
    expanded := by
      refine .mono (fun x hx => ?_) h.expanded
      rcases hx with hx | hx
      · exact .inl hx
      · exact .inl (mem_singleton.mp hx ▸ hn) }

variable [DecidableEq ν]

theorem Inv.enter (h : Inv succ start visited (.enter n :: stack) order) (hn : visited n = false) :
    Inv succ start (update visited n true)
      (push (update visited n true) (succ n) (.leave n :: stack)) order := by
  have hmono : ∀ x, visited x = true → update visited n true x = true := by
    intro x hx
    rw [update_apply]
    split
    · rfl
    · exact hx
  have hself : update visited n true n = true := update_self ..
  have hedge : n = start ∨ ∃ u, visited u = true ∧ n ∈ succ u := by
    have hbase := h.stacked.1
    cases htop : leaves stack with
    | nil =>
      rw [htop] at hbase
      exact .inl hbase.1
    | cons u =>
      rw [htop] at hbase
      refine .inr ⟨u, (h.visited_iff u).mpr (.inr ?_), hbase⟩
      show u ∈ leaves stack
      rw [htop]
      exact mem_cons_self
  have hout : n ∉ order ++ leaves stack := by
    intro hmem
    rw [mem_append] at hmem
    have hvisited := (h.visited_iff n).mpr hmem
    rw [hn] at hvisited
    cases hvisited
  refine ⟨fun v => ?_, ?_, ?_, fun v hv => ?_, fun m hm => ?_, ?_, ?_, ?_, h.finished⟩
  · rw [push_eq, ← map_reverse, leaves_enters, leaves, update_apply, mem_cons]
    by_cases heq : v = n
    · simp [heq]
    · simpa [heq, leaves] using h.visited_iff v
  · rw [push_eq, ← map_reverse, leaves_enters, leaves, nodup_middle]
    exact nodup_cons.mpr ⟨hout, h.nodup⟩
  · have hleave : Stacked succ start (.leave n :: stack) := h.stacked
    rw [push_eq, ← map_reverse]
    refine hleave.enters rfl fun x hx => ?_
    exact mem_of_mem_filter (mem_reverse.mp hx)
  · have hwhence : v = start ∨ ∃ u, visited u = true ∧ v ∈ succ u := by
      by_cases heq : v = n
      · exact heq ▸ hedge
      · rw [update_of_ne heq] at hv
        exact h.entered v hv
    refine hwhence.imp_right fun hex => ?_
    obtain ⟨w, hw, hvw⟩ := hex
    exact ⟨w, hmono w hw, hvw⟩
  · have hleave : .leave n ∈ push (update visited n true) (succ n) (.leave n :: stack) := by
      rw [push_eq]
      exact mem_append_right _ mem_cons_self
    rw [hm, mem_singleton] at hleave
    cases hleave
  · rw [push_eq]
    intro hnil
    simp at hnil
  · exact fun w hw x hx => hmono x (h.closed w hw x hx)
  · rw [push_eq, ← map_reverse]
    refine .enters ⟨fun x hx => ?_, .mono (fun x hx => ?_) h.expanded⟩
    · cases hv : update visited n true x with
      | true => exact .inl rfl
      | false => simp [hx, hv]
    · rcases hx with hx | hx
      · exact .inl (hmono x hx)
      · exact .inl (mem_singleton.mp hx ▸ hself)

/-! ## The result -/

structure Spec (succ : ν → List ν) (start : ν) (order : List ν) : Prop where
  nodup : order.Nodup
  last : order.getLast? = some start
  entered : ∀ v ∈ order, v = start ∨ ∃ u ∈ order, v ∈ succ u
  closed : ∀ u ∈ order, ∀ x ∈ succ u, x ∈ order
  finished : Acyclic succ → Finished succ order

theorem loop_spec (hstart : start ∈ nodes) (hnodes : ∀ u, ∀ x ∈ succ u, x ∈ nodes)
    (h : Inv succ start visited stack order) :
    Spec succ start (loop nodes succ visited stack order) := by
  fun_induction loop nodes succ visited stack order with
  | case1 visited order =>
    have hvisited : ∀ v, visited v = true ↔ v ∈ order := fun v => by
      simpa [leaves] using h.visited_iff v
    refine ⟨by simpa [leaves] using h.nodup, h.ended rfl, fun v hv => ?_, fun u hu x hx => ?_,
      h.finished⟩
    · simpa only [hvisited] using h.entered v ((hvisited v).mpr hv)
    · exact (hvisited x).mp (h.closed u hu x hx)
  | case2 visited order n stack ih => exact ih h.leave
  | case3 visited order n stack hn ih => exact ih (h.enter hn.2)
  | case4 visited order n stack hn ih =>
    refine ih (h.drop ?_)
    -- An item to enter is a successor of the node that pushed it, so it is one of the nodes.
    have hmem : n ∈ nodes := by
      have hbase := h.stacked.1
      split at hbase
      next u _ _ => exact hnodes u n hbase
      next =>
        have hn : n = start := hbase.1
        exact hn ▸ hstart
    by_contra hne
    exact hn ⟨hmem, by simpa using hne⟩

theorem run_spec (hstart : start ∈ nodes) (hnodes : ∀ u, ∀ x ∈ succ u, x ∈ nodes) :
    Spec succ start (run nodes succ start) := by
  refine loop_spec hstart hnodes ⟨?_, ?_, ?_, ?_, ?_, ?_, ?_, ?_, ?_⟩
  · simp [leaves]
  · exact nodup_nil
  · exact ⟨⟨rfl, rfl⟩, trivial⟩
  · exact nofun
  · exact fun _ _ => rfl
  · exact nofun
  · exact nofun
  · trivial
  · intro _ l1 u l2 heq
    cases l1 <;> cases heq

omit [DecidableEq ν] in
theorem Spec.mem_of_reaches (h : Spec succ start order) {v : ν}
    (hv : Relation.ReflTransGen (fun a b => b ∈ succ a) start v) : v ∈ order := by
  induction hv with
  | refl => exact mem_of_getLast? h.last
  | tail _ hedge ih => exact h.closed _ ih _ hedge

/-! ## A search that goes straight to a node -/

theorem loop_prefix (visited : ν → Bool) (stack : List (Work ν)) (order : List ν) :
    order <+: loop nodes succ visited stack order := by
  fun_induction loop nodes succ visited stack order with
  | case1 => exact prefix_rfl
  | case2 visited order n stack ih => exact (prefix_append order [n]).trans ih
  | case3 visited order n stack hn ih => exact ih
  | case4 visited order n stack hn ih => exact ih

section First

abbrev Reaches (succ : ν → List ν) : ν → ν → Prop := Relation.ReflTransGen fun a b => b ∈ succ a

variable (hnodes : ∀ u, ∀ x ∈ succ u, x ∈ nodes) (hacyclic : Acyclic succ) (hleaf : succ u = [])
    (hlast : ∀ v, Reaches succ v u → v ≠ u → ∃ outs w, succ v = outs ++ [w] ∧ Reaches succ w u)

include hnodes hacyclic hleaf hlast

theorem loop_first (hn : n ∈ nodes) (hreach : Reaches succ n u)
    (hvisited : ∀ v, visited v = true → Relation.TransGen (fun a b => b ∈ succ a) v n) :
    [u] <+: loop nodes succ visited (.enter n :: stack) [] := by
  generalize hs : Work.enter n :: stack = stack', ho : ([] : List ν) = order
  -- All nodes that have been entered lead to the next one, so none of its successors is marked.
  fun_induction loop nodes succ visited stack' order generalizing n stack with
  | case1 => cases hs
  | case2 => cases hs
  | case3 visited order m stack' hm ih =>
    obtain ⟨rfl, rfl⟩ : n = m ∧ stack = stack' := by simpa using hs
    subst ho
    by_cases hnu : n = u
    · rw [hnu, hleaf, push, foldl_nil, loop]
      exact loop_prefix ..
    · obtain ⟨outs, w, hsucc, hw⟩ := hlast n hreach hnu
      have hfresh : ∀ x ∈ succ n, update visited n true x = false := by
        intro x hx
        have hxn : x ≠ n := fun h => hacyclic n (.single (h ▸ hx))
        rw [update_of_ne hxn, ← Bool.not_eq_true]
        exact fun h => hacyclic n (.head hx (hvisited x h))
      have hall : (succ n).filter (fun x => !update visited n true x) = succ n :=
        filter_eq_self.mpr fun x hx => by simp [hfresh x hx]
      have hpush : .enter w :: ((outs.map Work.enter).reverse ++ .leave n :: stack) =
          push (update visited n true) (succ n) (.leave n :: stack) := by
        rw [push_eq, hall, hsucc]
        simp
      have hwn : w ∈ succ n := by simp [hsucc]
      refine ih (hnodes n w hwn) hw (fun v hv => ?_) hpush rfl
      by_cases hvn : v = n
      · exact hvn ▸ .single hwn
      · rw [update_of_ne hvn] at hv
        exact (hvisited v hv).tail hwn
  | case4 visited order m stack' hm ih =>
    obtain ⟨rfl, rfl⟩ : n = m ∧ stack = stack' := by simpa using hs
    exact absurd (hvisited n (by simpa [hn] using hm)) (hacyclic n)

/-- If the last successor leads to `u` wherever one does, then `u` is left first. -/
theorem run_first (hstart : start ∈ nodes) (hreach : Reaches succ start u) :
    [u] <+: run nodes succ start :=
  loop_first hnodes hacyclic hleaf hlast hstart hreach nofun

end First

end TfReading.PostOrder
