import TfReading.LocalRendezvous.Sweep

/-!
# Which entries the callbacks of a manager take

A callback knows its receive by a token, and every manager numbers its own tokens.  The
callbacks of a manager take exactly its own entries if no entry of another manager stands in
front of one of them in its queue with the same token.
-/

namespace TfReading.LocalRendezvous

open List

open Cancellation (Token)
open Function

variable {Key Tensor : Type}

/-- `d`, in front of `c`, is not mistaken for a receive of `m`. -/
def Tells (m : Nat) (d c : Cell Tensor) : Prop :=
  c.2.manager? = some m → d.2.token? = c.2.token? → d.2.manager? = some m

/-- The registrations `todo` are those of the receives of `m` that wait in the queues. -/
structure Listing (m : Nat) (q : Key → List (Cell Tensor)) (todo : Registrations Key) : Prop where
  nodup : (todo.map Sigma.fst).Nodup
  tokens : ∀ x ∈ todo, x.2.token = x.1
  found : ∀ x ∈ todo, ∃ c ∈ q x.2.key, c.2.manager? = some m ∧ c.2.token? = some x.1
  covered : ∀ key, ∀ c ∈ q key, c.2.manager? = some m →
    ∃ x ∈ todo, x.2.key = key ∧ c.2.token? = some x.1
  unique : ∀ key key' c c', c ∈ q key → c' ∈ q key' → c.2.manager? = some m →
    c'.2.manager? = some m → c.2.token? = c'.2.token? → c = c'
  addresses : ∀ key, ((q key).map Prod.fst).Nodup

variable [DecidableEq Key]

namespace Listing

variable {m : Nat} {q : Key → List (Cell Tensor)} {x : Sigma fun _ : Token => CancelCallback Key}
  {todo : Registrations Key} (htells : ∀ key, (q key).Pairwise (Tells m))

include htells

/-- A callback that tells the receives apart takes out its own. -/
theorem step (h : Listing m q (x :: todo)) :
    ∃ c l1 l2, q x.2.key = l1 ++ c :: l2 ∧ c.2.manager? = some m ∧ c.2.token? = some x.1 ∧
      ((q x.2.key).find? fun c => c.2.hasToken x.2.token) = some c ∧
      sweepOne q x.2 = update q x.2.key (l1 ++ l2) ∧
      (∀ key, ∀ d ∈ q key, d ≠ c → d ∈ sweepOne q x.2 key) ∧
      Listing m (sweepOne q x.2) todo := by
  obtain ⟨c, hc, hm, ht⟩ := h.found x mem_cons_self
  have htoken : x.2.token = x.1 := h.tokens x mem_cons_self
  obtain ⟨l1, l2, hq⟩ := append_of_mem hc
  have haddresses := h.addresses x.2.key
  rw [hq, map_append, map_cons, nodup_middle, nodup_cons,
    ← map_append] at haddresses
  have hout : ∀ d ∈ l1 ++ l2, d ≠ c := fun d hd heq =>
    haddresses.1 (heq ▸ mem_map_of_mem hd)
  have hno : ∀ d ∈ l1, d.2.hasToken x.2.token = false := by
    intro d hd
    refine Bool.eq_false_iff.2 fun hd' => ?_
    have hdt : d.2.token? = c.2.token? := by
      rw [ht, ← htoken]
      exact Entry.hasToken_iff.1 hd'
    have hpair := htells x.2.key
    rw [hq, pairwise_append] at hpair
    have hdm : d.2.manager? = some m := hpair.2.2 d hd c mem_cons_self hm hdt
    have hdq : d ∈ q x.2.key := hq ▸ mem_append_left _ hd
    exact hout d (mem_append_left _ hd) (h.unique _ _ d c hdq hc hdm hm hdt)
  have hhas : c.2.hasToken x.2.token = true := Entry.hasToken_iff.2 (htoken ▸ ht)
  have hsweep : sweepOne q x.2 = update q x.2.key (l1 ++ l2) := by
    rw [sweepOne, hq, eraseP_append_right _ (by simpa using hno)]
    simp [hhas]
  have hsub : ∀ key, (sweepOne q x.2 key).Sublist (q key) := sweepOne_subset q x.2
  have hgone : ∀ key, ∀ d ∈ q key, d ≠ c → d ∈ sweepOne q x.2 key := by
    intro key d hd hne
    by_cases hk : key = x.2.key
    · subst hk
      rw [hsweep, update_self]
      rw [hq] at hd
      simp only [mem_append, mem_cons] at hd ⊢
      tauto
    · rwa [hsweep, update_of_ne hk]
  have hnodup := nodup_cons.1 h.nodup
  refine ⟨c, l1, l2, hq, hm, ht, ?_, hsweep, hgone, ?_⟩
  · exact find?_eq_some_iff_append.2 ⟨hhas, l1, l2, hq, by simpa using hno⟩
  · constructor
    · exact hnodup.2
    · exact fun y hy => h.tokens y (mem_cons_of_mem _ hy)
    · intro y hy
      obtain ⟨d, hd, hdm, hdt⟩ := h.found y (mem_cons_of_mem _ hy)
      refine ⟨d, hgone _ d hd fun heq => hnodup.1 ?_, hdm, hdt⟩
      rw [heq, ht] at hdt
      rw [Option.some.inj hdt]
      exact mem_map_of_mem hy
    · intro key d hd hdm
      have hdq := (hsub key).subset hd
      obtain ⟨y, hy, hkey, hdt⟩ := h.covered key d hdq hdm
      cases mem_cons.1 hy with
      | inr hy => exact ⟨y, hy, hkey, hdt⟩
      | inl hy =>
        subst hy
        have hdc : d = c := h.unique _ _ d c hdq hc hdm hm (hdt.trans ht.symm)
        subst hkey
        rw [hsweep, update_self] at hd
        exact absurd hdc (hout d hd)
    · exact fun key key' d d' hd hd' =>
        h.unique key key' d d' ((hsub key).subset hd) ((hsub key').subset hd')
    · exact fun key => (h.addresses key).sublist ((hsub key).map _)

theorem tells_sweepOne (callback : CancelCallback Key)
    (key : Key) : (sweepOne q callback key).Pairwise (Tells m) :=
  (htells key).sublist (sweepOne_subset q callback key)

/-- Callbacks that tell the receives apart take out those of their manager. -/
theorem sweep_eq (h : Listing m q todo) (key : Key) :
    sweep q todo key = (q key).filter fun c => c.2.manager? != some m := by
  induction todo generalizing q with
  | nil =>
    refine (filter_eq_self.2 fun c hc => bne_iff_ne.2 fun hm => ?_).symm
    obtain ⟨x, hx, -⟩ := h.covered key c hc hm
    cases hx
  | cons x todo ih =>
    obtain ⟨c, l1, l2, hq, hm, -, -, hsweep, -, hnext⟩ := h.step htells
    rw [sweep, ih (tells_sweepOne htells x.2) hnext, hsweep]
    by_cases hk : key = x.2.key
    · subst hk
      rw [update_self, hq, filter_append, filter_append, filter_cons_of_neg]
      simp [hm]
    · rw [update_of_ne hk]

theorem allFound (h : Listing m q todo)
    {P : Cell Tensor → Prop} (hP : ∀ key, ∀ c ∈ q key, c.2.manager? = some m → P c) :
    AllFound P q todo := by
  induction todo generalizing q with
  | nil => trivial
  | cons x todo ih =>
    obtain ⟨c, l1, l2, hq, hm, -, hfind, -, -, hnext⟩ := h.step htells
    refine ⟨fun d hd => ?_, ih (tells_sweepOne htells x.2) hnext fun key d hd =>
      hP key d ((sweepOne_subset q x.2 key).subset hd)⟩
    rw [hfind] at hd
    cases hd
    exact hP x.2.key c (hq ▸ by simp) hm

variable [Inhabited Tensor]

theorem mem_swept (h : Listing m q todo)
    (inv : Invocation Tensor) : inv ∈ swept q todo ↔
      ∃ key, ∃ c ∈ q key, c.2.manager? = some m ∧ c.2.cancellation = some inv := by
  induction todo generalizing q with
  | nil =>
    simp only [swept, not_mem_nil, false_iff]
    intro hex
    obtain ⟨key, c, hc, hm, -⟩ := hex
    obtain ⟨x, hx, -⟩ := h.covered key c hc hm
    cases hx
  | cons x todo ih =>
    obtain ⟨c, l1, l2, hq, hm, -, hfind, -, hgone, hnext⟩ := h.step htells
    have hc : c ∈ q x.2.key := hq ▸ by simp
    rw [swept, hfind, mem_append, ih (tells_sweepOne htells x.2) hnext, Option.bind_some,
      Option.mem_toList]
    constructor
    · intro hmem
      rcases hmem with hinv | ⟨key, d, hd, hrest⟩
      · exact ⟨x.2.key, c, hc, hm, hinv⟩
      · exact ⟨key, d, (sweepOne_subset q x.2 key).subset hd, hrest⟩
    · intro hex
      obtain ⟨key, d, hd, hdm, hinv⟩ := hex
      by_cases hdc : d = c
      · exact .inl (hdc ▸ hinv)
      · exact .inr ⟨key, d, hgone key d hd hdc, hdm, hinv⟩

/-- and each of them once. -/
theorem nodup_swept (h : Listing m q todo)
    (hinj : ∀ key key' c c', c ∈ q key → c' ∈ q key' → c.2.manager? = some m →
      c.2.cancellation = c'.2.cancellation → c = c') : (swept q todo).Nodup := by
  induction todo generalizing q with
  | nil => exact nodup_nil
  | cons x todo ih =>
    obtain ⟨c, l1, l2, hq, hm, ht, hfind, -, -, hnext⟩ := h.step htells
    have hc : c ∈ q x.2.key := hq ▸ by simp
    have hsub : ∀ key, (sweepOne q x.2 key).Sublist (q key) := sweepOne_subset q x.2
    have hrest : (swept (sweepOne q x.2) todo).Nodup :=
      ih (tells_sweepOne htells x.2) hnext fun key key' d d' hd hd' =>
        hinj key key' d d' ((hsub key).subset hd) ((hsub key').subset hd')
    rw [swept, hfind, Option.bind_some]
    cases hinv : c.2.cancellation with
    | none => simpa using hrest
    | some inv =>
      refine nodup_cons.2 ⟨fun hmem => ?_, hrest⟩
      -- A second receive with this callback would be the same item, whose token is used up.
      obtain ⟨key, d, hd, hdm, hdinv⟩ :=
        (hnext.mem_swept (tells_sweepOne htells x.2) inv).1 hmem
      have hcd : c = d := hinj x.2.key key c d hc ((hsub key).subset hd) hm (hinv.trans hdinv.symm)
      obtain ⟨y, hy, -, hyt⟩ := hnext.covered key d hd hdm
      rw [← hcd, ht] at hyt
      refine (nodup_cons.1 h.nodup).1 ?_
      rw [Option.some.inj hyt]
      exact mem_map_of_mem hy

end Listing

/-! ## A receive that is mistaken for another -/

section Mistaken

variable {q : Key → List (Cell Tensor)} {todo : Registrations Key} {key : Key} {c d : Cell Tensor}
  {t : Token}

theorem sublist_sweepOne {l : List (Cell Tensor)} (hl : l.Sublist (q key))
    (callback : CancelCallback Key)
    (hkeep : callback.key = key → ∀ c ∈ l, c.2.token? ≠ some callback.token) :
    l.Sublist (sweepOne q callback key) := by
  by_cases hk : key = callback.key
  · subst hk
    rw [sweepOne, update_self]
    have herase : (l.eraseP fun c => c.2.hasToken callback.token).Sublist
        ((q callback.key).eraseP fun c => c.2.hasToken callback.token) := hl.eraseP
    rwa [eraseP_of_forall_not] at herase
    exact fun c hc hhas => hkeep rfl c hc (Entry.hasToken_iff.1 hhas)
  · rwa [sweepOne, update_of_ne hk]

/-- An entry stays while no callback has its token. -/
theorem mem_sweep (hc : c ∈ q key) (ht : c.2.token? = some t)
    (hno : ∀ x ∈ todo, x.2.token ≠ t) : c ∈ sweep q todo key := by
  induction todo generalizing q with
  | nil => exact hc
  | cons x todo ih =>
    refine ih (singleton_sublist.1 ?_) fun y hy => hno y (mem_cons_of_mem _ hy)
    refine sublist_sweepOne (singleton_sublist.2 hc) x.2 fun _ e he => ?_
    rw [mem_singleton.1 he, ht]
    exact fun heq => hno x mem_cons_self (Option.some.inj heq).symm

/-- Of two entries with one token the first is taken in the place of the second. -/
theorem mem_sweep_of_mistaken (hdc : [d, c].Sublist (q key)) (hd : d.2.token? = some t)
    (hc : c.2.token? = some t) (hnodup : (todo.map fun x => x.2.token).Nodup) :
    c ∈ sweep q todo key := by
  induction todo generalizing q with
  | nil => exact hdc.subset (by simp)
  | cons x todo ih =>
    rw [map_cons, nodup_cons] at hnodup
    rw [sweep]
    by_cases htoken : x.2.token = t
    · have hrest : ∀ y ∈ todo, y.2.token ≠ t := fun y hy heq =>
        hnodup.1 (htoken.trans heq.symm ▸ mem_map_of_mem hy)
      refine mem_sweep ?_ hc hrest
      by_cases hk : key = x.2.key
      · subst hk
        have herase : ([d, c].eraseP fun c => c.2.hasToken x.2.token).Sublist
            ((q x.2.key).eraseP fun c => c.2.hasToken x.2.token) := hdc.eraseP
        have hhas : d.2.hasToken x.2.token = true := Entry.hasToken_iff.2 (htoken ▸ hd)
        simp only [eraseP_cons, hhas, cond_true] at herase
        rw [sweepOne, update_self]
        exact singleton_sublist.1 herase
      · rw [sweepOne, update_of_ne hk]
        exact hdc.subset (by simp)
    · refine ih (sublist_sweepOne hdc x.2 fun _ e he => ?_) hnodup.2
      have het : e.2.token? = some t := by
        simp only [mem_cons, not_mem_nil, or_false] at he
        rcases he with he | he
        · rw [he, hd]
        · rw [he, hc]
      rw [het]
      exact fun heq => htoken (Option.some.inj heq).symm

end Mistaken

end TfReading.LocalRendezvous
