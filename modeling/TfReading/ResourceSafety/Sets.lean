import Mathlib.Data.List.Nodup
import TfReading.Library.Outcome

/-!
# The copy-on-write sets of `compiler/jit/resource_operation_safety_analysis.cc`

Each node has a set of resource operations.  A set points to the storage of some set, which may be
its own, and shares it until an operation is added.  A set whose storage is shared is frozen.
-/

namespace TfReading.ResourceSafety

open Outcome Function List

/-- `XlaResourceOpKind` -/
inductive Kind
  | read
  | write
  | readWrite
deriving DecidableEq, Repr

/-- The edges that a cluster, which reads first and writes last, can represent. -/
def isEdgeSafe (source target : Kind) : Bool := source = .read || target = .write

structure ResourceOp where
  node : Nat
  kind : Kind
deriving DecidableEq, Repr

/-- `impl` names the set whose storage is used. -/
structure ResourceOpSet where
  impl : Option Nat
  storage : Option (List ResourceOp)
  frozen : Bool
deriving DecidableEq, Repr

inductive Error
  /-- `CHECK(!frozen_)` -/
  | frozen
  /-- `CHECK` that the result has no duplicates. -/
  | duplicate
deriving DecidableEq, Repr

abbrev Sets := Nat → ResourceOpSet

namespace Sets

def empty : Sets := fun _ => ⟨none, none, false⟩

def contents (s : Sets) (n : Nat) : List ResourceOp :=
  match (s n).impl with
  | none => []
  | some owner => (s owner).storage.getD []

/-- `EnsureIsCopied`, then the insertion. -/
def insert (s : Sets) (n : Nat) (op : ResourceOp) : Sets :=
  let copied := (s n).storage.getD (s.contents n)
  Function.update s n { s n with
    impl := some n, storage := some (if op ∈ copied then copied else copied ++ [op]) }

/-- `Add` of an operation. -/
def addOp (s : Sets) (n : Nat) (op : ResourceOp) : Except Error Sets :=
  if (s n).frozen then .error .frozen
  else if (s n).storage = none ∧ op ∈ s.contents n then .ok s
  else .ok (s.insert n op)

def freeze (s : Sets) (n : Nat) : Sets := Function.update s n { s n with frozen := true }

def add (s : Sets) (n other : Nat) : Except Error Sets :=
  if (s n).frozen then .error .frozen
  else if (s other).impl = (s n).impl then .ok (s.freeze other)
  else
    match (s n).impl with
    | none =>
      let s₁ := s.freeze other
      .ok (Function.update s₁ n { s₁ n with impl := (s other).impl })
    | some _ => (s.contents other).foldlM (fun s op => s.addOp n op) s

/-! ## Sharing -/

/-- Storage is used by its owner and is not empty, and what is pointed to is there. -/
structure WellFormed (s : Sets) : Prop where
  own : ∀ n ops, (s n).storage = some ops → (s n).impl = some n ∧ ops ≠ [] ∧ ops.Nodup
  owned : ∀ n owner, (s n).impl = some owner → ∃ ops, (s owner).storage = some ops

def Unshared (s : Sets) (n : Nat) : Prop := ∀ m ≠ n, (s m).impl ≠ some n

variable {s s' : Sets} {n : Nat} {new new' : ResourceOp → Prop} {others : List Nat}

theorem WellFormed.contents_eq_nil (h : WellFormed s) (n : Nat) :
    s.contents n = [] ↔ (s n).impl = none := by
  rw [contents]
  cases himpl : (s n).impl with
  | none => simp
  | some owner =>
    obtain ⟨ops, hops⟩ := h.owned n owner himpl
    simp [hops, (h.own owner ops hops).2.1]

theorem WellFormed.contents_nodup (h : WellFormed s) (n : Nat) : (s.contents n).Nodup := by
  rw [contents]
  cases himpl : (s n).impl with
  | none => exact nodup_nil
  | some owner =>
    obtain ⟨ops, hops⟩ := h.owned n owner himpl
    simpa [hops] using (h.own owner ops hops).2.2

structure Adds (s : Sets) (n : Nat) (new : ResourceOp → Prop) (s' : Sets) : Prop where
  wellFormed : WellFormed s'
  unshared : Unshared s' n
  mem : ∀ op, op ∈ s'.contents n ↔ op ∈ s.contents n ∨ new op
  impl : ∀ m ≠ n, (s' m).impl = (s m).impl
  storage : ∀ m ≠ n, (s' m).storage = (s m).storage
  thawed : (s' n).frozen = (s n).frozen

theorem Adds.contents_of_ne (h : Adds s n new s') (hs : Unshared s n) {m : Nat}
    (hm : m ≠ n) : s'.contents m = s.contents m := by
  rw [contents, contents, h.impl m hm]
  cases himpl : (s m).impl with
  | none => rfl
  | some owner =>
    have howner : owner ≠ n := by
      intro heq
      exact hs m hm (heq ▸ himpl)
    show (s' owner).storage.getD [] = (s owner).storage.getD []
    rw [h.storage owner howner]

theorem Adds.refl (hs : WellFormed s) (hn : Unshared s n) : Adds s n (fun _ => False) s :=
  ⟨hs, hn, fun _ => by simp, fun _ _ => rfl, fun _ _ => rfl, rfl⟩

theorem Adds.trans {s'' : Sets} (h : Adds s n new s')
    (h' : Adds s' n new' s'') : Adds s n (fun op => new op ∨ new' op) s'' := by
  refine ⟨h'.wellFormed, h'.unshared, fun op => ?_, fun m hm => ?_, fun m hm => ?_, ?_⟩
  · rw [h'.mem, h.mem, or_assoc]
  · rw [h'.impl m hm, h.impl m hm]
  · rw [h'.storage m hm, h.storage m hm]
  · rw [h'.thawed, h.thawed]

theorem Adds.congr (h : Adds s n new s')
    (heq : ∀ op, op ∈ s.contents n ∨ new op ↔ op ∈ s.contents n ∨ new' op) : Adds s n new' s' :=
  { h with mem := fun op => by rw [h.mem, heq] }

/-! ## Adding -/

section

variable (hs : WellFormed s) {other : Nat}

include hs

theorem insert_adds (hn : Unshared s n) (op : ResourceOp) :
    Adds s n (· = op) (s.insert n op) := by
  have hcopied : ∀ x, x ∈ (s n).storage.getD (s.contents n) ↔ x ∈ s.contents n := by
    cases hst : (s n).storage with
    | none => exact fun _ => .rfl
    | some ops =>
      intro x
      rw [contents, (hs.own n ops hst).1]
      simp [hst]
  have hcopiedNodup : ((s n).storage.getD (s.contents n)).Nodup := by
    cases hst : (s n).storage with
    | none => exact hs.contents_nodup n
    | some ops => exact (hs.own n ops hst).2.2
  generalize hc : (s n).storage.getD (s.contents n) = copied at hcopied hcopiedNodup
  have hstorage : ∀ m ≠ n, s.insert n op m = s m := fun m hm => update_of_ne hm ..
  have hself : s.insert n op n = { s n with
      impl := some n, storage := some (if op ∈ copied then copied else copied ++ [op]) } := by
    rw [insert, hc]
    exact update_self ..
  refine ⟨⟨fun m ops hm => ?_, fun m owner hm => ?_⟩, fun m hm => ?_, fun x => ?_, ?_, ?_, ?_⟩
  · by_cases heq : m = n
    · subst heq
      rw [hself] at hm ⊢
      have hops := Option.some.inj hm
      refine ⟨rfl, ?_, ?_⟩
      · rw [← hops]
        split
        next hin => exact ne_nil_of_mem hin
        next => simp
      · rw [← hops]
        split
        next => exact hcopiedNodup
        next hout =>
          rw [nodup_append]
          refine ⟨hcopiedNodup, nodup_singleton op, fun a ha b hb heq => hout ?_⟩
          rw [← mem_singleton.mp hb, ← heq]
          exact ha
    · rw [hstorage m heq] at hm ⊢
      exact hs.own m ops hm
  · by_cases howner : owner = n
    · rw [howner, hself]
      exact ⟨_, rfl⟩
    · have hm' : (s m).impl = some owner := by
        by_cases heq : m = n
        · rw [heq, hself] at hm
          exact absurd (Option.some.inj hm).symm howner
        · rw [hstorage m heq] at hm
          exact hm
      rw [hstorage owner howner]
      exact hs.owned m owner hm'
  · rw [hstorage m hm]
    exact hn m hm
  · have hcontents : (s.insert n op).contents n = if op ∈ copied then copied else copied ++ [op] := by
      rw [contents, hself]
      exact congrArg (·.storage.getD []) hself
    rw [hcontents, ← hcopied]
    split
    next hin => exact ⟨.inl, fun h => h.elim id fun heq => heq ▸ hin⟩
    next => rw [mem_append, mem_singleton]
  · exact fun m hm => by rw [hstorage m hm]
  · exact fun m hm => by rw [hstorage m hm]
  · rw [hself]

theorem addOp_spec (hn : Unshared s n) (hthawed : (s n).frozen = false)
    (op : ResourceOp) :
    ∃ s', s.addOp n op = .ok s' ∧ Adds s n (· = op) s' ∧ ∀ m, (s' m).frozen = (s m).frozen := by
  rw [addOp, hthawed, if_neg (by simp)]
  split
  next hin =>
    refine ⟨s, rfl, (Adds.refl hs hn).congr fun x => ?_, fun _ => rfl⟩
    rw [or_false]
    exact ⟨.inl, fun h => h.elim id fun heq => heq ▸ hin.2⟩
  next =>
    refine ⟨s.insert n op, rfl, insert_adds hs hn op, fun m => ?_⟩
    by_cases heq : m = n
    · subst heq
      exact (insert_adds hs hn op).thawed
    · rw [insert, update_of_ne heq]

theorem addOps_spec (hn : Unshared s n) (hthawed : (s n).frozen = false)
    (ops : List ResourceOp) :
    ∃ s', ops.foldlM (fun s op => s.addOp n op) s = .ok s' ∧ Adds s n (· ∈ ops) s' ∧
      ∀ m, (s' m).frozen = (s m).frozen := by
  induction ops generalizing s with
  | nil => exact ⟨s, rfl, (Adds.refl hs hn).congr fun _ => by simp, fun _ => rfl⟩
  | cons op ops ih =>
    obtain ⟨s1, hrun1, hadds1, hfrozen1⟩ := addOp_spec hs hn hthawed op
    obtain ⟨s2, hrun2, hadds2, hfrozen2⟩ :=
      ih hadds1.wellFormed hadds1.unshared (hadds1.thawed.trans hthawed)
    refine ⟨s2, ?_, (hadds1.trans hadds2).congr fun x => ?_, fun m => ?_⟩
    · rw [foldlM_cons, hrun1]
      exact hrun2
    · rw [mem_cons]
    · rw [hfrozen2, hfrozen1]

theorem freeze_adds (hn : Unshared s n) (hne : other ≠ n) :
    Adds s n (fun _ => False) (s.freeze other) := by
  have himpl : ∀ m, (s.freeze other m).impl = (s m).impl := fun m => by
    rw [freeze, update_apply]
    split
    next heq => rw [heq]
    next => rfl
  have hstorage : ∀ m, (s.freeze other m).storage = (s m).storage := fun m => by
    rw [freeze, update_apply]
    split
    next heq => rw [heq]
    next => rfl
  refine ⟨⟨fun m ops hm => ?_, fun m owner hm => ?_⟩, fun m hm => ?_, fun op => ?_,
    fun m _ => himpl m, fun m _ => hstorage m, ?_⟩
  · rw [hstorage] at hm
    rw [himpl]
    exact hs.own m ops hm
  · rw [himpl] at hm
    rw [hstorage]
    exact hs.owned m owner hm
  · rw [himpl]
    exact hn m hm
  · simp only [contents, himpl, hstorage, or_false]
  · rw [freeze, update_of_ne hne.symm]

theorem share_adds (hn : Unshared s n) (hnone : (s n).impl = none) (other : Nat) :
    Adds s n (· ∈ s.contents other)
      (update s n { s n with impl := (s other).impl }) := by
  set shared : Sets := update s n { s n with impl := (s other).impl }
  have hmem : ∀ m, shared m = if m = n then { s n with impl := (s other).impl } else s m :=
    fun m => update_apply ..
  have hstorage : ∀ m, (shared m).storage = (s m).storage := fun m => by
    rw [hmem]
    split
    next heq => rw [heq]
    next => rfl
  refine ⟨⟨fun m ops hm => ?_, fun m owner hm => ?_⟩, fun m hm => ?_, fun op => ?_, fun m hm => ?_,
    fun m _ => hstorage m, ?_⟩
  · rw [hstorage] at hm
    have hown := hs.own m ops hm
    have hm' : m ≠ n := by
      intro heq
      rw [heq, hnone] at hown
      cases hown.1
    rw [hmem, if_neg hm']
    exact hown
  · rw [hstorage]
    rw [hmem] at hm
    split at hm
    next => exact hs.owned other owner hm
    next => exact hs.owned m owner hm
  · rw [hmem, if_neg hm]
    exact hn m hm
  · have hold : s.contents n = [] := (hs.contents_eq_nil n).mpr hnone
    have hnew : shared.contents n = s.contents other := by
      rw [contents, contents, hmem, if_pos rfl]
      simp only [hstorage]
    rw [hnew, hold]
    simp
  · rw [hmem, if_neg hm]
  · rw [hmem, if_pos rfl]

theorem add_spec (hn : Unshared s n) (hthawed : (s n).frozen = false) (hne : other ≠ n) :
    ∃ s', s.add n other = .ok s' ∧ Adds s n (· ∈ s.contents other) s' ∧
      ∀ k, (s' k).frozen = true → (s k).frozen = true ∨ k = other := by
  have hfreeze : ∀ k, (s.freeze other k).frozen = true → (s k).frozen = true ∨ k = other := by
    intro k
    rw [freeze, update_apply]
    split
    next heq => exact fun _ => .inr heq
    next hk => exact .inl
  rw [add, hthawed, if_neg (by simp)]
  split
  next heq =>
    refine ⟨s.freeze other, rfl, (freeze_adds hs hn hne).congr fun op => ?_, hfreeze⟩
    have hsame : s.contents other = s.contents n := by rw [contents, contents, heq]
    rw [hsame, or_false, or_self]
  next =>
    cases himpl : (s n).impl with
    | none =>
      have hfrozen := freeze_adds hs hn hne
      have hother : (s.freeze other other).impl = (s other).impl := hfrozen.impl other hne
      have hself : (s.freeze other n).impl = none := by
        rw [freeze, update_of_ne hne.symm, himpl]
      have hshare := share_adds hfrozen.wellFormed hfrozen.unshared hself other
      rw [hother, hfrozen.contents_of_ne hn hne] at hshare
      refine ⟨_, rfl, (hfrozen.trans hshare).congr fun op => by rw [false_or], fun k hk => ?_⟩
      rw [update_apply] at hk
      split at hk
      next heq => exact hfreeze k (heq ▸ hk)
      next => exact hfreeze k hk
    | some =>
      obtain ⟨s', hrun, hadds, hfrozen⟩ := addOps_spec hs hn hthawed (s.contents other)
      exact ⟨s', hrun, hadds, fun k hk => .inl (hfrozen k ▸ hk)⟩

end

/-- Adding the sets of several nodes, which may be frozen by that. -/
theorem addAll_spec (hs : WellFormed s) (hn : Unshared s n) (hthawed : (s n).frozen = false)
    (hne : n ∉ others) :
    ∃ s', others.foldlM (fun s other => s.add n other) s = .ok s' ∧
      Adds s n (fun op => ∃ other ∈ others, op ∈ s.contents other) s' ∧
      ∀ k, (s' k).frozen = true → (s k).frozen = true ∨ k ∈ others := by
  induction others generalizing s with
  | nil => exact ⟨s, rfl, (Adds.refl hs hn).congr fun _ => by simp, fun _ => .inl⟩
  | cons other others ih =>
    rw [mem_cons, not_or] at hne
    have hother : other ≠ n := fun h => hne.1 h.symm
    obtain ⟨s1, hrun1, hadds1, hfrozen1⟩ := add_spec hs hn hthawed hother
    obtain ⟨s2, hrun2, hadds2, hfrozen2⟩ :=
      ih hadds1.wellFormed hadds1.unshared (hadds1.thawed.trans hthawed) hne.2
    have hcontents : ∀ w ∈ others, s1.contents w = s.contents w := fun w hw =>
      hadds1.contents_of_ne hn fun heq => hne.2 (heq ▸ hw)
    refine ⟨s2, ?_, (hadds1.trans hadds2).congr fun op => ?_, fun k hk => ?_⟩
    · rw [foldlM_cons, hrun1]
      exact hrun2
    · refine or_congr_right ?_
      rw [exists_mem_cons_iff]
      refine or_congr_right (exists_congr fun w => and_congr_right fun hw => ?_)
      rw [hcontents w hw]
    · rw [mem_cons, ← or_assoc]
      exact (hfrozen2 k hk).imp_left (hfrozen1 k)

theorem addAll_frozen (hfrozen : (s n).frozen = true) (hne : others ≠ []) :
    others.foldlM (fun s other => s.add n other) s = .error .frozen := by
  cases others with
  | nil => exact absurd rfl hne
  | cons =>
    rw [foldlM_cons, add, if_pos hfrozen]
    rfl

end Sets
end TfReading.ResourceSafety
