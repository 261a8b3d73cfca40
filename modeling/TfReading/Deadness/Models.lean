import TfReading.Deadness.Predicate
import TfReading.Library.Junction

/-!
# What predicates mean

A valuation of the predicates of a factory agrees with an assignment of the symbols and with the
content of every predicate.  It is about one iteration of the loops, so that of `{S,&,X}` it only says
that it implies `S`.  In an iteration `{S,&,X} & ~X` need not be `S`, to which the factory simplifies
it, so that values are known of those predicates only that no recurrence is part of.
-/

namespace TfReading.Deadness

open List

/-- The values of tensors, and which tensors carry a live signal. -/
structure Assignment where
  boolValue : TensorId → Bool
  intValue : TensorId → Int
  isAlive : TensorId → Bool

namespace Assignment

def symbol (σ : Assignment) (tensor : TensorId) (mustBeTrue : Bool) : Bool :=
  if mustBeTrue then σ.boolValue tensor else σ.isAlive tensor

def intSymbol (σ : Assignment) (tensor : TensorId) : Option Int → Bool
  | some value => σ.intValue tensor = value
  | none => σ.isAlive tensor

end Assignment

def Predicate.Holds (σ : Assignment) (v : Nat → Bool) (p : Nat) : Predicate → Prop
  | .andOr isAnd operands => v p = junction isAnd v operands
  | .not operand => v p = !v operand
  | .andRecurrence start _ _ => v p = true → v start = true
  | .symbol tensor mustBeTrue => v p = σ.symbol tensor mustBeTrue
  | .intSymbol tensor mustHaveValue => v p = σ.intSymbol tensor mustHaveValue

def Predicate.isRecurrence : Predicate → Bool
  | .andRecurrence .. => true
  | .andOr .. | .not _ | .symbol .. | .intSymbol .. => false

variable {content : Predicate} {σ : Assignment} {v v' : Nat → Bool} {p : Nat}

/-- Whatever its operands are, a predicate can have a value. -/
theorem Predicate.exists_holds (content : Predicate) (σ : Assignment) (v : Nat → Bool) :
    ∃ b, ∀ v' : Nat → Bool, v' p = b → (∀ op ∈ content.operands, v' op = v op) →
      content.Holds σ v' p := by
  cases content with
  | andOr isAnd operands =>
    exact ⟨junction isAnd v operands, fun v' hp h => hp.trans (junction_congr_values h).symm⟩
  | not operand =>
    exact ⟨!v operand, fun v' hp h => hp.trans (congrArg _ (h operand mem_cons_self)).symm⟩
  | andRecurrence =>
    exact ⟨false, fun v' hp _ htrue => absurd (hp.symm.trans htrue) Bool.false_ne_true⟩
  | symbol tensor mustBeTrue => exact ⟨σ.symbol tensor mustBeTrue, fun v' hp _ => hp⟩
  | intSymbol tensor mustHaveValue => exact ⟨σ.intSymbol tensor mustHaveValue, fun v' hp _ => hp⟩

theorem Predicate.Holds.congr (hold : content.Holds σ v p) (hp : v p = v' p)
    (h : ∀ op ∈ content.operands, v op = v' op) :
    content.Holds σ v' p := by
  cases content with
  | andRecurrence start => exact fun htrue => h start mem_cons_self ▸ hold (hp.trans htrue)
  | andOr => exact hp.symm.trans (hold.trans (junction_congr_values h))
  | not operand => exact hp.symm.trans (hold.trans (congrArg _ (h operand mem_cons_self)))
  | symbol | intSymbol => exact hp.symm.trans hold

namespace Factory

def Models (σ : Assignment) (f : Factory) (v : Nat → Bool) : Prop :=
  ∀ p content, f.get p = some content → content.Holds σ v p

/-- No recurrence is part of the predicate. -/
inductive Plain (f : Factory) : Nat → Prop
  | made {p : Nat} {content : Predicate} (hget : f.get p = some content)
    (hno : content.isRecurrence = false) (hops : ∀ op ∈ content.operands, Plain f op) : Plain f p

/-- Operands come before what is made of them, and the cache holds negations. -/
structure Valid (f : Factory) : Prop where
  operands : ∀ p content, f.get p = some content → ∀ op ∈ content.operands, op < p
  cached : ∀ pred result, f.makeNotCache.lookup pred = some result → pred < f.size ∧
    (f.Plain pred → f.Plain result ∧ ∀ σ v, f.Models σ v → v result = !v pred)

def Includes (f f' : Factory) : Prop :=
  ∀ p content, f.get p = some content → f'.get p = some content

def HasNoRecurrence (f : Factory) : Prop := ∀ content ∈ f.instances, content.isRecurrence = false

/-- Predicates other than recurrences have been added. -/
structure Extends (f f' : Factory) : Prop where
  get : Includes f f'
  hasNoRecurrence : f.HasNoRecurrence → f'.HasNoRecurrence

variable {f f' f'' : Factory} {σ : Assignment} {v : Nat → Bool}

variable {content : Predicate} {r : Nat × Factory}

theorem get_lt (h : f.get p = some content) : p < f.size :=
  (List.getElem?_eq_some_iff.mp h).1

theorem Valid.operands_lt (hf : f.Valid)
    (h : f.get p = some content) {op : Nat} (hop : op ∈ content.operands) : op < f.size :=
  lt_trans (hf.operands p content h op hop) (get_lt h)

theorem Includes.get_of_lt (h : Includes f f') (hlt : p < f.size) (hp : f'.get p = some content) :
    f.get p = some content := by
  have hget : f.get p = some (f.instances.get ⟨p, hlt⟩) := getElem?_eq_getElem hlt
  rw [hget, ← hp, h p _ hget]

theorem Includes.lt (h : Includes f f') (hlt : p < f.size) : p < f'.size :=
  get_lt (h p _ (getElem?_eq_getElem hlt))

theorem Includes.models_of (h : Includes f f') (hv : f'.Models σ v) : f.Models σ v :=
  fun p content hp => hv p content (h p content hp)

theorem Extends.refl (f : Factory) : Extends f f := ⟨fun _ _ h => h, fun h => h⟩

theorem Extends.trans (h : Extends f f') (h' : Extends f' f'') : Extends f f'' :=
  ⟨fun p content hp => h'.get p content (h.get p content hp),
    fun hno => h'.hasNoRecurrence (h.hasNoRecurrence hno)⟩

theorem Extends.restrict (h : Extends f f') (hv : f'.Models σ v) : f.Models σ v :=
  h.get.models_of hv

/-- Values that agree with a table go on to those of a larger one. -/
theorem Includes.models (h : Includes f f') (hf' : f'.Valid) (hv : f.Models σ v) :
    ∃ v', f'.Models σ v' ∧ ∀ p < f.size, v' p = v p := by
  have hpart : ∀ n, ∃ v', (∀ p < f.size + n, ∀ content, f'.get p = some content →
      content.Holds σ v' p) ∧ ∀ p < f.size, v' p = v p := by
    intro n
    induction n with
    | zero =>
      exact ⟨v, fun p hp content hget => hv p content (h.get_of_lt hp hget), fun _ _ => rfl⟩
    | succ n ih =>
      obtain ⟨v', hholds, hsame⟩ := ih
      cases hnew : f'.get (f.size + n) with
      | none =>
        refine ⟨v', fun p hp content hget => hholds p ?_ content hget, hsame⟩
        have hne : p ≠ f.size + n := fun heq => by simp [heq, hnew] at hget
        omega
      | some content =>
        obtain ⟨b, hb⟩ := content.exists_holds (p := f.size + n) σ v'
        have hold : ∀ p < f.size + n, Function.update v' (f.size + n) b p = v' p :=
          fun p hp => Function.update_of_ne hp.ne ..
        refine ⟨Function.update v' (f.size + n) b, fun p hp content' hget => ?_,
          fun p hp => (hold p (by omega)).trans (hsame p hp)⟩
        by_cases heq : p = f.size + n
        · subst heq
          cases hnew.symm.trans hget
          exact hb _ (Function.update_self ..) fun op hop => hold op (hf'.operands _ _ hnew op hop)
        · have hlt : p < f.size + n := by omega
          exact (hholds p hlt content' hget).congr (hold p hlt).symm fun op hop =>
            (hold op ((hf'.operands p content' hget op hop).trans hlt)).symm
  obtain ⟨v', hholds, hsame⟩ := hpart f'.size
  exact ⟨v', fun p content hget => hholds p (by have := get_lt hget; omega) content hget, hsame⟩

theorem Valid.exists_models (hf : f.Valid) (σ : Assignment) : ∃ v, f.Models σ v := by
  have hnone : Includes .empty f := nofun
  obtain ⟨v, hv, -⟩ := hnone.models (σ := σ) (v := fun _ => false) hf nofun
  exact ⟨v, hv⟩

theorem Plain.lt (hp : f.Plain p) : p < f.size := by
  cases hp with
  | made hget => exact get_lt hget

theorem Plain.extend (hp : f.Plain p) (h : Includes f f') : f'.Plain p := by
  induction hp with
  | made hget hno _ ih => exact .made (h _ _ hget) hno ih

theorem Plain.restrict (hp : f'.Plain p) (hf : f.Valid) (h : Includes f f') (hlt : p < f.size) :
    f.Plain p := by
  induction hp with
  | made hget hno _ ih =>
    have hget := h.get_of_lt hlt hget
    exact .made hget hno fun op hop => ih op hop (hf.operands_lt hget hop)

theorem Plain.operands (hp : f.Plain p) (hget : f.get p = some content) :
    content.isRecurrence = false ∧ ∀ op ∈ content.operands, f.Plain op := by
  cases hp with
  | made hget' hno hops =>
    cases hget.symm.trans hget'
    exact ⟨hno, hops⟩

theorem HasNoRecurrence.plain (h : f.HasNoRecurrence) (hf : f.Valid) (hp : p < f.size) :
    f.Plain p := by
  induction p using Nat.strongRecOn with
  | ind p ih =>
    have hget : f.get p = some (f.instances.get ⟨p, hp⟩) := getElem?_eq_getElem hp
    exact .made hget (h _ (get_mem ..)) fun op hop =>
      ih op (hf.operands p _ hget op hop) (hf.operands_lt hget hop)

/-! ## Making a predicate -/

/-- What an operation on the factory yields: a plain predicate with the given value. -/
structure Yields (f : Factory) (r : Nat × Factory) (value : Assignment → (Nat → Bool) → Bool) :
    Prop where
  valid : r.2.Valid
  grows : Extends f r.2
  made : r.2.Plain r.1
  value_eq : ∀ σ v, r.2.Models σ v → v r.1 = value σ v

theorem Yields.congr {value value' : Assignment → (Nat → Bool) → Bool}
    (h : Yields f r value) (heq : ∀ σ v, r.2.Models σ v → value σ v = value' σ v) :
    Yields f r value' :=
  { h with value_eq := fun σ v hv => (h.value_eq σ v hv).trans (heq σ v hv) }

variable {value : Assignment → (Nat → Bool) → Bool}

/-- Work before the last step only adds predicates. -/
theorem Yields.of_extends {f1 : Factory} (hext : Extends f f1) (h : Yields f1 r value) :
    Yields f r value :=
  { h with grows := hext.trans h.grows }

theorem get_append_left (hp : p < f.size) :
    ({ f with instances := f.instances ++ [content] } : Factory).get p = f.get p :=
  getElem?_append_left hp

theorem get_append_size (content : Predicate) :
    ({ f with instances := f.instances ++ [content] } : Factory).get f.size = some content := by
  simp [get, size]

theorem get_intern (f : Factory) (content : Predicate) :
    (f.intern content).2.get (f.intern content).1 = some content := by
  rw [intern]
  cases hfind : f.instances.findIdx? (fun other => other = content) with
  | some p =>
    obtain ⟨hlt, heq, -⟩ := findIdx?_eq_some_iff_getElem.mp hfind
    rw [get, getElem?_eq_getElem hlt, of_decide_eq_true heq]
  | none => exact get_append_size content

theorem includes_append (f : Factory) (content : Predicate) :
    Includes f { f with instances := f.instances ++ [content] } := fun p content' hp => by
  rw [get_append_left (get_lt hp), hp]

variable (hf : f.Valid)

include hf

theorem Valid.append (hops : ∀ op ∈ content.operands, op < f.size) :
    ({ f with instances := f.instances ++ [content] } : Factory).Valid := by
  have hext := includes_append f content
  refine ⟨fun p content' hp op hop => ?_, fun pred result hc => ?_⟩
  · by_cases heq : p = f.size
    · subst heq
      rw [get_append_size, Option.some.injEq] at hp
      subst hp
      exact hops op hop
    · have hlt := get_lt hp
      rw [size, length_append, length_singleton, ← size] at hlt
      rw [get_append_left (by omega)] at hp
      exact hf.operands p content' hp op hop
  · obtain ⟨hlt, hneg⟩ := hf.cached pred result hc
    refine ⟨hext.lt hlt, fun hplain => ?_⟩
    obtain ⟨hplain, hvalue⟩ := hneg (hplain.restrict hf hext hlt)
    exact ⟨hplain.extend hext, fun σ v hv => hvalue σ v (hext.models_of hv)⟩

theorem intern_yields (hops : ∀ op ∈ content.operands, f.Plain op)
    (hno : content.isRecurrence = false)
    (hval : ∀ σ v p, content.Holds σ v p → v p = value σ v) :
    Yields f (f.intern content) value := by
  have hgrows : (f.intern content).2.Valid ∧ Extends f (f.intern content).2 := by
    rw [intern]
    split
    · exact ⟨hf, .refl f⟩
    · exact ⟨hf.append fun op hop => (hops op hop).lt, includes_append f content,
        fun hnone => forall_mem_append.mpr ⟨hnone, forall_mem_singleton.mpr hno⟩⟩
  have hget := f.get_intern content
  exact ⟨hgrows.1, hgrows.2, .made hget hno fun op hop => (hops op hop).extend hgrows.2.get,
    fun σ v hv => hval σ v _ (hv _ _ hget)⟩

end Factory
end TfReading.Deadness
