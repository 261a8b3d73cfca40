import Mathlib.Data.List.Lex

/-!
# Codes that keep an order

A code sends values to words over an ordered alphabet.  Concatenating the codes
of a tuple keeps the order of the tuples only when no code word is a prefix of
another, since the comparison of two words must be decided before either ends.
`Before x y` states both at once: the two words part at some position, and `x`
has the smaller letter there.  It survives any continuation of the two words,
which the lexicographic order does not.
-/

namespace TfReading.OrderedCodes

open List

variable {β : Type*} [LT β]

/-- The words part at a common position, and the left one is smaller there. -/
inductive Before : List β → List β → Prop
  | head {a b : β} (s t : List β) (h : a < b) : Before (a :: s) (b :: t)
  | tail (a : β) {s t : List β} (h : Before s t) : Before (a :: s) (a :: t)

namespace Before

theorem append {x y : List β} (h : Before x y) (s t : List β) :
    Before (x ++ s) (y ++ t) := by
  induction h with
  | head u v hab => exact .head (u ++ s) (v ++ t) hab
  | tail a _ ih => exact .tail a ih

theorem prepend {x y : List β} (p : List β) (h : Before x y) :
    Before (p ++ x) (p ++ y) := by
  induction p with
  | nil => exact h
  | cons a p ih => exact .tail a ih

theorem lt {x y : List β} (h : Before x y) : x < y := by
  induction h with
  | head s t hab => exact .rel hab
  | tail a _ ih => exact .cons ih

theorem not_isPrefix [Std.Asymm (α := β) (· < ·)] {x y : List β} (h : Before x y) :
    ¬ x <+: y ∧ ¬ y <+: x := by
  induction h with
  | @head a b s t hab =>
    have hne : a ≠ b := fun e => Std.Irrefl.irrefl b (e ▸ hab)
    constructor
    · intro hp
      exact hne (cons_prefix_cons.mp hp).1
    · intro hp
      exact hne (cons_prefix_cons.mp hp).1.symm
  | tail a _ ih =>
    constructor
    · intro hp
      exact ih.1 (cons_prefix_cons.mp hp).2
    · intro hp
      exact ih.2 (cons_prefix_cons.mp hp).2

end Before

/-- A code is ordered for `r` when related values have words that part in the
order of the relation. -/
def Ordered {α : Type*} (r : α → α → Prop) (enc : α → List β) : Prop :=
  ∀ a b, r a b → Before (enc a) (enc b)

/-- A code that reads a word as the concatenation of its letters' codes and
closes it with an end mark.  It is ordered once the letter codes part from one
another in the order of the letters, and from the end mark. -/
theorem ordered_flatMap_mark {α : Type*} [LT α] {letter : α → List β} {mark : List β}
    (hletter : Ordered (· < ·) letter) (hmark : ∀ a, Before mark (letter a)) :
    Ordered (· < ·) (fun x : List α => x.flatMap letter ++ mark) := by
  intro x y h
  induction h with
  | @nil b t =>
    simpa using (hmark b).append [] (t.flatMap letter ++ mark)
  | @cons a s t _ ih =>
    simpa only [flatMap_cons, append_assoc] using ih.prepend (letter a)
  | @rel a s b t hab =>
    simpa only [flatMap_cons, append_assoc] using
      (hletter a b hab).append (s.flatMap letter ++ mark) (t.flatMap letter ++ mark)

section Total

variable [Std.Asymm (α := β) (· < ·)]
variable {α : Type*} {r : α → α → Prop} {enc : α → List β}

/-- On a trichotomous relation an ordered code reflects the order as well as
keeping it. -/
theorem Ordered.lt_iff (h : Ordered r enc) (htri : ∀ a b, r a b ∨ a = b ∨ r b a) {a b : α} :
    enc a < enc b ↔ r a b := by
  constructor
  · intro hlt
    rcases htri a b with hab | rfl | hba
    · exact hab
    · exact absurd hlt (List.lt_irrefl _)
    · exact absurd hlt (List.lt_asymm (h b a hba).lt)
  · intro hab
    exact (h a b hab).lt

theorem Ordered.eq_of_isPrefix (h : Ordered r enc) (htri : ∀ a b, r a b ∨ a = b ∨ r b a)
    {a b : α} (hp : enc a <+: enc b) : a = b := by
  rcases htri a b with hab | hab | hba
  · exact absurd hp (h a b hab).not_isPrefix.1
  · exact hab
  · exact absurd hp (h b a hba).not_isPrefix.2

end Total

end TfReading.OrderedCodes
