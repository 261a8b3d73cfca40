import TfReading.Strings.OrderedCodeWords

/-!
# The order of encoded tuples

A tuple of strings and numbers is encoded field by field into one byte string.
Every field code is ordered in the sense of `OrderedCodes.Ordered`, so the words
of two different values part before either ends, and the first field in which two
tuples differ decides the comparison of their encodings.
-/

namespace TfReading.OrderedCode

open BigEndian OrderedCodes List

theorem escape_cons (c : UInt8) : ∃ t, escape c = c :: t := by
  unfold escape
  split
  · next h => exact ⟨[kNullCharacter], by rw [h]⟩
  · split
    · next h => exact ⟨[kFFCharacter], by rw [h]⟩
    · exact ⟨[], rfl⟩

theorem escape_ordered : Ordered (· < ·) escape := by
  intro a b hab
  obtain ⟨s, hs⟩ := escape_cons a
  obtain ⟨t, ht⟩ := escape_cons b
  rw [hs, ht]
  exact .head s t hab

theorem separator_before_escape (c : UInt8) : Before kEscape1Separator (escape c) := by
  by_cases hc : c = kEscape1
  · rw [hc]
    exact .tail _ (.head _ _ (by decide))
  · obtain ⟨t, ht⟩ := escape_cons c
    rw [ht]
    refine .head _ _ ?_
    have hne : c.toNat ≠ 0 := fun e => hc (UInt8.toNat_inj.mp e)
    show 0 < c.toNat
    omega

theorem writeString_ordered : Ordered (· < ·) (writeString []) := by
  intro s t hst
  rw [writeString_eq, writeString_eq, nil_append, nil_append]
  exact ordered_flatMap_mark escape_ordered separator_before_escape s t hst

theorem writeNumIncreasing_ordered : Ordered (· < ·) (writeNumIncreasing []) := by
  intro a b hab
  rw [UInt64.lt_iff_toNat_lt] at hab
  obtain ⟨n, ha, hn8, hna, hage⟩ := writeNumIncreasing_eq [] a
  obtain ⟨m, hb, hm8, hmb, hbge⟩ := writeNumIncreasing_eq [] b
  rw [ha, hb, nil_append, nil_append]
  rcases lt_trichotomy n m with hlt | rfl | hgt
  · refine .head _ _ ?_
    rw [UInt8.lt_iff_toNat_lt, UInt8.toNat_ofNat', UInt8.toNat_ofNat']
    omega
  · exact .tail _ (before_of_lt hab hmb)
  · -- A longer word has a larger value, against `a < b`.
    have hle : 256 ^ m ≤ 256 ^ (n - 1) := Nat.pow_le_pow_right (by decide) (by omega)
    omega

/-! ## Signed numbers -/

variable {m n : Nat} {v : Int}

theorem two_mul_two_pow_le (h1 : 1 ≤ n) : 2 * (2 : Nat) ^ (7 * n) ≤ 2 ^ (8 * n) := by
  rw [← Nat.pow_succ']
  exact Nat.pow_le_pow_right (by decide) (by omega)

theorem two_pow_add_le {k : Nat} (hn : 1 ≤ n) (hk : 1 ≤ k) :
    (2 : Nat) ^ (7 * (n + k)) ≤ 2 ^ (7 * n - 1) * 2 ^ (8 * k) := by
  rw [← Nat.pow_add]
  exact Nat.pow_le_pow_right (by decide) (by omega)

theorem signedWord_bounds (h1 : 1 ≤ n) (hv : magnitude v < 2 ^ (7 * n - 1)) :
    2 ^ (7 * n - 1) ≤ signedWord n v ∧ signedWord n v < 2 ^ (8 * n) - 2 ^ (7 * n - 1) ∧
      (v < 0 → signedWord n v < 2 ^ (7 * n)) ∧
        (¬ v < 0 → 2 ^ (8 * n) - 2 ^ (7 * n) ≤ signedWord n v) := by
  have hhalf := two_pow_pred (e := 7 * n) (by omega)
  have hdouble := two_mul_two_pow_le h1
  unfold signedWord
  split
  · omega
  · omega

theorem length_le_of_magnitude_le {a b : Nat} (hm : a < 2 ^ (7 * m - 1))
    (hn : n ≠ 1 → 2 ^ (7 * (n - 1) - 1) ≤ b) (h1 : 1 ≤ m) (hba : b ≤ a) : n ≤ m := by
  by_contra hlt
  have hle : 2 ^ (7 * m - 1) ≤ 2 ^ (7 * (n - 1) - 1) :=
    Nat.pow_le_pow_right (by decide) (by omega)
  omega

/-- The words of a smaller and a larger value part in the order of the values,
whatever the two lengths are. -/
theorem signedWord_before {w : Int} (hn1 : 1 ≤ n) (hm1 : 1 ≤ m)
    (hn : magnitude v < 2 ^ (7 * n - 1)) (hm : magnitude w < 2 ^ (7 * m - 1))
    (hn' : n ≠ 1 → 2 ^ (7 * (n - 1) - 1) ≤ magnitude v)
    (hm' : m ≠ 1 → 2 ^ (7 * (m - 1) - 1) ≤ magnitude w) (hvw : v < w) :
    Before (bigEndian n (signedWord n v)) (bigEndian m (signedWord m w)) := by
  obtain ⟨hvlo, hvhi, hvneg, hvpos⟩ := signedWord_bounds hn1 hn
  obtain ⟨hwlo, hwhi, hwneg, hwpos⟩ := signedWord_bounds hm1 hm
  rcases lt_trichotomy n m with hlt | rfl | hgt
  · -- The longer value is not negative: its magnitude is the larger one.
    have hw : ¬ w < 0 := by
      intro hw
      have := length_le_of_magnitude_le hn hm' hn1
        (by unfold magnitude; rw [if_pos hw, if_pos (hvw.trans hw)]; omega)
      omega
    obtain ⟨k, rfl⟩ : ∃ k, m = n + k := ⟨m - n, by omega⟩
    refine before_of_lt_div ?_ (by rw [pow_256]; omega)
    rw [Nat.lt_iff_add_one_le, Nat.le_div_iff_mul_le (Nat.pow_pos (by decide)), pow_256]
    have hle : (signedWord n v + 1) * 2 ^ (8 * k) ≤ (2 ^ (8 * n) - 2 ^ (7 * n - 1)) * 2 ^ (8 * k) :=
      Nat.mul_le_mul_right _ hvhi
    have hpow := two_pow_add_le (k := k) hn1 (by omega)
    rw [Nat.sub_mul, ← Nat.pow_add, ← Nat.mul_add] at hle
    omega
  · refine before_of_lt ?_ (by rw [pow_256]; omega)
    unfold signedWord
    by_cases hv : v < 0
    · by_cases hw : w < 0
      · have hmag : magnitude w < magnitude v := by
          unfold magnitude
          omega
        rw [if_pos hv, if_pos hw]
        omega
      · have hdouble := two_mul_two_pow_le hn1
        rw [if_pos hv, if_neg hw]
        omega
    · have hw : ¬ w < 0 := by omega
      have hmag : magnitude v < magnitude w := by
        unfold magnitude
        omega
      rw [if_neg hv, if_neg hw]
      omega
  · have hv : v < 0 := by
      by_contra hv
      have hw : ¬ w < 0 := by omega
      have := length_le_of_magnitude_le hm hn' hm1
        (by unfold magnitude; rw [if_neg hw, if_neg hv]; omega)
      omega
    obtain ⟨k, rfl⟩ : ∃ k, n = m + k := ⟨n - m, by omega⟩
    refine before_of_div_lt ?_ (by rw [pow_256]; omega)
    rw [Nat.div_lt_iff_lt_mul (Nat.pow_pos (by decide)), pow_256]
    have hle : 2 ^ (7 * m - 1) * 2 ^ (8 * k) ≤ signedWord m w * 2 ^ (8 * k) :=
      Nat.mul_le_mul_right _ hwlo
    have hpow := two_pow_add_le (k := k) hm1 (by omega)
    omega

theorem writeSignedNumIncreasing_ordered : Ordered (· < ·) (writeSignedNumIncreasing []) := by
  intro a b hab
  rw [Int64.lt_iff_toInt_lt] at hab
  obtain ⟨n, ha, hn1, -, hn, hn'⟩ := writeSignedNumIncreasing_eq [] a
  obtain ⟨m, hb, hm1, -, hm, hm'⟩ := writeSignedNumIncreasing_eq [] b
  rw [ha, hb, nil_append, nil_append]
  exact signedWord_before hn1 hm1 hn hm hn' hm' hab

/-! ## Tuples -/

inductive FieldType
  | string
  | uint64
  | int64

def FieldType.Value : FieldType → Type
  | .string => List UInt8
  | .uint64 => UInt64
  | .int64 => Int64

def Tuple : List FieldType → Type
  | [] => Unit
  | t :: ts => t.Value × Tuple ts

/-- Strings bytewise, numbers numerically. -/
def valueLt : (t : FieldType) → t.Value → t.Value → Prop
  | .string, a, b => (show List UInt8 from a) < b
  | .uint64, a, b => (show UInt64 from a) < b
  | .int64, a, b => (show Int64 from a) < b

def tupleLt : (ts : List FieldType) → Tuple ts → Tuple ts → Prop
  | [], _, _ => False
  | t :: ts, x, y => valueLt t x.1 y.1 ∨ x.1 = y.1 ∧ tupleLt ts x.2 y.2

def writeValue : (t : FieldType) → List UInt8 → t.Value → List UInt8
  | .string, dest, s => writeString dest s
  | .uint64, dest, val => writeNumIncreasing dest val
  | .int64, dest, val => writeSignedNumIncreasing dest val

def writeTuple : (ts : List FieldType) → List UInt8 → Tuple ts → List UInt8
  | [], dest, _ => dest
  | t :: ts, dest, x => writeTuple ts (writeValue t dest x.1) x.2

theorem writeValue_append (t : FieldType) (dest : List UInt8) (a : t.Value) :
    writeValue t dest a = dest ++ writeValue t [] a := by
  cases t with
  | string => exact writeString_append dest a
  | uint64 => rfl
  | int64 => exact writeSignedNumIncreasing_append dest a

theorem writeTuple_append (ts : List FieldType) (dest : List UInt8) (x : Tuple ts) :
    writeTuple ts dest x = dest ++ writeTuple ts [] x := by
  induction ts generalizing dest with
  | nil => exact (append_nil dest).symm
  | cons t ts ih =>
    show writeTuple ts (writeValue t dest x.1) x.2 = dest ++ writeTuple ts (writeValue t [] x.1) x.2
    rw [ih, writeValue_append, ih (writeValue t [] x.1), append_assoc]

theorem writeValue_ordered (t : FieldType) : Ordered (valueLt t) (writeValue t []) := by
  cases t with
  | string => exact writeString_ordered
  | uint64 => exact writeNumIncreasing_ordered
  | int64 => exact writeSignedNumIncreasing_ordered

theorem writeTuple_ordered (ts : List FieldType) : Ordered (tupleLt ts) (writeTuple ts []) := by
  induction ts with
  | nil => exact fun _ _ h => absurd h id
  | cons t ts ih =>
    intro x y hxy
    show Before (writeTuple ts (writeValue t [] x.1) x.2) (writeTuple ts (writeValue t [] y.1) y.2)
    rw [writeTuple_append, writeTuple_append ts (writeValue t [] y.1)]
    rcases hxy with hlt | ⟨heq, hlt⟩
    · exact (writeValue_ordered t _ _ hlt).append _ _
    · rw [heq]
      exact (ih _ _ hlt).prepend _

theorem valueLt_trichotomy (t : FieldType) (a b : t.Value) :
    valueLt t a b ∨ a = b ∨ valueLt t b a := by
  cases t with
  | string => exact trichotomous_of (α := List UInt8) (· < ·) a b
  | uint64 => exact trichotomous_of (α := UInt64) (· < ·) a b
  | int64 => exact trichotomous_of (α := Int64) (· < ·) a b

theorem tupleLt_trichotomy (ts : List FieldType) (x y : Tuple ts) :
    tupleLt ts x y ∨ x = y ∨ tupleLt ts y x := by
  induction ts with
  | nil => exact .inr (.inl rfl)
  | cons t ts ih =>
    rcases valueLt_trichotomy t x.1 y.1 with hlt | heq | hgt
    · exact .inl (.inl hlt)
    · rcases ih x.2 y.2 with hlt | heq' | hgt
      · exact .inl (.inr ⟨heq, hlt⟩)
      · exact .inr (.inl (Prod.ext heq heq'))
      · exact .inr (.inr (.inr ⟨heq.symm, hgt⟩))
    · exact .inr (.inr (.inl hgt))

/-- For tuples of any sequence of field types, the unsigned byte order of the
encodings is the lexicographic order of the tuples, and no encoding is a proper
prefix of another. -/
theorem writeTuple_order_preserving (ts : List FieldType) (x y : Tuple ts) :
    (writeTuple ts [] x < writeTuple ts [] y ↔ tupleLt ts x y) ∧
      (writeTuple ts [] x = writeTuple ts [] y ↔ x = y) ∧
        (writeTuple ts [] x <+: writeTuple ts [] y → writeTuple ts [] x = writeTuple ts [] y) := by
  have hord := writeTuple_ordered ts
  have htri := tupleLt_trichotomy ts
  refine ⟨hord.lt_iff htri, ⟨?_, ?_⟩, ?_⟩
  · intro heq
    exact hord.eq_of_isPrefix htri (heq ▸ prefix_rfl)
  · intro heq
    rw [heq]
  · intro hp
    rw [hord.eq_of_isPrefix htri hp]

end TfReading.OrderedCode
