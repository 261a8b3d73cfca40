import TfReading.Library.OrderedCodes
import Mathlib.Tactic.Ring

/-!
# Big-endian byte words

`bigEndian w v` is the word of `w` bytes whose base-256 value is `v` modulo
`256 ^ w`, most significant byte first.  The order of two words of equal width is
the order of their values, and a wider word is compared with a narrower one
through the quotient that its leading bytes spell.
-/

namespace TfReading.BigEndian

open OrderedCodes

/-- The `w` lowest base-256 digits of `v`, most significant first. -/
def bigEndian : Nat → Nat → List UInt8
  | 0, _ => []
  | w + 1, v => UInt8.ofNat (v / 256 ^ w) :: bigEndian w v

/-- The value a word spells, read most significant byte first from `acc`. -/
def load (acc : Nat) (bs : List UInt8) : Nat :=
  bs.foldl (fun v b => v * 256 + b.toNat) acc

theorem bigEndian_succ (w v : Nat) :
    bigEndian (w + 1) v = UInt8.ofNat (v / 256 ^ w) :: bigEndian w v := rfl

@[simp] theorem length_bigEndian (w v : Nat) : (bigEndian w v).length = w := by
  induction w with
  | zero => rfl
  | succ w ih => rw [bigEndian_succ, List.length_cons, ih]

@[simp] theorem load_nil (acc : Nat) : load acc [] = acc := rfl

@[simp] theorem load_cons (acc : Nat) (b : UInt8) (bs : List UInt8) :
    load acc (b :: bs) = load (acc * 256 + b.toNat) bs := rfl

theorem bigEndian_append (w k v : Nat) :
    bigEndian (w + k) v = bigEndian w (v / 256 ^ k) ++ bigEndian k v := by
  induction w with
  | zero => simp [bigEndian]
  | succ w ih =>
    rw [Nat.succ_add, bigEndian_succ, bigEndian_succ, ih, Nat.div_div_eq_div_mul, ← Nat.pow_add,
      Nat.add_comm k w]
    rfl

theorem bigEndian_mod (w v : Nat) : bigEndian w (v % 256 ^ w) = bigEndian w v := by
  suffices h : ∀ k, bigEndian w (v % 256 ^ (w + k)) = bigEndian w v from h 0
  induction w with
  | zero => intro k; rfl
  | succ w ih =>
    intro k
    have hdigit : UInt8.ofNat (v % 256 ^ (w + 1 + k) / 256 ^ w) = UInt8.ofNat (v / 256 ^ w) := by
      apply UInt8.toNat_inj.mp
      have hsplit : 256 ^ (w + 1 + k) = 256 ^ w * 256 ^ (k + 1) := by ring
      have hpow : (256 : Nat) ^ (k + 1) = 2 ^ 8 * 256 ^ k := by ring
      rw [hsplit, Nat.mod_mul_right_div_self, hpow, UInt8.toNat_ofNat', UInt8.toNat_ofNat',
        Nat.mod_mul_right_mod]
    rw [bigEndian_succ, bigEndian_succ, hdigit, show w + 1 + k = w + (k + 1) by omega, ih]

theorem load_mod (m a : Nat) (bs : List UInt8) : load (a % m) bs % m = load a bs % m := by
  induction bs generalizing a with
  | nil => simp
  | cons b bs ih =>
    have hstep : (a % m * 256 + b.toNat) % m = (a * 256 + b.toNat) % m := by
      rw [Nat.add_mod, Nat.mul_mod, Nat.mod_mod, ← Nat.mul_mod, ← Nat.add_mod]
    rw [load_cons, load_cons, ← ih, hstep, ih]

/-- Reading a word back gives the value modulo its width, below whatever was read
before it. -/
theorem load_bigEndian (w v acc : Nat) :
    load acc (bigEndian w v) = acc * 256 ^ w + v % 256 ^ w := by
  induction w generalizing acc with
  | zero => simp [bigEndian, Nat.mod_one]
  | succ w ih =>
    rw [bigEndian_succ, load_cons, ih, UInt8.toNat_ofNat']
    have hv : v % 256 ^ (w + 1) = 256 ^ w * (v / 256 ^ w % 256) + v % 256 ^ w := by
      rw [Nat.pow_succ, Nat.mod_mul]
      omega
    rw [hv]
    ring

theorem bigEndian_xor (w a b : Nat) :
    bigEndian w (a ^^^ b) = List.zipWith (· ^^^ ·) (bigEndian w a) (bigEndian w b) := by
  induction w with
  | zero => rfl
  | succ w ih =>
    have hpow : (256 : Nat) ^ w = 2 ^ (8 * w) := by rw [Nat.pow_mul]
    have hdigit : UInt8.ofNat ((a ^^^ b) / 256 ^ w) =
        UInt8.ofNat (a / 256 ^ w) ^^^ UInt8.ofNat (b / 256 ^ w) := by
      apply UInt8.toNat_inj.mp
      rw [UInt8.toNat_xor, UInt8.toNat_ofNat', UInt8.toNat_ofNat', UInt8.toNat_ofNat', hpow,
        Nat.xor_div_two_pow, Nat.xor_mod_two_pow]
    rw [bigEndian_succ, bigEndian_succ, bigEndian_succ, hdigit, ih]
    rfl

theorem before_of_lt {w a b : Nat} (hab : a < b) (hb : b < 256 ^ w) :
    Before (bigEndian w a) (bigEndian w b) := by
  induction w generalizing a b with
  | zero => simp at hb; omega
  | succ w ih =>
    have hpos : 0 < 256 ^ w := Nat.pow_pos (by decide)
    have hb' : b / 256 ^ w < 256 := by
      apply Nat.div_lt_of_lt_mul
      rwa [← Nat.pow_succ]
    have hle : a / 256 ^ w ≤ b / 256 ^ w := Nat.div_le_div_right hab.le
    rw [bigEndian_succ, bigEndian_succ]
    rcases lt_or_ge (a / 256 ^ w) (b / 256 ^ w) with hlt | hge
    · refine .head _ _ ?_
      rw [UInt8.lt_iff_toNat_lt, UInt8.toNat_ofNat', UInt8.toNat_ofNat',
        Nat.mod_eq_of_lt (hlt.trans hb'), Nat.mod_eq_of_lt hb']
      exact hlt
    · have heq : a / 256 ^ w = b / 256 ^ w := le_antisymm hle hge
      rw [heq]
      refine .tail _ ?_
      rw [← bigEndian_mod w a, ← bigEndian_mod w b]
      refine ih ?_ (Nat.mod_lt _ hpos)
      have ha := Nat.div_add_mod a (256 ^ w)
      have hb := Nat.div_add_mod b (256 ^ w)
      rw [heq] at ha
      omega

/-- A narrow word comes before a wide one when its value is below what the
leading bytes of the wide one spell. -/
theorem before_of_lt_div {w k a b : Nat} (hab : a < b / 256 ^ k) (hb : b < 256 ^ (w + k)) :
    Before (bigEndian w a) (bigEndian (w + k) b) := by
  rw [bigEndian_append]
  have hlt : b / 256 ^ k < 256 ^ w := by
    apply Nat.div_lt_of_lt_mul
    rwa [← Nat.pow_add, Nat.add_comm k w]
  simpa using (before_of_lt hab hlt).append [] (bigEndian k b)

theorem before_of_div_lt {w k a b : Nat} (hab : a / 256 ^ k < b) (hb : b < 256 ^ w) :
    Before (bigEndian (w + k) a) (bigEndian w b) := by
  rw [bigEndian_append]
  simpa using (before_of_lt hab hb).append (bigEndian k a) []

end TfReading.BigEndian
