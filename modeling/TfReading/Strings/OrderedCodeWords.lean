import TfReading.Strings.OrderedCode
import Mathlib.Data.List.TakeWhile

/-!
# What the writers append

Each writer appends one word to `dest`.  A string is escaped letter by letter and
closed with the separator, an unsigned number is a length byte and the shortest
big-endian word of its value, and a signed number is the big-endian word of a
shifted value whose leading bits spell the length.
-/

namespace TfReading.OrderedCode

open BigEndian List Nat

/-! ## Strings -/

def escape (c : UInt8) : List UInt8 :=
  if c = kEscape1 then [kEscape1, kNullCharacter]
  else if c = kEscape2 then [kEscape2, kFFCharacter]
  else [c]

theorem forall_byte {P : UInt8 → Prop} (h : ∀ i : Fin 256, P (UInt8.ofNat i.val)) (c : UInt8) :
    P c := by
  have hc := h ⟨c.toNat, c.toNat_lt⟩
  rwa [UInt8.ofNat_toNat] at hc

theorem isSpecialByte_iff : ∀ c : UInt8,
    isSpecialByte c = true ↔ c = kEscape1 ∨ c = kEscape2 :=
  forall_byte (by decide +kernel)

variable {c : UInt8} {b m n : Nat} {dest rest run s : List UInt8} {val : Int64}

theorem escape_of_not_special (h : isSpecialByte c = false) : escape c = [c] := by
  have hn : ¬ (c = kEscape1 ∨ c = kEscape2) := fun hc => by
    rw [(isSpecialByte_iff c).mpr hc] at h
    exact absurd h (by decide)
  rw [escape, if_neg (fun e => hn (.inl e)), if_neg (fun e => hn (.inr e))]

theorem flatMap_escape_run (h : ∀ c ∈ run, isSpecialByte c = false) :
    run.flatMap escape = run := by
  induction run with
  | nil => rfl
  | cons c run ih =>
    rw [flatMap_cons, escape_of_not_special (h c mem_cons_self),
      ih (fun d hd => h d (mem_cons_of_mem c hd))]
    rfl

theorem split_special (s : List UInt8) :
    (∀ c ∈ s, isSpecialByte c = false) ∨
      ∃ run c rest, s = run ++ c :: rest ∧ (∀ d ∈ run, isSpecialByte d = false) ∧
        isSpecialByte c = true := by
  induction s with
  | nil => exact .inl (by simp)
  | cons d s ih =>
    by_cases hd : isSpecialByte d = true
    · exact .inr ⟨[], d, s, rfl, by simp, hd⟩
    · have hd' : isSpecialByte d = false := by simpa using hd
      rcases ih with hall | ⟨run, c, rest, rfl, hrun, hc⟩
      · exact .inl (forall_mem_cons.mpr ⟨hd', hall⟩)
      · exact .inr ⟨d :: run, c, rest, rfl, forall_mem_cons.mpr ⟨hd', hrun⟩, hc⟩

theorem skip_eq_self (h : ∀ c ∈ s, isSpecialByte c = false) :
    skipToNextSpecialByte s = s := by
  apply takeWhile_eq_self_iff.mpr
  intro c hc
  rw [h c hc]
  rfl

theorem skip_append (h : ∀ d ∈ run, isSpecialByte d = false) (hc : isSpecialByte c = true) :
    skipToNextSpecialByte (run ++ c :: rest) = run := by
  rw [skipToNextSpecialByte, takeWhile_append_of_pos (by simpa using h)]
  simp [hc]

theorem encodeStringFragment_plain
    (h : ∀ c ∈ s, isSpecialByte c = false) : encodeStringFragment dest s = dest ++ s := by
  rw [encodeStringFragment, skip_eq_self h]
  split
  · rfl
  · next c rest hd => simp at hd

theorem encodeStringFragment_special
    (h : ∀ d ∈ run, isSpecialByte d = false) (hc : isSpecialByte c = true) :
    encodeStringFragment dest (run ++ c :: rest) =
      encodeStringFragment (dest ++ run ++ escape c) rest := by
  rw [encodeStringFragment, skip_append h hc]
  split
  · next hd => simp at hd
  · next c' rest' hd =>
    obtain ⟨rfl, rfl⟩ : c = c' ∧ rest = rest' := by simpa using hd
    rcases (isSpecialByte_iff c).mp hc with rfl | rfl
    · rfl
    · rfl

theorem encodeStringFragment_eq (s : List UInt8) :
    ∀ dest, encodeStringFragment dest s = dest ++ s.flatMap escape := by
  induction hn : s.length using Nat.strong_induction_on generalizing s with
  | _ n ih =>
    intro dest
    rcases split_special s with hall | ⟨run, c, rest, rfl, hrun, hc⟩
    · rw [encodeStringFragment_plain hall, flatMap_escape_run hall]
    · have hlen : rest.length < n := by
        rw [← hn, length_append, length_cons]
        omega
      rw [encodeStringFragment_special hrun hc, ih _ hlen rest rfl, flatMap_append,
        flatMap_cons, flatMap_escape_run hrun]
      simp only [append_assoc]

theorem writeString_eq (dest s : List UInt8) :
    writeString dest s = dest ++ (s.flatMap escape ++ kEscape1Separator) := by
  rw [writeString, encodeStringFragment_eq, append_assoc]

theorem writeString_append (dest s : List UInt8) :
    writeString dest s = dest ++ writeString [] s := by
  rw [writeString_eq, writeString_eq, nil_append]

/-! ## Unsigned numbers -/

theorem shr8_toNat (v : UInt64) : (v >>> 8).toNat = v.toNat / 256 := by
  simp [shiftRight_eq_div_pow]

theorem and_ff_toUInt8 (v : UInt64) : (v &&& 0xff).toUInt8 = UInt8.ofNat v.toNat := by
  apply UInt8.toNat_inj.mp
  rw [UInt64.toNat_toUInt8, UInt64.toNat_and, UInt8.toNat_ofNat']
  have hmask : (0xff : UInt64).toNat = 2 ^ 8 - 1 := rfl
  rw [hmask, and_two_pow_sub_one_eq_mod]
  omega

/-- The loop leaves the shortest big-endian word of the value in the buffer. -/
theorem writeNumLoop_eq (val : UInt64) (buf : List UInt8) :
    ∃ n, writeNumLoop val buf = bigEndian n val.toNat ++ buf ∧ val.toNat < 256 ^ n ∧
      (n ≠ 0 → 256 ^ (n - 1) ≤ val.toNat) := by
  induction val, buf using writeNumLoop.induct with
  | case1 =>
    refine ⟨0, ?_, by decide, by simp⟩
    rw [writeNumLoop]
    rfl
  | case2 val buf hne ih =>
    obtain ⟨n, heq, hlt, hge⟩ := ih
    rw [shr8_toNat] at heq hlt hge
    have hpos : val.toNat ≠ 0 := fun e => hne (UInt64.toNat_inj.mp (by simpa using e))
    refine ⟨n + 1, ?_, ?_, ?_⟩
    · rw [writeNumLoop, dif_neg hne, heq, and_ff_toUInt8, bigEndian_append n 1 val.toNat,
        append_assoc]
      simp [bigEndian]
    · rw [Nat.pow_succ]
      omega
    · intro _
      rw [Nat.add_sub_cancel]
      by_cases hn : n = 0
      · subst hn
        omega
      · have hp : 256 ^ n = 256 ^ (n - 1) * 256 := by
          rw [← Nat.pow_succ, Nat.succ_eq_add_one, Nat.sub_add_cancel (by omega)]
        omega

theorem writeNumIncreasing_eq (dest : List UInt8) (val : UInt64) :
    ∃ n, writeNumIncreasing dest val = dest ++ UInt8.ofNat n :: bigEndian n val.toNat ∧
      n ≤ 8 ∧ val.toNat < 256 ^ n ∧ (n ≠ 0 → 256 ^ (n - 1) ≤ val.toNat) := by
  obtain ⟨n, heq, hlt, hge⟩ := writeNumLoop_eq val []
  rw [append_nil] at heq
  refine ⟨n, ?_, ?_, hlt, hge⟩
  · simp only [writeNumIncreasing, heq, length_bigEndian]
  · by_contra hn
    have hbig : 256 ^ 8 ≤ 256 ^ (n - 1) := Nat.pow_le_pow_right (by decide) (by omega)
    have := val.toNat_lt
    omega

/-! ## Signed numbers

A value `v` of length `n` is stored as the `n`-byte word of `signedWord n v`.  The
header flips the `n` leading bits of the sign-extended value, which adds
`2 ^ (8 * n) - 2 ^ (7 * n)` when they are clear and takes it away when they are
set. -/

/-- The bits that decide the length: `x` of the writer. -/
def magnitude (v : Int) : Nat := (if v < 0 then -v - 1 else v).toNat

def signedWord (n : Nat) (v : Int) : Nat :=
  if v < 0 then 2 ^ (7 * n) - 1 - magnitude v else 2 ^ (8 * n) - 2 ^ (7 * n) + magnitude v

theorem magnitude_lt (val : Int64) : magnitude val.toInt < 2 ^ 63 := by
  have hlo := val.le_toInt
  have hhi := val.toInt_lt
  unfold magnitude
  split <;> omega

theorem lt_zero_iff : val < 0 ↔ val.toInt < 0 := Int64.lt_iff_toInt_lt

theorem toUInt64_toNat (val : Int64) :
    (val.toUInt64.toNat : Int) =
      if val.toInt < 0 then val.toInt + 2 ^ 64 else val.toInt := by
  have hbits : val.toInt = val.toBitVec.toInt := rfl
  have hnat : val.toUInt64.toNat = val.toBitVec.toNat := rfl
  rw [hbits, hnat, BitVec.toInt_eq_toNat_cond]
  split <;> split <;> omega

theorem writer_x_toNat (val : Int64) :
    (if val < 0 then (~~~val).toUInt64 else val.toUInt64).toNat = magnitude val.toInt := by
  have hval := toUInt64_toNat val
  unfold magnitude
  by_cases h : val.toInt < 0
  · rw [if_pos (lt_zero_iff.mpr h), if_pos h, Int64.toUInt64_not, UInt64.toNat_not]
    have hsize : UInt64.size = 2 ^ 64 := rfl
    omega
  · rw [if_neg (mt lt_zero_iff.mp h), if_neg h]
    omega

theorem kBitsToLength_eq (hb : b < 64) : kBitsToLength.getD b 0 = b / 7 + 1 := by
  have h : ∀ i : Fin 64, kBitsToLength.getD i.val 0 = i.val / 7 + 1 := by decide
  exact h ⟨b, hb⟩

theorem signedEncodingLength_eq {x : UInt64} (hx : x.toNat ≠ 0) (hlt : x.toNat < 2 ^ 63) :
    signedEncodingLength x.toInt64 = (x.toNat.log2 + 1) / 7 + 1 := by
  have hback : x.toInt64.toUInt64 = x := rfl
  have hint := toUInt64_toNat x.toInt64
  rw [hback] at hint
  have hnn : ¬ x.toInt64.toInt < 0 := by
    intro h
    have := x.toInt64.le_toInt
    omega
  have hne : ¬ x = 0 := fun e => hx (by rw [e]; rfl)
  have hlog : x.toNat.log2 < 63 := (log2_lt hx).mpr hlt
  rw [signedEncodingLength, if_neg (mt lt_zero_iff.mp hnn), hback, log2Floor64, if_neg hne]
  exact kBitsToLength_eq (by omega)

/-- The chosen length is the least one whose payload holds the value. -/
theorem length_bounds (hm : m ≠ 0) (hn : n = (m.log2 + 1) / 7 + 1) :
    m < 2 ^ (7 * n - 1) ∧ (n ≠ 1 → 2 ^ (7 * (n - 1) - 1) ≤ m) := by
  have hlo : 2 ^ m.log2 ≤ m := Nat.log2_self_le hm
  have hhi : m < 2 ^ (m.log2 + 1) := Nat.lt_log2_self
  constructor
  · exact hhi.trans_le (Nat.pow_le_pow_right (by decide) (by omega))
  · intro _
    exact le_trans (Nat.pow_le_pow_right (by decide) (by omega)) hlo

variable {k : Nat} {v : Int}

theorem byte_of_shift (v : UInt64) (hk : k < 64) :
    (v >>> UInt64.ofNat k &&& 0xff).toUInt8 = UInt8.ofNat (v.toNat / 2 ^ k) := by
  rw [and_ff_toUInt8, UInt64.toNat_shiftRight, UInt64.toNat_ofNat', shiftRight_eq_div_pow]
  rw [mod_eq_of_lt (show k < 2 ^ 64 by omega), mod_eq_of_lt hk]

theorem storeBigEndian64_eq (v : UInt64) : storeBigEndian64 v = bigEndian 8 v.toNat := by
  have hmap : storeBigEndian64 v =
      (range 8).map fun i => UInt8.ofNat (v.toNat / 2 ^ (56 - 8 * i)) := by
    apply map_congr_left
    intro i _
    exact byte_of_shift v (by omega)
  rw [hmap]
  rfl

/-- The header bits of a length, placed where they stand in the word. -/
def headerMask (n : Nat) : Nat := (2 ^ n - 1) * 2 ^ (7 * n)

theorem zipWith_xor_zeros (bs : List UInt8) :
    List.zipWith (· ^^^ ·) bs (List.replicate bs.length 0) = bs := by
  induction bs with
  | nil => rfl
  | cons b bs ih =>
    rw [length_cons, replicate_succ, zipWith_cons_cons, ih]
    simp

theorem headerMask_word (hk : k ≤ 8) :
    bigEndian (k + 2) (headerMask (k + 2)) =
      (kLengthToHeaderBits.getD (k + 2) (0, 0)).1 ::
        (kLengthToHeaderBits.getD (k + 2) (0, 0)).2 :: List.replicate k 0 := by
  have h : ∀ i : Fin 9, bigEndian (i.val + 2) (headerMask (i.val + 2)) =
      (kLengthToHeaderBits.getD (i.val + 2) (0, 0)).1 ::
        (kLengthToHeaderBits.getD (i.val + 2) (0, 0)).2 :: replicate i.val 0 := by
    decide +kernel
  exact h ⟨k, by omega⟩

theorem xorHeader_bigEndian (hk : k ≤ 8) (x : Nat) :
    xorHeader (kLengthToHeaderBits.getD (k + 2) (0, 0)) (bigEndian (k + 2) x) =
      bigEndian (k + 2) (x ^^^ headerMask (k + 2)) := by
  have hzeros := zipWith_xor_zeros (bigEndian k x)
  rw [length_bigEndian] at hzeros
  rw [bigEndian_xor, headerMask_word hk, bigEndian_succ, bigEndian_succ, zipWith_cons_cons,
    zipWith_cons_cons, hzeros]
  rfl

theorem xor_headerMask (n x : Nat) :
    x ^^^ headerMask n = (x / 2 ^ (7 * n) ^^^ (2 ^ n - 1)) * 2 ^ (7 * n) + x % 2 ^ (7 * n) := by
  have hdiv : (x ^^^ headerMask n) / 2 ^ (7 * n) = x / 2 ^ (7 * n) ^^^ (2 ^ n - 1) := by
    rw [Nat.xor_div_two_pow, headerMask, Nat.mul_div_cancel _ (Nat.two_pow_pos _)]
  have hmod : (x ^^^ headerMask n) % 2 ^ (7 * n) = x % 2 ^ (7 * n) := by
    rw [Nat.xor_mod_two_pow, headerMask, Nat.mul_mod_left, Nat.xor_zero]
  rw [← hdiv, ← hmod, Nat.mul_comm, Nat.div_add_mod]

/-- The ten bytes of the writer's buffer as one number. -/
def signExtend (v : Int) : Nat :=
  if v < 0 then 2 ^ 80 - 1 - magnitude v else magnitude v

theorem pow_split (h : m + k = n) : b ^ n = b ^ m * b ^ k := by
  rw [← h, pow_add]

theorem two_pow_eight_mul (n : Nat) : (2 : Nat) ^ (8 * n) = 2 ^ n * 2 ^ (7 * n) :=
  pow_split (by omega)

theorem two_pow_pred {e : Nat} (he : 1 ≤ e) : (2 : Nat) ^ e = 2 * 2 ^ (e - 1) :=
  pow_split (m := 1) (by omega)

theorem pow_256 (n : Nat) : (256 : Nat) ^ n = 2 ^ (8 * n) := by rw [Nat.pow_mul]

theorem two_pow_seven_le (n : Nat) : (2 : Nat) ^ (7 * n) ≤ 2 ^ (8 * n) :=
  Nat.pow_le_pow_right (by decide) (by omega)

theorem signExtend_mod (h10 : n ≤ 10) (hv : magnitude v < 2 ^ (8 * n)) :
    signExtend v % 2 ^ (8 * n) =
      if v < 0 then 2 ^ (8 * n) - 1 - magnitude v else magnitude v := by
  have hsplit : (2 : Nat) ^ 80 = 2 ^ (8 * n) * 2 ^ (80 - 8 * n) := pow_split (by omega)
  unfold signExtend
  by_cases h : v < 0
  · rw [if_pos h, if_pos h]
    have hq : 2 ^ (8 * n) * (2 ^ (80 - 8 * n) - 1) = 2 ^ 80 - 2 ^ (8 * n) := by
      rw [Nat.mul_sub_one, ← hsplit]
    have hle : 2 ^ (8 * n) ≤ 2 ^ 80 := Nat.pow_le_pow_right (by decide) (by omega)
    rw [show 2 ^ 80 - 1 - magnitude v =
      2 ^ (8 * n) * (2 ^ (80 - 8 * n) - 1) + (2 ^ (8 * n) - 1 - magnitude v) by omega]
    rw [Nat.mul_add_mod, Nat.mod_eq_of_lt (by omega)]
  · rw [if_neg h, if_neg h, Nat.mod_eq_of_lt hv]

/-- The header turns the low bytes of the sign-extended value into the stored
word. -/
theorem signExtend_xor_header (h1 : 1 ≤ n) (h10 : n ≤ 10) (hv : magnitude v < 2 ^ (7 * n - 1)) :
    signExtend v % 256 ^ n ^^^ headerMask n = signedWord n v := by
  have hhalf := two_pow_pred (e := 7 * n) (by omega)
  have height := two_pow_eight_mul n
  have hbase := pow_256 n
  have hB : 0 < (2 : Nat) ^ (7 * n) := Nat.two_pow_pos _
  have hle := two_pow_seven_le n
  have htop : 2 ^ (7 * n) * (2 ^ n - 1) = 2 ^ (8 * n) - 2 ^ (7 * n) := by
    rw [Nat.mul_sub_one, Nat.mul_comm, ← height]
  rw [hbase, signExtend_mod h10 (by omega), xor_headerMask, signedWord]
  by_cases h : v < 0
  · -- The leading bits are all set, and the header clears them.
    rw [if_pos h, if_pos h, show 2 ^ (8 * n) - 1 - magnitude v =
      2 ^ (7 * n) * (2 ^ n - 1) + (2 ^ (7 * n) - 1 - magnitude v) by omega]
    rw [Nat.mul_add_div hB, Nat.div_eq_of_lt (show 2 ^ (7 * n) - 1 - magnitude v < _ by omega),
      Nat.mul_add_mod, Nat.mod_eq_of_lt (by omega), Nat.add_zero, Nat.xor_self, Nat.zero_mul,
      Nat.zero_add]
  · rw [if_neg h, if_neg h, Nat.div_eq_of_lt (by omega), Nat.mod_eq_of_lt (by omega),
      Nat.zero_xor, Nat.mul_comm, htop]

theorem signExtend_low (val : Int64) (hk : k ≤ 64) :
    signExtend val.toInt % 2 ^ k = val.toUInt64.toNat % 2 ^ k := by
  have hval := toUInt64_toNat val
  have hhi := val.toInt_lt
  have h64 : signExtend val.toInt % 2 ^ 64 = val.toUInt64.toNat := by
    unfold signExtend magnitude
    by_cases h : val.toInt < 0
    · simp only [h, if_true] at hval ⊢
      omega
    · simp only [h, if_false] at hval ⊢
      omega
  rw [← h64, mod_mod_of_dvd _ (pow_dvd_pow 2 hk)]

theorem buffer_eq (val : Int64) :
    (if val < 0 then 0xff else 0x00) :: (if val < 0 then 0xff else 0x00) ::
      storeBigEndian64 val.toUInt64 = bigEndian 10 (signExtend val.toInt) := by
  have hlo := val.le_toInt
  have hhi := val.toInt_lt
  have hhigh : signExtend val.toInt / 256 ^ 8 = if val < 0 then 0xffff else 0 := by
    unfold signExtend magnitude
    by_cases h : val.toInt < 0
    · simp only [h, if_true, lt_zero_iff.mpr h]
      omega
    · simp only [h, if_false, mt lt_zero_iff.mp h]
      omega
  rw [storeBigEndian64_eq, bigEndian_append 2 8, hhigh, ← bigEndian_mod 8 (signExtend _),
    ← bigEndian_mod 8 val.toUInt64.toNat, show 256 ^ 8 = 2 ^ 64 from rfl,
    signExtend_low val (le_refl 64)]
  split <;> rfl

theorem writeSigned_short (h : magnitude val.toInt < 64) :
    [(kLengthToHeaderBits.getD 1 (0, 0)).1 ^^^ val.toUInt64.toUInt8] =
      bigEndian 1 (signedWord 1 val.toInt) := by
  have hbyte : [val.toUInt64.toUInt8] = bigEndian 1 (signExtend val.toInt) := by
    rw [← bigEndian_mod, show 256 ^ 1 = 2 ^ 8 from rfl, signExtend_low val (by omega),
      ← UInt64.toNat_toUInt8, bigEndian_succ, Nat.pow_zero, Nat.div_one, UInt8.ofNat_toNat]
    rfl
  rw [← signExtend_xor_header (by omega) (by omega) h, bigEndian_xor, bigEndian_mod, ← hbyte,
    show bigEndian 1 (headerMask 1) = [(kLengthToHeaderBits.getD 1 (0, 0)).1] from rfl,
    UInt8.xor_comm]
  rfl

theorem writeSignedNumIncreasing_append (dest : List UInt8) (val : Int64) :
    writeSignedNumIncreasing dest val = dest ++ writeSignedNumIncreasing [] val := by
  by_cases h : (if val < 0 then (~~~val).toUInt64 else val.toUInt64) < 64
  · simp only [writeSignedNumIncreasing, h, if_true, nil_append]
  · simp only [writeSignedNumIncreasing, h, if_false, nil_append]

/-- The writer appends the word of the least length that holds the value. -/
theorem writeSignedNumIncreasing_eq (dest : List UInt8) (val : Int64) :
    ∃ n, writeSignedNumIncreasing dest val = dest ++ bigEndian n (signedWord n val.toInt) ∧
      1 ≤ n ∧ n ≤ 10 ∧ magnitude val.toInt < 2 ^ (7 * n - 1) ∧
        (n ≠ 1 → 2 ^ (7 * (n - 1) - 1) ≤ magnitude val.toInt) := by
  have hx := writer_x_toNat val
  have hm := magnitude_lt val
  by_cases h64 : magnitude val.toInt < 64
  · refine ⟨1, ?_, by omega, by omega, h64, by simp⟩
    have hlt : (if val < 0 then (~~~val).toUInt64 else val.toUInt64) < 64 := by
      rw [UInt64.lt_iff_toNat_lt, hx]
      exact h64
    simp only [writeSignedNumIncreasing, hlt, if_true, writeSigned_short h64]
  · have hne : magnitude val.toInt ≠ 0 := by omega
    have hnlt : ¬ (if val < 0 then (~~~val).toUInt64 else val.toUInt64) < 64 := by
      rw [UInt64.lt_iff_toNat_lt, hx]
      exact h64
    have hlen := signedEncodingLength_eq (by rw [hx]; exact hne) (by rw [hx]; exact hm)
    rw [hx] at hlen
    have h6 : 6 ≤ (magnitude val.toInt).log2 := by
      rw [le_log2 hne]
      omega
    have h63 : (magnitude val.toInt).log2 < 63 := (log2_lt hne).mpr hm
    obtain ⟨k, hk⟩ : ∃ k, ((magnitude val.toInt).log2 + 1) / 7 + 1 = k + 2 :=
      ⟨((magnitude val.toInt).log2 + 1) / 7 - 1, by omega⟩
    obtain ⟨hlt, hge⟩ := length_bounds hne hk.symm
    refine ⟨k + 2, ?_, by omega, by omega, hlt, hge⟩
    have hdrop : (bigEndian 10 (signExtend val.toInt)).drop (kMaxSigned64Length - (k + 2)) =
        bigEndian (k + 2) (signExtend val.toInt % 256 ^ (k + 2)) := by
      have happ := bigEndian_append (8 - k) (k + 2) (signExtend val.toInt)
      rw [show 8 - k + (k + 2) = 10 by omega] at happ
      rw [happ, bigEndian_mod]
      exact drop_left' (by rw [length_bigEndian]; unfold kMaxSigned64Length; omega)
    simp only [writeSignedNumIncreasing, hnlt, if_false, hlen, hk]
    rw [buffer_eq, hdrop, xorHeader_bigEndian (by omega),
      signExtend_xor_header (by omega) (by omega) hlt]

end TfReading.OrderedCode
