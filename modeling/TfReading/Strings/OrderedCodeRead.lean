import TfReading.Strings.OrderedCodeOrder
import Mathlib.Data.List.GetD

/-!
# Reading an encoding back

Every reader undoes its writer in front of any suffix.  For strings the converse
holds as well: what `ReadString` consumes is what `WriteString` would have
produced, since no other byte sequence is accepted.
-/

namespace TfReading.OrderedCode

open BigEndian List Nat UInt8

/-! ## Strings -/

theorem readStringInternal_special {run rest result : List UInt8} {c next : UInt8}
    (hrun : ∀ d ∈ run, isSpecialByte d = false) (hc : isSpecialByte c = true) :
    readStringInternal (run ++ c :: next :: rest) result =
      if c = kEscape1 then
        if next = kSeparator then some (result ++ run, rest)
        else if next = kNullCharacter then readStringInternal rest (result ++ run ++ [0x00])
        else none
      else
        if next = kFFCharacter then readStringInternal rest (result ++ run ++ [0xff])
        else none := by
  have hlast : (run ++ c :: next :: rest).dropLast = run ++ c :: (next :: rest).dropLast := by
    rw [dropLast_append_of_ne_nil (by simp), dropLast_cons_of_ne_nil (by simp)]
  rw [readStringInternal, hlast, skip_append hrun hc]
  split
  · next c' next' rest' h =>
    obtain ⟨rfl, rfl, rfl⟩ : c = c' ∧ next = next' ∧ rest = rest' := by simpa using h
    rfl
  · next h =>
    rw [drop_left] at h
    exact absurd rfl (h c next rest)

theorem readStringInternal_plain {src result : List UInt8}
    (h : ∀ c ∈ src.dropLast, isSpecialByte c = false) :
    readStringInternal src result = none := by
  rw [readStringInternal, skip_eq_self h]
  split
  · next c next rest hd =>
    have hlen := congrArg length hd
    simp only [length_drop, length_dropLast, length_cons] at hlen
    omega
  · rfl

theorem readStringInternal_flatMap (s suffix : List UInt8) :
    ∀ result, readStringInternal (s.flatMap escape ++ (kEscape1Separator ++ suffix)) result =
      some (result ++ s, suffix) := by
  induction hn : s.length using Nat.strong_induction_on generalizing s with
  | _ n ih =>
    intro result
    rcases split_special s with hall | ⟨run, c, rest, rfl, hrun, hc⟩
    · rw [flatMap_escape_run hall]
      exact readStringInternal_special hall (by decide)
    · have hlen : rest.length < n := by
        rw [← hn, length_append, length_cons]
        omega
      have hih := ih _ hlen rest rfl (result ++ run ++ [c])
      rw [flatMap_append, flatMap_cons, flatMap_escape_run hrun, append_assoc,
        append_assoc]
      rcases (isSpecialByte_iff c).mp hc with rfl | rfl
      · show readStringInternal (run ++ kEscape1 :: kNullCharacter :: _) result = _
        rw [readStringInternal_special hrun hc, if_pos rfl, if_neg (by decide), if_pos rfl]
        exact hih.trans (by simp)
      · show readStringInternal (run ++ kEscape2 :: kFFCharacter :: _) result = _
        rw [readStringInternal_special hrun hc, if_neg (by decide), if_pos rfl]
        exact hih.trans (by simp)

/-- Whatever the reader accepts is the escaped form of what it returns. -/
theorem readStringInternal_sound (src : List UInt8) :
    ∀ result v rest, readStringInternal src result = some (v, rest) →
      ∃ w, v = result ++ w ∧ src = w.flatMap escape ++ (kEscape1Separator ++ rest) := by
  induction hn : src.length using Nat.strong_induction_on generalizing src with
  | _ n ih =>
    intro result v rest h
    rcases split_special src.dropLast with hall | ⟨run, c, tail, htail, hrun, hc⟩
    · rw [readStringInternal_plain hall] at h
      cases h
    · obtain ⟨next, more, rfl⟩ : ∃ next more, src = run ++ c :: next :: more := by
        have hne : src ≠ [] := by
          rintro rfl
          simp at htail
        have hsrc := dropLast_concat_getLast hne
        rw [htail] at hsrc
        cases tail with
        | nil => exact ⟨src.getLast hne, [], hsrc.symm.trans (by simp)⟩
        | cons d tail => exact ⟨d, tail ++ [src.getLast hne], hsrc.symm.trans (by simp)⟩
      have hlen : more.length < n := by
        rw [← hn, length_append, length_cons, length_cons]
        omega
      -- The rest was read with one more letter, whose escape stands after `run`.
      have hletter : ∀ d, escape d = [c, next] →
          readStringInternal more (result ++ run ++ [d]) = some (v, rest) →
            ∃ w, v = result ++ w ∧
              run ++ c :: next :: more = w.flatMap escape ++ (kEscape1Separator ++ rest) := by
        intro d hd hread
        obtain ⟨w, rfl, hmore⟩ := ih _ hlen more rfl _ _ _ hread
        refine ⟨run ++ d :: w, by simp, ?_⟩
        rw [flatMap_append, flatMap_cons, flatMap_escape_run hrun, hd, hmore]
        simp
      rw [readStringInternal_special hrun hc] at h
      rcases (isSpecialByte_iff c).mp hc with rfl | rfl
      · rw [if_pos rfl] at h
        split at h
        next hsep =>
          obtain ⟨rfl, rfl⟩ : result ++ run = v ∧ more = rest := by simpa using h
          exact ⟨run, rfl, by rw [flatMap_escape_run hrun, hsep]; rfl⟩
        · split at h
          next hnull => exact hletter 0x00 (by rw [hnull]; rfl) h
          · cases h
      · rw [if_neg (by decide)] at h
        split at h
        next hff => exact hletter 0xff (by rw [hff]; rfl) h
        · cases h

/-! ## Unsigned numbers -/

theorem or_shift_toNat {a b k : Nat} (hb : b < 2 ^ k) : a * 2 ^ k ||| b = a * 2 ^ k + b := by
  rw [mul_comm, two_pow_add_eq_or_of_lt hb]

theorem shiftIn_toNat (x : UInt64) (bs : List UInt8) :
    (shiftIn x bs).toNat = load x.toNat bs % 2 ^ 64 := by
  induction bs generalizing x with
  | nil => exact (mod_eq_of_lt x.toNat_lt).symm
  | cons b bs ih =>
    have hstep : (x <<< 8 ||| b.toUInt64).toNat = (x.toNat * 256 + b.toNat) % 2 ^ 64 := by
      have hb := b.toNat_lt
      rw [UInt64.toNat_or, UInt64.toNat_shiftLeft, toNat_toUInt64]
      rw [show x.toNat <<< ((8 : UInt64).toNat % 64) % 2 ^ 64 = x.toNat % 2 ^ 56 * 2 ^ 8 by
        rw [show (8 : UInt64).toNat % 64 = 8 from rfl, shiftLeft_eq]
        omega]
      rw [or_shift_toNat hb]
      omega
    rw [load_cons, ← load_mod, ← hstep, ← ih]
    rfl

theorem readNumIncreasing_writeNumIncreasing (val : UInt64) (suffix : List UInt8) :
    readNumIncreasing (writeNumIncreasing [] val ++ suffix) = some (val, suffix) := by
  obtain ⟨n, hw, hn8, hlt, -⟩ := writeNumIncreasing_eq [] val
  rw [hw, nil_append, cons_append]
  have hlen : (ofNat n).toNat = n := by
    rw [toNat_ofNat', mod_eq_of_lt (by omega)]
  have htake : (bigEndian n val.toNat ++ suffix).take n = bigEndian n val.toNat :=
    take_left' (length_bigEndian _ _)
  have hdrop : (bigEndian n val.toNat ++ suffix).drop n = suffix :=
    drop_left' (length_bigEndian _ _)
  have hread : shiftIn 0 (bigEndian n val.toNat) = val := by
    apply UInt64.toNat_inj.mp
    rw [shiftIn_toNat, load_bigEndian, mod_eq_of_lt hlt]
    show (0 * 256 ^ n + val.toNat) % 2 ^ 64 = val.toNat
    have := val.toNat_lt
    omega
  simp only [readNumIncreasing, hlen, htake, hdrop, hread]
  rw [if_neg]
  simp only [length_cons, length_append, length_bigEndian]
  omega

/-! ## Signed numbers

The reader flips a negative encoding byte by byte.  What it then sees is the
encoding of the value of the same magnitude that is not negative. -/

def plainWord (n m : Nat) : Nat := 2 ^ (8 * n) - 2 ^ (7 * n) + m

variable {m n : Nat} {v : Int} {x : UInt64} {b : UInt8}

theorem signedWord_neg (h : v < 0) (hv : magnitude v < 2 ^ (7 * n)) :
    signedWord n v = 256 ^ n - (plainWord n (magnitude v) + 1) := by
  have hbase := pow_256 n
  have hle := two_pow_seven_le n
  rw [signedWord, if_pos h, plainWord, hbase]
  omega

theorem plainWord_lt (hm : m < 2 ^ (7 * n)) : plainWord n m < 256 ^ n := by
  have hbase := pow_256 n
  have hle := two_pow_seven_le n
  rw [plainWord, hbase]
  omega

/-- The bytes of a word, flipped when the value is negative, are those of the
plain word. -/
theorem flip_byte {k : Nat} (hk : k < n) (hv : magnitude v < 2 ^ (7 * n)) :
    UInt8.ofNat (signedWord n v / 256 ^ k) ^^^ (if v < 0 then 0xff else 0x00) =
      UInt8.ofNat (plainWord n (magnitude v) / 256 ^ k) := by
  by_cases h : v < 0
  · have hflip : ∀ b : Fin 256, (255 - b.val) ^^^ 255 = b.val := by decide +kernel
    have hsplit : (256 : Nat) ^ n = 256 ^ k * 256 ^ (n - k) := pow_split (by omega)
    have hdiv : (256 : Nat) ∣ 256 ^ (n - k) := dvd_pow_self 256 (by omega)
    have hlt := plainWord_lt hv
    rw [hsplit] at hlt
    have hq : plainWord n (magnitude v) / 256 ^ k < 256 ^ (n - k) := Nat.div_lt_of_lt_mul hlt
    apply UInt8.toNat_inj.mp
    rw [if_pos h, signedWord_neg h hv, hsplit, Nat.mul_sub_div _ _ _ hlt, UInt8.toNat_xor,
      UInt8.toNat_ofNat', UInt8.toNat_ofNat',
      show (256 ^ (n - k) - (plainWord n (magnitude v) / 256 ^ k + 1)) % 2 ^ 8 =
        255 - plainWord n (magnitude v) / 256 ^ k % 256 by omega]
    exact hflip ⟨_, Nat.mod_lt _ (by decide)⟩
  · rw [if_neg h, signedWord, if_neg h, plainWord, UInt8.xor_zero]

/-- The leading byte of a plain word of at most seven bytes spells its length. -/
theorem plainWord_first (h1 : 1 ≤ n) (h7 : n ≤ 7) (hm : m < 2 ^ (7 * n - 1)) :
    256 - 2 ^ (8 - n) ≤ plainWord n m / 256 ^ (n - 1) ∧
      plainWord n m / 256 ^ (n - 1) < 256 - 2 ^ (7 - n) := by
  have hbase : (256 : Nat) ^ (n - 1) = 2 ^ (8 * n - 8) := by rw [pow_256, Nat.mul_sub_one]
  have hpos : 0 < (2 : Nat) ^ (8 * n - 8) := Nat.two_pow_pos _
  have h8 : (2 : Nat) ^ (8 * n) = 256 * 2 ^ (8 * n - 8) := pow_split (m := 8) (by omega)
  have h7' : (2 : Nat) ^ (7 * n) = 2 ^ (8 - n) * 2 ^ (8 * n - 8) := pow_split (by omega)
  have h7'' : (2 : Nat) ^ (7 * n - 1) = 2 ^ (7 - n) * 2 ^ (8 * n - 8) := pow_split (by omega)
  have hhalf := two_pow_pred (e := 7 * n) (by omega)
  have hle := two_pow_seven_le n
  rw [plainWord, hbase]
  constructor
  · rw [Nat.le_div_iff_mul_le hpos, Nat.sub_mul, ← h8, ← h7']
    omega
  · rw [Nat.div_lt_iff_lt_mul hpos, Nat.sub_mul, ← h8, ← h7'']
    omega

theorem firstByte_length (h1 : 1 ≤ n) (h7 : n ≤ 7)
    (hlo : 256 - 2 ^ (8 - n) ≤ b.toNat) (hhi : b.toNat < 256 - 2 ^ (7 - n)) :
    b ≠ 0xff ∧ (7 - log2Floor64 (b ^^^ 0xff).toUInt64).toNat = n := by
  have h : ∀ b : UInt8, ∀ n : Fin 8, 1 ≤ n.val → 256 - 2 ^ (8 - n.val) ≤ b.toNat →
      b.toNat < 256 - 2 ^ (7 - n.val) →
        b ≠ 0xff ∧ (7 - log2Floor64 (b ^^^ 0xff).toUInt64).toNat = n.val :=
    forall_byte (by decide +kernel)
  exact h b ⟨n, by omega⟩ h1 hlo hhi

theorem and_0x80_eq_zero : ∀ b : UInt8, b &&& 0x80 = 0 ↔ b.toNat < 128 :=
  forall_byte (by decide +kernel)

/-- One round of `LoadBigEndian64`: the bytes read so far stand above bit
`k + 8`. -/
theorem loadBigEndian64_step {r : UInt64} {a k : Nat} (hk : k ≤ 56)
    (hr : r.toNat = a * 2 ^ (k + 8)) :
    (r ||| b.toUInt64 <<< UInt64.ofNat k).toNat = (a * 256 + b.toNat) * 2 ^ k := by
  have hb := b.toNat_lt
  have hpow : (2 : Nat) ^ (k + 8) = 256 * 2 ^ k := by rw [Nat.pow_add, Nat.mul_comm]
  have hfit : b.toNat * 2 ^ k < 2 ^ (k + 8) := by
    rw [hpow]
    exact Nat.mul_lt_mul_of_pos_right hb (Nat.two_pow_pos k)
  have htop : (2 : Nat) ^ (k + 8) ≤ 2 ^ 64 := Nat.pow_le_pow_right (by omega) (by omega)
  rw [UInt64.toNat_or, UInt64.toNat_shiftLeft, toNat_toUInt64, UInt64.toNat_ofNat',
    Nat.mod_eq_of_lt (show k < 2 ^ 64 by omega), Nat.mod_eq_of_lt (show k < 64 by omega),
    Nat.shiftLeft_eq, Nat.mod_eq_of_lt (by omega), hr, or_shift_toNat hfit, hpow, Nat.add_mul,
    Nat.mul_assoc]

theorem loadBigEndian64_loop {src : List UInt8} (hlen : 8 ≤ src.length) {j : Nat} (hj : j ≤ 8) :
    ((List.range j).foldl (fun result i =>
      result ||| (src.getD i 0).toUInt64 <<< UInt64.ofNat (56 - 8 * i)) 0).toNat =
        load 0 (src.take j) * 2 ^ (64 - 8 * j) := by
  induction j with
  | zero => exact (zero_mul _).symm
  | succ j ih =>
    have hstep := loadBigEndian64_step (b := src.getD j 0) (k := 56 - 8 * j) (by omega)
      (by rw [ih (by omega)]; congr 2; omega)
    have htake : load 0 (src.take (j + 1)) = load 0 (src.take j) * 256 + (src.getD j 0).toNat := by
      rw [take_succ_eq_append_getElem (by omega), load, foldl_append,
        getD_eq_getElem _ _ (by omega)]
      rfl
    rw [range_succ, foldl_append, foldl_cons, foldl_nil, hstep, htake]
    congr 2
    omega

theorem loadBigEndian64_eq (v : Nat) (suffix : List UInt8) :
    (loadBigEndian64 (bigEndian 8 v ++ suffix)).toNat = v % 2 ^ 64 := by
  have hlen : 8 ≤ (bigEndian 8 v ++ suffix).length := by
    rw [length_append, length_bigEndian]
    omega
  rw [loadBigEndian64, loadBigEndian64_loop hlen (le_refl 8),
    take_left' (length_bigEndian 8 v), load_bigEndian]
  omega

theorem add_xor_of_lt {a b c k : Nat} (hb : b < 2 ^ k) (hc : c < 2 ^ k) :
    (a * 2 ^ k + b) ^^^ c = a * 2 ^ k + (b ^^^ c) := by
  have hpos := Nat.two_pow_pos k
  have hdiv : ((a * 2 ^ k + b) ^^^ c) / 2 ^ k = a := by
    rw [Nat.xor_div_two_pow, Nat.div_eq_of_lt hc, Nat.xor_zero, Nat.mul_comm,
      Nat.mul_add_div hpos, Nat.div_eq_of_lt hb, Nat.add_zero]
  have hmod : ((a * 2 ^ k + b) ^^^ c) % 2 ^ k = b ^^^ c := by
    rw [Nat.xor_mod_two_pow, Nat.mod_eq_of_lt hc, Nat.mul_comm, Nat.mul_add_mod,
      Nat.mod_eq_of_lt hb]
  have hsplit := Nat.div_add_mod ((a * 2 ^ k + b) ^^^ c) (2 ^ k)
  rw [hdiv, hmod] at hsplit
  rw [← hsplit, Nat.mul_comm]

theorem kLengthToMask_eq (h10 : n ≤ 10) :
    (kLengthToMask.getD n 0).toNat = headerMask n % 2 ^ 64 := by
  have h : ∀ i : Fin 11, (kLengthToMask.getD i.val 0).toNat = headerMask i.val % 2 ^ 64 := by
    decide +kernel
  exact h ⟨n, by omega⟩

/-- Taking the header out of the raw value leaves the value read. -/
theorem remove_header {val : Int64} (h1 : 1 ≤ n) (h10 : n ≤ 10)
    (hv : magnitude val.toInt < 2 ^ (7 * n - 1))
    (hx : x.toNat = ((if val.toInt < 0 then 2 ^ 64 - 1 else 0) * 2 ^ (8 * n) +
      signedWord n val.toInt) % 2 ^ 64) :
    (x ^^^ kLengthToMask.getD n 0).toInt64 = val := by
  have hbase := pow_256 n
  have hhalf := two_pow_pred (e := 7 * n) (by omega)
  have hle := two_pow_seven_le n
  have hmask : headerMask n < 2 ^ (8 * n) := by
    rw [headerMask, Nat.sub_one_mul, ← two_pow_eight_mul]
    omega
  have hword : signedWord n val.toInt < 2 ^ (8 * n) := by
    have := (signedWord_bounds h1 hv).2.1
    omega
  -- The exclusive-or is an involution, so it gives back the sign extension.
  have hinv : signedWord n val.toInt ^^^ headerMask n = signExtend val.toInt % 2 ^ (8 * n) := by
    rw [← signExtend_xor_header h1 h10 hv, Nat.xor_assoc, Nat.xor_self, Nat.xor_zero, hbase]
  have hback : x ^^^ kLengthToMask.getD n 0 = val.toUInt64 := by
    apply UInt64.toNat_inj.mp
    rw [UInt64.toNat_xor, hx, kLengthToMask_eq h10, ← Nat.xor_mod_two_pow,
      add_xor_of_lt hword hmask, hinv, signExtend_mod h10 (by omega)]
    have hval := toUInt64_toNat val
    have hhi := val.toInt_lt
    by_cases h : val.toInt < 0
    · have hmag : (magnitude val.toInt : Int) = -val.toInt - 1 := by
        unfold magnitude
        omega
      rw [if_pos h, if_pos h]
      omega
    · have hmag : (magnitude val.toInt : Int) = val.toInt := by
        unfold magnitude
        omega
      rw [if_neg h, if_neg h]
      omega
  rw [hback]
  rfl

theorem plainWord_top (h1 : 1 ≤ n) (h10 : n ≤ 10) (hm : m < 2 ^ (7 * n - 1)) :
    128 ≤ (ofNat (plainWord n m / 256 ^ (n - 1))).toNat := by
  rw [toNat_ofNat']
  by_cases h7 : n ≤ 7
  · obtain ⟨hlo, hhi⟩ := plainWord_first h1 h7 hm
    have hpow : (2 : Nat) ^ (8 - n) ≤ 2 ^ 7 := Nat.pow_le_pow_right (by omega) (by omega)
    rw [Nat.mod_eq_of_lt (hhi.trans_le (Nat.sub_le _ _))]
    omega
  · unfold plainWord
    rcases (by omega : n = 8 ∨ n = 9 ∨ n = 10) with rfl | rfl | rfl <;> omega

theorem sign_bit (h1 : 1 ≤ n) (h10 : n ≤ 10) (hv : magnitude v < 2 ^ (7 * n - 1)) :
    UInt8.ofNat (signedWord n v / 256 ^ (n - 1)) &&& 0x80 = 0 ↔ v < 0 := by
  have hhalf := two_pow_pred (e := 7 * n) (by omega)
  have htop := plainWord_top h1 h10 hv
  have hflip := flip_byte (k := n - 1) (v := v) (n := n) (by omega) (by omega)
  have hxor : ∀ b : UInt8, 128 ≤ (b ^^^ 0xff).toNat → b.toNat < 128 := forall_byte (by decide +kernel)
  rw [and_0x80_eq_zero]
  by_cases h : v < 0
  · simp only [h, if_true, iff_true] at hflip ⊢
    rw [← hflip] at htop
    exact hxor _ htop
  · simp only [h, if_false, iff_false] at hflip ⊢
    rw [UInt8.xor_zero] at hflip
    rw [hflip]
    omega

/-- The reader finds the length of an encoding and its raw value. -/
theorem readSignedRaw_eq (h1 : 1 ≤ n) (h10 : n ≤ 10)
    (hv : magnitude v < 2 ^ (7 * n - 1)) (h63 : magnitude v < 2 ^ 63) (suffix : List UInt8) :
    ∃ x, readSignedRaw (bigEndian n (signedWord n v) ++ suffix)
        (UInt8.ofNat (signedWord n v / 256 ^ (n - 1))) = some (n, x) ∧
      x.toNat = ((if v < 0 then 2 ^ 64 - 1 else 0) * 2 ^ (8 * n) + signedWord n v) % 2 ^ 64 := by
  have hhalf := two_pow_pred (e := 7 * n) (by omega)
  have hsign := sign_bit h1 h10 hv
  let digit (n k : Nat) : UInt8 := UInt8.ofNat (plainWord n (magnitude v) / 256 ^ k)
  have hdigit : ∀ k, (digit n k).toNat = plainWord n (magnitude v) / 256 ^ k % 256 := fun k =>
    UInt8.toNat_ofNat'
  have hbyte : ∀ k, k < n → UInt8.ofNat (signedWord n v / 256 ^ k) ^^^
      (if v < 0 then 0xff else 0x00) = digit n k := fun k hk => flip_byte hk (by omega)
  have hflip : ((if v < 0 then 0xffffffffffffffff else 0 : UInt64) &&& 0xff).toUInt8 =
      if v < 0 then 0xff else 0x00 := by
    split <;> rfl
  have hlen : (bigEndian n (signedWord n v) ++ suffix).length = n + suffix.length := by
    rw [length_append, length_bigEndian]
  have hbase := pow_256 n
  have hword : signedWord n v < 2 ^ (8 * n) := by
    have := (signedWord_bounds h1 hv).2.1
    omega
  simp only [readSignedRaw, hsign, hflip, hbyte (n - 1) (by omega)]
  by_cases h7 : n ≤ 7
  · obtain ⟨hlo, hhi⟩ := plainWord_first h1 h7 hv
    rw [← mod_eq_of_lt (hhi.trans_le (sub_le _ _)), ← hdigit] at hlo hhi
    obtain ⟨hne, hn⟩ := firstByte_length h1 h7 hlo hhi
    rw [if_pos hne, hn, hlen, if_neg (by omega), take_left' (length_bigEndian _ _)]
    refine ⟨_, rfl, ?_⟩
    rw [shiftIn_toNat, load_bigEndian, hbase, mod_eq_of_lt hword]
    split <;> rfl
  · -- Eight bytes or more: the first is all ones and the second decides.
    have hload : ∀ k, (loadBigEndian64 ((bigEndian (k + 8) (signedWord (k + 8) v) ++ suffix).drop
        k)).toNat = signedWord (k + 8) v % 2 ^ 64 := by
      intro k
      rw [bigEndian_append, append_assoc, drop_left' (length_bigEndian _ _)]
      exact loadBigEndian64_eq _ suffix
    have hraw : ∀ {x : UInt64}, x.toNat = signedWord n v % 2 ^ 64 → x.toNat =
        ((if v < 0 then 2 ^ 64 - 1 else 0) * 2 ^ (8 * n) + signedWord n v) % 2 ^ 64 := by
      intro x hx
      have hdvd : (2 : Nat) ^ 64 ∣ 2 ^ (8 * n) := pow_dvd_pow 2 (by omega)
      rw [hx, add_mod, mod_eq_zero_of_dvd (Dvd.dvd.mul_left hdvd _), zero_add,
        mod_mod]
    have hlong : ¬ (bigEndian n (signedWord n v) ++ suffix).length < n := by omega
    unfold plainWord at hdigit
    have hn : n = 8 ∨ n = 9 ∨ n = 10 := by omega
    have hfirst : digit n (n - 1) = 0xff := by
      apply UInt8.toNat_inj.mp
      refine (hdigit (n - 1)).trans ?_
      show _ = 255
      rcases hn with rfl | rfl | rfl <;> omega
    have hsecond : (bigEndian n (signedWord n v) ++ suffix).getD 1 0 ^^^
        (if v < 0 then 0xff else 0x00) = digit n (n - 2) := by
      rcases hn with rfl | rfl | rfl
      exacts [hbyte 6 (by omega), hbyte 7 (by omega), hbyte 8 (by omega)]
    rw [if_neg (not_not.mpr hfirst), hsecond]
    rcases hn with rfl | rfl | rfl
    · have hlt : ¬ digit 8 6 ≥ 0x80 := by
        refine not_le.mpr ((hdigit 6).trans_lt ?_)
        show _ < 128
        omega
      rw [if_neg hlong, if_neg hlt]
      exact ⟨_, rfl, hraw (hload 0)⟩
    · have hge : digit 9 7 ≥ 0x80 := by
        rw [ge_iff_le, UInt8.le_iff_toNat_le]
        refine le_of_le_of_eq ?_ (hdigit 7).symm
        show 128 ≤ _
        omega
      have hlt : digit 9 7 < 0xc0 := by
        refine (hdigit 7).trans_lt ?_
        show _ < 192
        omega
      rw [if_neg (by omega), if_pos hge, if_pos hlt, if_neg hlong]
      exact ⟨_, rfl, hraw (hload 1)⟩
    · have hc0 : digit 10 8 = 0xc0 := by
        apply UInt8.toNat_inj.mp
        exact (hdigit 8).trans (by show _ = 192; omega)
      have hthird : (bigEndian 10 (signedWord 10 v) ++ suffix).getD 2 0 ^^^
          (if v < 0 then 0xff else 0x00) = digit 10 7 := hbyte 7 (by omega)
      have hlt : digit 10 7 < 0x80 := by
        refine (hdigit 7).trans_lt ?_
        show _ < 128
        omega
      rw [if_neg (by omega), hc0, if_pos (by decide), if_neg (by decide), hthird,
        if_pos ⟨rfl, hlt⟩, if_neg hlong]
      exact ⟨_, rfl, hraw (hload 2)⟩

theorem readSignedNumIncreasing_of_raw {src t : List UInt8} {b0 : UInt8} {len : Nat}
    (hread : readSignedRaw src b0 = some (len, x)) (hsrc : src = b0 :: t) :
    readSignedNumIncreasing src = some ((x ^^^ kLengthToMask.getD len 0).toInt64, src.drop len) := by
  subst hsrc
  rw [readSignedNumIncreasing, hread]

theorem readSignedNumIncreasing_writeSignedNumIncreasing (val : Int64) (suffix : List UInt8) :
    readSignedNumIncreasing (writeSignedNumIncreasing [] val ++ suffix) = some (val, suffix) := by
  obtain ⟨n, hw, h1, h10, hv, -⟩ := writeSignedNumIncreasing_eq [] val
  obtain ⟨x, hread, hx⟩ := readSignedRaw_eq h1 h10 hv (magnitude_lt val) suffix
  have hvalue := remove_header h1 h10 hv hx
  obtain ⟨k, rfl⟩ : ∃ k, n = k + 1 := ⟨n - 1, by omega⟩
  rw [hw, nil_append]
  rw [Nat.add_sub_cancel] at hread
  rw [readSignedNumIncreasing_of_raw hread rfl, hvalue, drop_left' (length_bigEndian _ _)]

/-- Each reader undoes its writer in front of any suffix, and `ReadString` accepts
nothing but what `WriteString` produces. -/
theorem ordered_code_round_trip :
    (∀ s suffix, readString (writeString [] s ++ suffix) [] = some (s, suffix)) ∧
    (∀ val suffix, readNumIncreasing (writeNumIncreasing [] val ++ suffix) = some (val, suffix)) ∧
    (∀ val suffix, readSignedNumIncreasing (writeSignedNumIncreasing [] val ++ suffix) =
      some (val, suffix)) ∧
    (∀ src v rest, readString src [] = some (v, rest) →
      ∃ p, src = p ++ rest ∧ writeString [] v = p) := by
  refine ⟨fun s suffix => ?_, readNumIncreasing_writeNumIncreasing,
    readSignedNumIncreasing_writeSignedNumIncreasing, fun src v rest h => ?_⟩
  · rw [writeString_eq, nil_append, append_assoc]
    exact readStringInternal_flatMap s suffix []
  · obtain ⟨w, hw, hsrc⟩ := readStringInternal_sound src [] v rest h
    obtain rfl : v = w := hw
    refine ⟨writeString [] v, ?_, rfl⟩
    rw [writeString_eq, nil_append, append_assoc, hsrc]

end TfReading.OrderedCode
