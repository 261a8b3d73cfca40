import Mathlib.Data.List.Infix
import Mathlib.Tactic.Ring

/-!
# The string buffers of `lite/string_util.cc`

A buffer holds the number of strings, the offset of each and of the end, and the characters.  A
join of no pieces has the length of minus one separator, so it takes back what was added before.
-/

namespace TfReading.Lite

open List

/-- `std::vector::resize`, which throws for a negative number taken as a `size_t`. -/
def resize (data : List UInt8) (size : Int) : Option (List UInt8) :=
  if 0 ≤ size then some (data.take size.toNat ++ replicate (size.toNat - data.length) 0) else none

def memcpy (data : List UInt8) (dst : Nat) (src : List UInt8) : List UInt8 :=
  data.take dst ++ src ++ data.drop (dst + src.length)

structure DynamicBuffer where
  data : List UInt8
  offset : List Int

inductive Call
  | addString (str : List UInt8)
  | addJoinedString (strings : List (List UInt8)) (separator : List UInt8)

/-- The string that a call is to add. -/
def Call.string : Call → List UInt8
  | addString str => str
  | addJoinedString strings separator => separator.intercalate strings

/-- A join has a piece or nothing to put between. -/
def Call.Spaced : Call → Prop
  | addString _ => True
  | addJoinedString strings separator => strings ≠ [] ∨ separator = []

/-- The four bytes of an `int32_t`. -/
def word (n : Int) : List UInt8 := [n, n / 2 ^ 8, n / 2 ^ 16, n / 2 ^ 24].map UInt8.ofInt

def readWord (buffer : List UInt8) : Int :=
  Int.bmod ((buffer.take 4).foldr (fun byte n => byte.toNat + 2 ^ 8 * n) 0) (2 ^ 32)

def getStringCount (buffer : List UInt8) : Int := readWord buffer

/-- The characters at the pointer and length that are returned, where the buffer has them. -/
def getString (buffer : List UInt8) (i : Nat) : Option (List UInt8) :=
  let offset := readWord (buffer.drop (4 * (i + 1)))
  let len := readWord (buffer.drop (4 * (i + 2))) - offset
  if 0 ≤ offset ∧ 0 ≤ len ∧ offset + len ≤ buffer.length then
    some ((buffer.drop offset.toNat).take len.toNat)
  else none

namespace DynamicBuffer

/-- Both ways to add resize by `len`, copy to the last offset and push the next one. -/
def add (b : DynamicBuffer) (len : Int) (src : List UInt8) : Option DynamicBuffer := do
  let data ← resize b.data (b.data.length + len)
  let last := b.offset.getLastD 0
  return ⟨memcpy data last.toNat src, b.offset ++ [last + len]⟩

def call (b : DynamicBuffer) : Call → Option DynamicBuffer
  | .addString str => b.add str.length str
  | .addJoinedString strings separator =>
    b.add ((strings.length - 1) * separator.length + (strings.map length).sum)
      (strings.mapIdx fun i str => if i ≠ 0 then separator ++ str else str).flatten

/-- The integers at the front of the written buffer. -/
def header (b : DynamicBuffer) : List Int :=
  let numStrings : Int := b.offset.length - 1
  numStrings :: b.offset.map (4 * (numStrings + 2) + ·)

def writeToBuffer (b : DynamicBuffer) : List UInt8 := b.header.flatMap word ++ b.data

def ofStrings (l : List (List UInt8)) : DynamicBuffer where
  data := l.flatten
  offset := l.inits.map fun l => l.flatten.length

end DynamicBuffer

open DynamicBuffer

variable {l : List (List UInt8)} {i : Nat} {n : Int} {words : List Int} {s : List UInt8}

theorem getLastD_offset : (ofStrings l).offset.getLastD 0 = l.flatten.length := by
  rw [ofStrings, getLastD_eq_getLast?, getLast?_eq_getElem?, length_map, length_inits]
  simp

theorem resize_add (data : List UInt8) (n : Nat) :
    resize data (data.length + n) = some (data ++ replicate n 0) := by
  have hsize : (data.length + n : Int).toNat = data.length + n := rfl
  rw [resize, if_pos (by omega), hsize, take_of_length_le (Nat.le_add_right _ _),
    Nat.add_sub_cancel_left]

theorem add_ofStrings (s : List UInt8) :
    (ofStrings l).add s.length s = some (ofStrings (l ++ [s])) := by
  simp only [add, resize_add, getLastD_offset, Int.toNat_natCast]
  show some (mk (memcpy (l.flatten ++ _) l.flatten.length s) _) = _
  simp [memcpy, ofStrings, inits_append]

theorem intercalate_cons_eq (sep s : List UInt8) :
    sep.intercalate (s :: l) = s ++ (l.map (sep ++ ·)).flatten := by
  induction l generalizing s with
  | nil => simp [intercalate]
  | cons t l ih =>
    have h := ih t
    simp only [intercalate, intersperse_cons_cons, flatten_cons] at h ⊢
    simp [h]

theorem length_separated (sep : List UInt8) :
    (l.map (sep ++ ·)).flatten.length = l.length * sep.length + (l.map length).sum := by
  induction l with
  | nil => simp
  | cons s l ih =>
    simp only [map_cons, flatten_cons, length_append, length_cons, sum_cons, ih]
    ring

theorem call_ofStrings {c : Call} (hc : c.Spaced) :
    (ofStrings l).call c = some (ofStrings (l ++ [c.string])) := by
  cases c with
  | addString s => exact add_ofStrings s
  | addJoinedString strings separator =>
    rw [Call.string, ← add_ofStrings, call]
    cases strings with
    | nil =>
      obtain rfl : separator = [] := hc.resolve_left (· rfl)
      rfl
    | cons s strings =>
      have hloop : strings.mapIdx (fun _ str => separator ++ str) = strings.map (separator ++ ·) :=
        ext_getElem (by simp) (by simp)
      rw [intercalate_cons_eq, length_append, length_separated]
      simp [hloop, add_left_comm]

theorem foldlM_call {calls : List Call} (hcalls : ∀ c ∈ calls, c.Spaced) :
    calls.foldlM call (ofStrings l) = some (ofStrings (l ++ calls.map Call.string)) := by
  induction calls generalizing l with
  | nil => simp
  | cons c calls ih =>
    obtain ⟨hc, hcalls⟩ := forall_mem_cons.1 hcalls
    rw [foldlM_cons, call_ofStrings hc, Option.bind_eq_bind, Option.bind_some, ih hcalls]
    simp

theorem readWord_word (hn : 0 ≤ n) (hlt : n < 2 ^ 31) (rest : List UInt8) :
    readWord (word n ++ rest) = n := by
  have htake : (word n ++ rest).take 4 = word n := rfl
  have hbyte (n : Int) : ((UInt8.ofInt n).toNat : Int) = n % 2 ^ 8 := by
    rw [UInt8.ofInt, UInt8.toNat_ofNat']
    omega
  rw [readWord, htake]
  simp only [word, map_cons, map_nil, foldr_cons, foldr_nil, hbyte]
  rw [Int.bmod_eq_of_le] <;> omega

theorem readWord_drop (hi : words[i]? = some n) (hn : 0 ≤ n)
    (hlt : n < 2 ^ 31) (rest : List UInt8) :
    readWord ((words.flatMap word ++ rest).drop (4 * i)) = n := by
  induction words generalizing i with
  | nil => cases hi
  | cons w words ih =>
    rw [flatMap_cons, append_assoc]
    cases i with
    | zero =>
      obtain rfl : w = n := Option.some.inj hi
      exact readWord_word hn hlt _
    | succ i => exact ih hi

theorem getString_words {before after : List UInt8}
    (hn : n = 4 * words.length + before.length) (hoffset : words[i + 1]? = some n)
    (hnext : words[i + 2]? = some (n + s.length)) (hsize : n + s.length < 2 ^ 31) :
    getString (words.flatMap word ++ (before ++ (s ++ after))) i = some s := by
  have hword (n : Int) : (word n).length = 4 := rfl
  have hwords : (words.flatMap word).length = words.length * 4 := by
    simp only [length_flatMap, hword, map_const', sum_replicate_nat]
  have hstart : n.toNat = (words.flatMap word).length + before.length := by omega
  rw [getString, readWord_drop hoffset (by omega) (by omega),
    readWord_drop hnext (by omega) hsize, add_sub_cancel_left,
    if_pos (by simp only [length_append]; omega), hstart, Int.toNat_natCast,
    drop_length_add_append, drop_left, take_left]

theorem getElem?_header (hi : i ≤ l.length) :
    (ofStrings l).header[i + 1]? =
      some (4 * (ofStrings l).header.length + (l.take i).flatten.length : Int) := by
  have hlt : i < l.inits.length := by rw [length_inits]; omega
  simp [header, ofStrings, getElem?_eq_getElem hlt]
  omega

theorem getString_ofStrings (hs : l[i]? = some s)
    (hsize : 4 * (l.length + 2) + (ofStrings l).data.length < 2 ^ 31) :
    getString (ofStrings l).writeToBuffer i = some s := by
  obtain ⟨hi, rfl⟩ := List.getElem?_eq_some_iff.1 hs
  have hdata : (ofStrings l).data = (l.take i).flatten ++ (l[i] ++ (l.drop (i + 1)).flatten) := by
    rw [ofStrings, ← flatten_cons, ← drop_eq_getElem_cons hi, ← flatten_append, take_append_drop]
  have hnext := getElem?_header hi
  rw [take_succ_eq_append_getElem hi, flatten_concat, length_append, Nat.cast_add, ← add_assoc]
    at hnext
  have hlength : (ofStrings l).header.length = l.length + 2 := by simp [header, ofStrings]
  rw [hdata, length_append, length_append] at hsize
  rw [writeToBuffer, hdata]
  exact getString_words rfl (getElem?_header hi.le) hnext (by omega)

/-- What was added is read back if every join without pieces has an empty separator. -/
theorem writeToBuffer_roundTrip {calls : List Call} (hcalls : ∀ c ∈ calls, c.Spaced)
    (hsize : 4 * (calls.length + 2) + (calls.map Call.string).flatten.length < 2 ^ 31) :
    ∃ b, calls.foldlM call ⟨[], [0]⟩ = some b ∧
      getStringCount b.writeToBuffer = calls.length ∧
      ∀ i s, (calls.map Call.string)[i]? = some s → getString b.writeToBuffer i = some s := by
  have hrun := foldlM_call (l := []) hcalls
  refine ⟨_, hrun, ?_, fun i s hs => getString_ofStrings hs (by simpa [ofStrings] using hsize)⟩
  have hcount : (ofStrings ([] ++ calls.map Call.string)).header[0]? = some (calls.length : Int) := by
    simp [header, ofStrings]
  exact readWord_drop hcount (by omega) (by omega) _

theorem writeToBuffer_roundTrip_pair :
    ([.addString [97], .addJoinedString [[98], [], [99]] [44]].foldlM call ⟨[], [0]⟩).bind
      (fun b => getString b.writeToBuffer 1) = some [98, 44, 44, 99] := by
  obtain ⟨b, hb, -, hread⟩ := @writeToBuffer_roundTrip
    [.addString [97], .addJoinedString [[98], [], [99]] [44]] (by simp [Call.Spaced]) (by decide)
  rw [hb]
  exact hread 1 _ rfl

/-- Joining nothing with a comma takes back the character before it. -/
theorem getString_lost :
    ([.addString [97], .addJoinedString [] [44]].foldlM call ⟨[], [0]⟩).map
      (fun b => getString b.writeToBuffer 0) = some none := by
  decide

end TfReading.Lite
