import TfReading.Library.BigEndian

/-!
# The ordered code of `core/lib/strings/ordered_code.cc`

A C++ `string` is the list of its bytes.  The writers append to `dest`, and the
readers return the decoded value together with what is left of the source, or
`none` where the C++ returns false.  Pointers into a buffer become the split of
the list they mark.
-/

namespace TfReading.OrderedCode

def kEscape1 : UInt8 := 0x00

/-- Combined with `kEscape1`. -/
def kNullCharacter : UInt8 := 0xff

/-- Combined with `kEscape1`. -/
def kSeparator : UInt8 := 0x01

def kEscape2 : UInt8 := 0xff

/-- Combined with `kEscape2`. -/
def kFFCharacter : UInt8 := 0x00

def kEscape1Separator : List UInt8 := [kEscape1, kSeparator]

def isSpecialByte (c : UInt8) : Bool := c + 1 < 2

/-- The bytes from `start` up to the first special byte or the limit.  The
returned pointer of the C++ is the end of this run. -/
def skipToNextSpecialByte (range : List UInt8) : List UInt8 :=
  range.takeWhile (fun c => !isSpecialByte c)

/-- One round of the loop copies a run and escapes the special byte after it. -/
def encodeStringFragment (dest s : List UInt8) : List UInt8 :=
  let run := skipToNextSpecialByte s
  match _h : s.drop run.length with
  | [] => dest ++ run
  | c :: rest =>
    if c = kEscape1 then
      encodeStringFragment (dest ++ run ++ [kEscape1, kNullCharacter]) rest
    else
      encodeStringFragment (dest ++ run ++ [kEscape2, kFFCharacter]) rest
termination_by s.length
decreasing_by
  all_goals
    have hlen := congrArg List.length _h
    simp only [List.length_drop, List.length_cons] at hlen
    omega

def writeString (dest s : List UInt8) : List UInt8 :=
  encodeStringFragment dest s ++ kEscape1Separator

/-- The loop of `WriteNumIncreasing`.  `buf` holds `buf[9 - len ..]`. -/
def writeNumLoop (val : UInt64) (buf : List UInt8) : List UInt8 :=
  if _h : val = 0 then buf
  else writeNumLoop (val >>> 8) ((val &&& 0xff).toUInt8 :: buf)
termination_by val.toNat
decreasing_by
  have hne : val.toNat ≠ 0 := fun e => _h (UInt64.toNat_inj.mp (by simpa using e))
  rw [UInt64.toNat_shiftRight]
  simp only [UInt64.reduceToNat, Nat.reduceMod, Nat.shiftRight_eq_div_pow]
  omega

def writeNumIncreasing (dest : List UInt8) (val : UInt64) : List UInt8 :=
  let buf := writeNumLoop val []
  dest ++ UInt8.ofNat buf.length :: buf

/-- The scan stops one byte before the end of `src`, since a valid string ends
with the two bytes of `kEscape1Separator`. -/
def readStringInternal (src result : List UInt8) : Option (List UInt8 × List UInt8) :=
  let run := skipToNextSpecialByte src.dropLast
  match _h : src.drop run.length with
  | c :: next :: rest =>
    if c = kEscape1 then
      if next = kSeparator then some (result ++ run, rest)
      else if next = kNullCharacter then readStringInternal rest (result ++ run ++ [0x00])
      else none
    else
      if next = kFFCharacter then readStringInternal rest (result ++ run ++ [0xff])
      else none
  | _ => none
termination_by src.length
decreasing_by
  all_goals
    have hlen := congrArg List.length _h
    simp only [List.length_drop, List.length_cons] at hlen
    omega

def readString (src result : List UInt8) : Option (List UInt8 × List UInt8) :=
  readStringInternal src result

/-- The loop `x = (x << 8) | byte` over the bytes of a buffer. -/
def shiftIn (x : UInt64) (bs : List UInt8) : UInt64 :=
  bs.foldl (fun x b => x <<< 8 ||| b.toUInt64) x

def readNumIncreasing (src : List UInt8) : Option (UInt64 × List UInt8) :=
  match src with
  | [] => none
  | first :: payload =>
    let len := first.toNat
    if len + 1 > src.length ∨ len > 8 then none
    else some (shiftIn 0 (payload.take len), payload.drop len)

/-! ## Signed numbers -/

def kMaxSigned64Length : Nat := 10

/-- Encoding length to the header bits in the first two bytes. -/
def kLengthToHeaderBits : List (UInt8 × UInt8) :=
  [(0, 0), (0x80, 0), (0xc0, 0), (0xe0, 0), (0xf0, 0), (0xf8, 0), (0xfc, 0), (0xfe, 0),
    (0xff, 0), (0xff, 0x80), (0xff, 0xc0)]

/-- Encoding length to the header bits that overlap with the payload and need
fixing when reading. -/
def kLengthToMask : List UInt64 :=
  [0, 0x80, 0xc000, 0xe00000, 0xf0000000, 0xf800000000, 0xfc0000000000, 0xfe000000000000,
    0xff00000000000000, 0x8000000000000000, 0]

/-- Number of bits in a number to the length of its encoding. -/
def kBitsToLength : List Nat :=
  [1, 1, 1, 1, 1, 1, 1, 2, 2, 2, 2, 2, 2, 2, 3, 3, 3, 3, 3, 3, 3, 4,
    4, 4, 4, 4, 4, 4, 5, 5, 5, 5, 5, 5, 5, 6, 6, 6, 6, 6, 6, 6, 7, 7,
    7, 7, 7, 7, 7, 8, 8, 8, 8, 8, 8, 8, 9, 9, 9, 9, 9, 9, 9, 10]

/-- Floor of the binary logarithm, and `-1` at zero. -/
def log2Floor64 (n : UInt64) : Int :=
  if n = 0 then -1 else n.toNat.log2

def signedEncodingLength (n : Int64) : Nat :=
  kBitsToLength.getD (log2Floor64 (if n < 0 then (~~~n).toUInt64 else n.toUInt64) + 1).toNat 0

def storeBigEndian64 (v : UInt64) : List UInt8 :=
  (List.range 8).map fun i => (v >>> UInt64.ofNat (56 - 8 * i) &&& 0xff).toUInt8

def loadBigEndian64 (src : List UInt8) : UInt64 :=
  (List.range 8).foldl
    (fun result i => result ||| (src.getD i 0).toUInt64 <<< UInt64.ofNat (56 - 8 * i)) 0

/-- `begin[0] ^= header[0]` and `begin[1] ^= header[1]`. -/
def xorHeader (header : UInt8 × UInt8) : List UInt8 → List UInt8
  | b0 :: b1 :: rest => (b0 ^^^ header.1) :: (b1 ^^^ header.2) :: rest
  | bs => bs

def writeSignedNumIncreasing (dest : List UInt8) (val : Int64) : List UInt8 :=
  let x : UInt64 := if val < 0 then (~~~val).toUInt64 else val.toUInt64
  if x < 64 then
    -- The C++ exclusive-or is on a promoted integer, of which `+=` keeps one byte.
    dest ++ [(kLengthToHeaderBits.getD 1 (0, 0)).1 ^^^ val.toUInt64.toUInt8]
  else
    let signByte : UInt8 := if val < 0 then 0xff else 0x00
    let buf := signByte :: signByte :: storeBigEndian64 val.toUInt64
    let len := signedEncodingLength x.toInt64
    let begin := buf.drop (kMaxSigned64Length - len)
    dest ++ xorHeader (kLengthToHeaderBits.getD len (0, 0)) begin

/-- The length test of `ReadSignedNumIncreasing` and the raw value, headers
included. -/
def readSignedRaw (src : List UInt8) (b0 : UInt8) : Option (Nat × UInt64) :=
  let xorMask : UInt64 := if b0 &&& 0x80 = 0 then 0xffffffffffffffff else 0
  let flip : UInt8 := (xorMask &&& 0xff).toUInt8
  let firstByte := b0 ^^^ flip
  if firstByte ≠ 0xff then
    let len := (7 - log2Floor64 (firstByte ^^^ 0xff).toUInt64).toNat
    if src.length < len then none
    else some (len, shiftIn xorMask (src.take len))
  else if src.length < 8 then none
  else
    let secondByte := src.getD 1 0 ^^^ flip
    if secondByte ≥ 0x80 then
      if secondByte < 0xc0 then
        if src.length < 9 then none else some (9, loadBigEndian64 (src.drop 1))
      else
        let thirdByte := src.getD 2 0 ^^^ flip
        if secondByte = 0xc0 ∧ thirdByte < 0x80 then
          if src.length < 10 then none else some (10, loadBigEndian64 (src.drop 2))
        else none
    else some (8, loadBigEndian64 src)

def readSignedNumIncreasing (src : List UInt8) : Option (Int64 × List UInt8) :=
  match src with
  | [] => none
  | b0 :: _ =>
    match readSignedRaw src b0 with
    | none => none
    | some (len, x) => some ((x ^^^ kLengthToMask.getD len 0).toInt64, src.drop len)

end TfReading.OrderedCode
