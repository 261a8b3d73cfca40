import Mathlib.Order.Nat

/-!
# A stream of bytes without a buffer

The contents and a position are all that there is to a reader.  As an `InputStreamInterface` it is
what lies under a buffer, and with lines and seeking it is what a buffer must not be told from.
-/

namespace TfReading.Streams

open List

inductive Status
  | ok
  | outOfRange
  | invalidArgument (message : String)
deriving DecidableEq

structure Reader where
  contents : List UInt8
  pos : Nat := 0

def newline : UInt8 := 10

def carriageReturn : UInt8 := 13

/-- A line without its carriage returns, its length with them, and whether a newline ends it. -/
def scanLine : List UInt8 → List UInt8 × Nat × Bool
  | [] => ([], 0, false)
  | c :: bytes =>
    if c = newline then ([], 1, true)
    else
      let (text, length, ended) := scanLine bytes
      (if c = carriageReturn then text else c :: text, 1 + length, ended)

namespace Reader

variable (r : Reader)

def rest : List UInt8 := r.contents.drop r.pos

def advance (n : Nat) : Reader := { r with pos := r.pos + n }

def readNBytes (n : Nat) : Status × List UInt8 × Reader :=
  (if n ≤ r.rest.length then .ok else .outOfRange, r.rest.take n, r.advance (min n r.rest.length))

/-- A position behind the end is one at the end. -/
def seek (position : Nat) : Status × Reader :=
  if position ≤ r.contents.length then (.ok, { r with pos := position })
  else (.outOfRange, { r with pos := r.contents.length })

def skipNBytes (n : Nat) : Status × Reader := r.seek (r.pos + n)

/-- At the end of the stream an empty line is no line.  A last line of carriage returns only is
`OutOfRange`, too, although its bytes are consumed. -/
def readLine : Status × List UInt8 × Reader :=
  let (text, length, ended) := scanLine r.rest
  (if ended ∨ text ≠ [] then .ok else .outOfRange, text, r.advance length)

def skipLine : Status × Reader :=
  (if r.rest = [] then .outOfRange else .ok, r.advance (scanLine r.rest).2.1)

variable {r} {k n : Nat}

theorem rest_advance : (r.advance k).rest = r.rest.drop k := by
  rw [rest, rest, drop_drop]
  rfl

theorem advance_advance : (r.advance k).advance n = r.advance (k + n) := by
  rw [advance, advance, advance, Nat.add_assoc]

end Reader

/-! ## Calls -/

inductive Call
  | readNBytes (n : Int)
  | skipNBytes (n : Int)
  | seek (position : Int)
  | tell
  | readLine
  | skipLine

/-- What a call returns. -/
abbrev Output := Status × List UInt8

/-- A number that may not be negative. -/
def checked (message : String) (n : Int) (r : Reader) (call : Nat → Output × Reader) :
    Output × Reader :=
  if n < 0 then ((.invalidArgument (message ++ toString n), []), r) else call n.toNat

namespace Reader

variable {r : Reader}

def call (r : Reader) : Call → Output × Reader
  | .readNBytes n => checked "Can't read a negative number of bytes: " n r fun n =>
    let (status, data, r) := r.readNBytes n
    ((status, data), r)
  | .skipNBytes n => checked "Can only skip forward, not " n r fun n =>
    let (status, r) := r.skipNBytes n
    ((status, []), r)
  | .seek position => checked "Seeking to a negative position: " position r fun position =>
    let (status, r) := r.seek position
    ((status, []), r)
  | .tell => ((.ok, []), r)
  | .readLine => let (status, line, r) := r.readLine; ((status, line), r)
  | .skipLine => let (status, r) := r.skipLine; ((status, []), r)

theorem seek_contents {position : Nat} : (r.seek position).2.contents = r.contents := by
  rw [seek]
  split <;> rfl

theorem checked_contents {message : String} {n : Int} {call : Nat → Output × Reader}
    (hcall : ∀ k, (call k).2.contents = r.contents) :
    (checked message n r call).2.contents = r.contents := by
  rw [checked]
  split
  · rfl
  · exact hcall _

theorem call_contents (c : Call) : (r.call c).2.contents = r.contents := by
  cases c with
  | readNBytes n => exact checked_contents fun _ => rfl
  | skipNBytes n => exact checked_contents fun _ => seek_contents
  | seek n => exact checked_contents fun _ => seek_contents
  | tell => rfl
  | readLine => rfl
  | skipLine => rfl

end Reader

variable {σ τ ι : Type} {call : σ → ι → Output × σ} {call' : τ → ι → Output × τ}

/-- The outputs of the calls, and the position after each of them. -/
def outputs (call : σ → ι → Output × σ) (tell : σ → Int) : σ → List ι → List (Output × Int)
  | _, [] => []
  | s, c :: calls => ((call s c).1, tell (call s c).2) :: outputs call tell (call s c).2 calls

theorem outputs_eq {R : σ → τ → Prop} {tell : σ → Int} {tell' : τ → Int}
    (hcall : ∀ s t c, R s t → (call s c).1 = (call' t c).1 ∧ R (call s c).2 (call' t c).2)
    (htell : ∀ s t, R s t → tell s = tell' t) {s : σ} {t : τ} (h : R s t) (calls : List ι) :
    outputs call tell s calls = outputs call' tell' t calls := by
  induction calls generalizing s t with
  | nil => rfl
  | cons c calls ih =>
    obtain ⟨hout, hnext⟩ := hcall s t c h
    rw [outputs, outputs, hout, htell _ _ hnext, ih hnext]

end TfReading.Streams
