import TfReading.Streams.Reader

/-!
# `core/lib/io/buffered_inputstream.cc`

A window of the underlying stream is held in the buffer.  The bytes behind the cursor are still to
be read, and the bytes before it can be read again.
-/

namespace TfReading.Streams

open List Reader

structure BufferedInputStream where
  inputStream : Reader
  size : Nat
  buf : List UInt8 := []
  pos : Nat := 0
  limit : Nat := 0
  fileStatus : Status := .ok

namespace BufferedInputStream

variable (s : BufferedInputStream)

def fillBuffer : Status × BufferedInputStream :=
  if s.fileStatus ≠ .ok then (s.fileStatus, { s with pos := 0, limit := 0 })
  else
    let (status, buf, inputStream) := s.inputStream.readNBytes s.size
    (status, { s with inputStream, buf, pos := 0, limit := buf.length, fileStatus := status })

/-- What each loop does first; `limit_` is zero afterwards if there is nothing left to read. -/
def refill (status : Status) : Status × BufferedInputStream :=
  if s.pos = s.limit then s.fillBuffer else (status, s)

def slice (start : Nat) : List UInt8 := (s.buf.drop start).take (s.pos - start)

def readLineLoop (includeEol : Bool) :
    Nat → Nat → List UInt8 → BufferedInputStream → Status × List UInt8 × BufferedInputStream
  | 0, _, result, s => (.ok, result, s)
  | turns + 1, startPos, result, s =>
    let (startPos, result) :=
      if s.pos = s.limit then (0, result ++ s.slice startPos) else (startPos, result)
    let (status, s) := s.refill .ok
    if s.limit = 0 then (if status = .outOfRange ∧ result ≠ [] then .ok else status, result, s)
    else
      let c := s.buf.getD s.pos 0
      let next := { s with pos := s.pos + 1 }
      if c = newline then
        (.ok, result ++ s.slice startPos ++ (if includeEol then [c] else []), next)
      else if c = carriageReturn then
        readLineLoop includeEol turns (s.pos + 1) (result ++ s.slice startPos) next
      else readLineLoop includeEol turns startPos result next

/-- A turn of a loop consumes a byte or is the last one. -/
def turns : Nat := s.inputStream.contents.length + 1

def readLine : Status × List UInt8 × BufferedInputStream := readLineLoop false s.turns s.pos [] s

def readLoop (n : Nat) :
    Nat → Status → List UInt8 → BufferedInputStream → Status × List UInt8 × BufferedInputStream
  | 0, status, result, s => (status, result, s)
  | turns + 1, status, result, s =>
    if result.length < n then
      let (status, s) := s.refill status
      if s.limit = 0 then (status, result, { s with fileStatus := status })
      else
        let bytesToCopy := min (s.limit - s.pos) (n - result.length)
        readLoop n turns status (result ++ (s.buf.drop s.pos).take bytesToCopy)
          { s with pos := s.pos + bytesToCopy }
    else (status, result, s)

def readNBytes (bytesToRead : Int) : Status × List UInt8 × BufferedInputStream :=
  if bytesToRead < 0 then
    (.invalidArgument ("Can't read a negative number of bytes: " ++ toString bytesToRead), [], s)
  else if s.pos = s.limit ∧ s.fileStatus ≠ .ok ∧ 0 < bytesToRead then (s.fileStatus, [], s)
  else
    let (status, result, s) := readLoop bytesToRead.toNat s.turns .ok [] s
    (if status = .outOfRange ∧ result.length = bytesToRead then .ok else status, result, s)

def skipNBytes (bytesToSkip : Int) : Status × BufferedInputStream :=
  if bytesToSkip < 0 then
    (.invalidArgument ("Can only skip forward, not " ++ toString bytesToSkip), s)
  else if s.pos + bytesToSkip < s.limit then (.ok, { s with pos := s.pos + bytesToSkip.toNat })
  else
    let (status, inputStream) := s.inputStream.skipNBytes (bytesToSkip - (s.limit - s.pos)).toNat
    (status, { s with
      inputStream
      pos := 0
      limit := 0
      fileStatus := if status = .outOfRange then status else s.fileStatus })

def tell : Int := s.inputStream.pos - (s.limit - s.pos)

def reset : BufferedInputStream :=
  { s with inputStream := { s.inputStream with pos := 0 }, pos := 0, limit := 0, fileStatus := .ok }

def seek (position : Int) : Status × BufferedInputStream :=
  if position < 0 then
    (.invalidArgument ("Seeking to a negative position: " ++ toString position), s)
  else if position < s.inputStream.pos - s.limit then s.reset.skipNBytes position
  else if position < s.tell then (.ok, { s with pos := s.pos - (s.tell - position).toNat })
  else s.skipNBytes (position - s.tell)

def skipLineLoop : Nat → Bool → BufferedInputStream → Status × BufferedInputStream
  | 0, _, s => (.ok, s)
  | turns + 1, skipped, s =>
    let (status, s) := s.refill .ok
    if s.limit = 0 then (if status = .outOfRange ∧ skipped then .ok else status, s)
    else
      let next := { s with pos := s.pos + 1 }
      if s.buf.getD s.pos 0 = newline then (.ok, next) else skipLineLoop turns true next

def skipLine : Status × BufferedInputStream := skipLineLoop s.turns false s

def readAllLoop :
    Nat → List UInt8 → BufferedInputStream → Status × List UInt8 × BufferedInputStream
  | 0, result, s => (.ok, result, s)
  | turns + 1, result, s =>
    let (status, s) := s.fillBuffer
    if s.limit = 0 then (status, result, s)
    else
      let s := { s with pos := s.limit }
      if status = .ok then readAllLoop turns (result ++ s.buf) s else (status, result ++ s.buf, s)

def readAll : Status × List UInt8 × BufferedInputStream :=
  let (status, result, s) := readAllLoop s.turns [] s
  if status = .outOfRange then (.ok, result, { s with fileStatus := status })
  else (status, result, s)

def call (s : BufferedInputStream) : Call → Output × BufferedInputStream
  | .readNBytes n => let (status, data, s) := s.readNBytes n; ((status, data), s)
  | .skipNBytes n => let (status, s) := s.skipNBytes n; ((status, []), s)
  | .seek position => let (status, s) := s.seek position; ((status, []), s)
  | .tell => ((.ok, []), s)
  | .readLine => let (status, line, s) := s.readLine; ((status, line), s)
  | .skipLine => let (status, s) := s.skipLine; ((status, []), s)

def after (s : BufferedInputStream) (c : Call) : BufferedInputStream := (s.call c).2

/-! ## The window -/

/-- No call can tell the stream from the reader. -/
structure Refines (s : BufferedInputStream) (r : Reader) : Prop where
  contents : s.inputStream.contents = r.contents
  size_pos : 1 ≤ s.size
  pos_le : s.pos ≤ s.limit
  limit_le : s.limit ≤ s.inputStream.pos
  tell_eq : s.inputStream.pos = r.pos + (s.limit - s.pos)
  le : s.inputStream.pos ≤ r.contents.length
  window : s.buf.take s.limit = (r.contents.drop (s.inputStream.pos - s.limit)).take s.limit
  eof : s.fileStatus ≠ .ok → s.fileStatus = .outOfRange ∧ s.inputStream.pos = r.contents.length

variable {s} {r : Reader} {c : UInt8} {bytes : List UInt8} {k n turns start : Nat}
  {status : Status}

namespace Refines

theorem bounds (h : Refines s r) : s.pos ≤ s.limit ∧ s.limit ≤ s.inputStream.pos ∧
    s.inputStream.pos = r.pos + (s.limit - s.pos) ∧ s.inputStream.pos ≤ r.contents.length ∧
    r.pos + r.rest.length = r.contents.length := by
  refine ⟨h.pos_le, h.limit_le, h.tell_eq, h.le, ?_⟩
  have htell := h.tell_eq
  have hle := h.le
  rw [rest, length_drop]
  omega

theorem tell (h : Refines s r) : s.tell = r.pos := by
  have hbounds := h.bounds
  rw [BufferedInputStream.tell]
  omega

/-- What is held is what comes next. -/
theorem take_eq (h : Refines s r) (hk : k ≤ s.limit - s.pos) :
    (s.buf.drop s.pos).take k = r.rest.take k := by
  have hwindow := congrArg (fun l => (l.drop s.pos).take k) h.window
  have hstart : s.inputStream.pos - s.limit + s.pos = r.pos := by
    have hbounds := h.bounds
    omega
  simp only [drop_take, drop_drop, take_take, Nat.min_eq_left hk, hstart] at hwindow
  exact hwindow

theorem advance (h : Refines s r) (hk : k ≤ s.limit - s.pos) :
    Refines { s with pos := s.pos + k } (r.advance k) := by
  have hbounds := h.bounds
  refine { h with pos_le := ?_, tell_eq := ?_ }
  · show s.pos + k ≤ s.limit
    omega
  · show s.inputStream.pos = r.pos + k + (s.limit - (s.pos + k))
    omega

end Refines

structure Filled (status : Status) (s : BufferedInputStream) (r : Reader) : Prop where
  refines : Refines s r
  reported : status = .ok ∨ status = .outOfRange
  ended : s.limit = 0 → r.rest = [] ∧ status = .outOfRange
  held : s.limit ≠ 0 → s.pos < s.limit

theorem Refines.fillBuffer (h : Refines s r) (hpos : s.pos = s.limit) :
    Filled s.fillBuffer.1 s.fillBuffer.2 r := by
  have hbounds := h.bounds
  rw [BufferedInputStream.fillBuffer]
  split
  next hstatus =>
    obtain ⟨hout, hend⟩ := h.eof hstatus
    have hrest : r.rest = [] := eq_nil_of_length_eq_zero (by omega)
    exact ⟨⟨h.contents, h.size_pos, le_rfl, Nat.zero_le _, by dsimp only; omega, h.le, rfl,
      h.eof⟩, .inr hout, fun _ => ⟨hrest, hout⟩, nofun⟩
  next hstatus =>
    have hrest : s.inputStream.rest = r.rest := by
      rw [Reader.rest, h.contents, hbounds.2.2.1, hpos, Nat.sub_self]
      rfl
    have hsize := h.size_pos
    simp only [Reader.readNBytes, hrest, length_take]
    refine ⟨⟨h.contents, hsize, Nat.zero_le _, ?_, ?_, ?_, ?_, ?_⟩, ?_, ?_, Nat.pos_of_ne_zero⟩
    · exact Nat.le_add_left _ _
    · show s.inputStream.pos + min s.size r.rest.length = r.pos + (min s.size r.rest.length - 0)
      omega
    · show s.inputStream.pos + min s.size r.rest.length ≤ r.contents.length
      omega
    · show take _ (take _ _) = take _ (drop (s.inputStream.pos + _ - _) _)
      rw [Nat.add_sub_cancel, take_take, Nat.min_eq_left (Nat.min_le_left _ _), ← hrest,
        ← h.contents]
      rfl
    · intro hne
      have hshort : ¬s.size ≤ r.rest.length := fun hle => hne (if_pos hle)
      refine ⟨if_neg hshort, ?_⟩
      show s.inputStream.pos + min s.size r.rest.length = r.contents.length
      omega
    · split
      · exact .inl rfl
      · exact .inr rfl
    · intro hzero
      dsimp only at hzero
      exact ⟨eq_nil_of_length_eq_zero (by omega), if_neg (by omega)⟩

theorem Refines.refill (h : Refines s r) (hstatus : status = .ok ∨ status = .outOfRange) :
    Filled (s.refill status).1 (s.refill status).2 r := by
  have hbounds := h.bounds
  rw [BufferedInputStream.refill]
  split
  next hpos => exact h.fillBuffer hpos
  next hpos =>
    refine ⟨h, hstatus, fun hlimit => ?_, fun _ => Nat.lt_of_le_of_ne h.pos_le hpos⟩
    dsimp only at hlimit
    omega

theorem Filled.next (h : Filled status s r) (hlimit : s.limit ≠ 0) :
    ∃ c bytes, r.rest = c :: bytes ∧ s.buf.getD s.pos 0 = c ∧ (s.buf.drop s.pos).take 1 = [c] ∧
      Refines { s with pos := s.pos + 1 } (r.advance 1) ∧ (r.advance 1).rest = bytes := by
  have hbounds := h.refines.bounds
  have hpos := h.held hlimit
  have htake := h.refines.take_eq (k := 1) (by omega)
  cases hrest : r.rest with
  | nil =>
    rw [hrest, length_nil] at hbounds
    omega
  | cons c bytes =>
    rw [hrest] at htake
    refine ⟨c, bytes, rfl, ?_, htake, h.refines.advance (by omega), ?_⟩
    · have hhead := congrArg head? htake
      rw [head?_take, if_neg (by decide), head?_drop] at hhead
      rw [getD_eq_getElem?_getD, hhead]
      rfl
    · rw [rest_advance, hrest]
      rfl

/-! ## The loops -/

theorem Refines.readLoop (h : Refines s r) (result : List UInt8)
    (hstatus : status = .ok ∨ status = .outOfRange) (hturns : r.rest.length < turns) :
    ∃ status' s', readLoop n turns status result s =
        (status', result ++ r.rest.take (n - result.length), s') ∧
      Refines s' (r.advance (min (n - result.length) r.rest.length)) ∧
      (status' = .ok ∧ n - result.length ≤ r.rest.length ∨ status' = .outOfRange) := by
  induction turns generalizing s r status result with
  | zero => cases hturns
  | succ turns ih =>
    rw [BufferedInputStream.readLoop]
    split
    next hlt =>
      have hfilled := h.refill hstatus
      generalize s.refill status = filled at hfilled
      obtain ⟨status, s⟩ := filled
      have href := hfilled.refines
      have hbounds := href.bounds
      dsimp only at *
      split
      next hlimit =>
        obtain ⟨hrest, hout⟩ := hfilled.ended hlimit
        have hat : s.inputStream.pos = r.contents.length := by
          rw [hrest, length_nil] at hbounds
          omega
        rw [hrest, take_nil, append_nil, length_nil, Nat.min_zero]
        exact ⟨status, _, rfl, { href with eof := fun _ => ⟨hout, hat⟩ }, .inr hout⟩
      next hlimit =>
        have hpos := hfilled.held hlimit
        generalize hk : min (s.limit - s.pos) (n - result.length) = k
        have hlen : (result ++ r.rest.take k).length = result.length + k := by
          rw [length_append, length_take_of_le (by omega)]
        have htake : r.rest.take k ++ (r.rest.drop k).take (n - (result.length + k)) =
            r.rest.take (n - result.length) := by
          rw [← take_add]
          congr 1
          omega
        rw [href.take_eq (by omega)]
        obtain ⟨status', s', heq, href', hst⟩ := ih (href.advance (k := k) (by omega))
          (result ++ r.rest.take k) hfilled.reported
          (by rw [rest_advance, length_drop]; omega)
        rw [rest_advance, hlen, append_assoc, htake] at heq
        rw [rest_advance, hlen, advance_advance, length_drop] at href'
        rw [rest_advance, hlen, length_drop] at hst
        refine ⟨status', s', heq, ?_, ?_⟩
        · convert href' using 2
          omega
        · exact hst.imp_left fun hst => ⟨hst.1, by omega⟩
    next hge =>
      have hn : n - result.length = 0 := by omega
      rw [hn, take_zero, append_nil, Nat.zero_min]
      exact ⟨status, s, rfl, h, hstatus.imp_left fun hst => ⟨hst, Nat.zero_le _⟩⟩

theorem slice_zero (h : s.pos ≤ start) : s.slice start = [] := by
  rw [slice, Nat.sub_eq_zero_of_le h, take_zero]

theorem slice_succ (hstart : start ≤ s.pos) (hnext : (s.buf.drop s.pos).take 1 = [c]) :
    ({ s with pos := s.pos + 1 } : BufferedInputStream).slice start = s.slice start ++ [c] := by
  show take (s.pos + 1 - start) (drop start s.buf) = _
  rw [Nat.sub_add_comm hstart, take_add, drop_drop, Nat.add_sub_cancel' hstart, hnext]
  rfl

/-- A refill moves what is held of the line into the result. -/
theorem slice_refill (result : List UInt8) (hstart : start ≤ s.pos) : ∃ start' result',
    (if s.pos = s.limit then (0, result ++ s.slice start) else (start, result)) =
      (start', result') ∧ start' ≤ (s.refill .ok).2.pos ∧
    result ++ s.slice start = result' ++ (s.refill .ok).2.slice start' := by
  rw [refill]
  split
  · have hpos : s.fillBuffer.2.pos = 0 := by
      rw [fillBuffer]
      split
      · rfl
      · rfl
    refine ⟨_, _, rfl, Nat.zero_le _, ?_⟩
    rw [slice_zero hpos.le, append_nil]
  · exact ⟨_, _, rfl, hstart, rfl⟩

theorem Refines.readLineLoop (h : Refines s r) (result : List UInt8) (hstart : start ≤ s.pos)
    (hturns : r.rest.length < turns) :
    let line := scanLine r.rest
    let text := result ++ s.slice start ++ line.1
    ∃ s', readLineLoop false turns start result s =
        (if line.2.2 ∨ text ≠ [] then .ok else .outOfRange, text, s') ∧
      Refines s' (r.advance line.2.1) := by
  induction turns generalizing s r start result with
  | zero => cases hturns
  | succ turns ih =>
    rw [BufferedInputStream.readLineLoop]
    have hfilled := h.refill (.inl rfl)
    obtain ⟨start, result, heq, hstart, htext⟩ := slice_refill result hstart
    rw [heq, htext]
    generalize s.refill .ok = filled at hfilled hstart
    obtain ⟨status, s⟩ := filled
    dsimp only at *
    split
    next hlimit =>
      obtain ⟨hrest, hout⟩ := hfilled.ended hlimit
      have hpos := hfilled.refines.pos_le
      rw [hrest, slice_zero (by omega), append_nil, hout]
      exact ⟨s, by simp [scanLine], hfilled.refines⟩
    next hlimit =>
      obtain ⟨c, bytes, hrest, hget, hone, hnext, hbytes⟩ := hfilled.next hlimit
      rw [hrest, length_cons] at hturns
      rw [hget, hrest, scanLine]
      split
      next hc => exact ⟨_, by simp, hnext⟩
      next hc =>
        dsimp only
        rw [← advance_advance, ← hbytes]
        split
        next hcr =>
          have hloop := ih hnext (result ++ s.slice start) le_rfl
            (by rw [hbytes]; omega)
          rw [slice_zero le_rfl, append_nil] at hloop
          exact hloop
        next hcr =>
          have hloop := ih hnext result (Nat.le_succ_of_le hstart)
            (by rw [hbytes]; omega)
          rw [slice_succ hstart hone, ← append_assoc, append_assoc _ [c]] at hloop
          exact hloop

theorem Refines.skipLineLoop (h : Refines s r) (skipped : Bool) (hturns : r.rest.length < turns) :
    ∃ s', skipLineLoop turns skipped s =
        (if r.rest = [] ∧ skipped = false then .outOfRange else .ok, s') ∧
      Refines s' (r.advance (scanLine r.rest).2.1) := by
  induction turns generalizing s r skipped with
  | zero => cases hturns
  | succ turns ih =>
    rw [BufferedInputStream.skipLineLoop]
    have hfilled := h.refill (.inl rfl)
    generalize s.refill .ok = filled at hfilled
    obtain ⟨status, s⟩ := filled
    dsimp only at *
    split
    next hlimit =>
      obtain ⟨hrest, hout⟩ := hfilled.ended hlimit
      rw [hrest, hout]
      refine ⟨s, ?_, hfilled.refines⟩
      cases skipped <;> rfl
    next hlimit =>
      obtain ⟨c, bytes, hrest, hget, _, hnext, hbytes⟩ := hfilled.next hlimit
      rw [hrest, length_cons] at hturns
      rw [hget, hrest, if_neg (c := _ ∧ _) (by simp), scanLine]
      split
      next hc => exact ⟨_, rfl, hnext⟩
      next hc =>
        have hloop := ih hnext true (by rw [hbytes]; omega)
        rw [if_neg (by simp), hbytes, advance_advance] at hloop
        exact hloop

/-! ## The calls -/

theorem Refines.reset (h : Refines s r) : Refines s.reset { r with pos := 0 } :=
  ⟨h.contents, h.size_pos, le_rfl, le_rfl, rfl, Nat.zero_le _, rfl, nofun⟩

theorem Refines.skipNBytes (h : Refines s r) (n : Nat) : (s.skipNBytes n).1 = (r.skipNBytes n).1 ∧
    Refines (s.skipNBytes n).2 (r.skipNBytes n).2 := by
  have hbounds := h.bounds
  rw [BufferedInputStream.skipNBytes, if_neg (by omega)]
  split
  next hlt =>
    rw [Reader.skipNBytes, Reader.seek, if_pos (by omega)]
    exact ⟨rfl, h.advance (by omega)⟩
  next hge =>
    have hskip : s.inputStream.pos + ((n : Int) - (s.limit - s.pos)).toNat = r.pos + n := by omega
    rw [Reader.skipNBytes, Reader.skipNBytes, hskip, Reader.seek, Reader.seek, h.contents]
    by_cases hin : r.pos + n ≤ r.contents.length
    · rw [if_pos hin]
      refine ⟨rfl, rfl, h.size_pos, le_rfl, Nat.zero_le _, rfl, hin, rfl, fun hne => ?_⟩
      have heof := h.eof hne
      exact ⟨heof.1, by dsimp only; omega⟩
    · rw [if_neg hin]
      exact ⟨rfl, rfl, h.size_pos, le_rfl, Nat.zero_le _, rfl, le_rfl, rfl,
        fun _ => ⟨rfl, rfl⟩⟩

theorem Refines.seek (h : Refines s r) (n : Nat) : (s.seek n).1 = (r.seek n).1 ∧
    Refines (s.seek n).2 (r.seek n).2 := by
  have hbounds := h.bounds
  rw [BufferedInputStream.seek, if_neg (by omega), h.tell]
  split
  next hlt =>
    have hskip := h.reset.skipNBytes n
    rw [Reader.skipNBytes, Nat.zero_add] at hskip
    exact hskip
  next hge =>
    split
    next hlt =>
      rw [Reader.seek, if_pos (by omega)]
      refine ⟨rfl, { h with pos_le := ?_, tell_eq := ?_ }⟩
      · show s.pos - ((r.pos : Int) - n).toNat ≤ s.limit
        omega
      · show s.inputStream.pos = n + (s.limit - (s.pos - ((r.pos : Int) - n).toNat))
        omega
    next hge =>
      have hskip := h.skipNBytes (n - r.pos)
      rw [Reader.skipNBytes, show r.pos + (n - r.pos) = n by omega,
        show ((n - r.pos : Nat) : Int) = n - r.pos by omega] at hskip
      exact hskip

theorem Refines.lt_turns (h : Refines s r) : r.rest.length < s.turns := by
  have hbounds := h.bounds
  rw [BufferedInputStream.turns, h.contents]
  omega

theorem Refines.readNBytes (h : Refines s r) (n : Nat) :
    ∃ s', s.readNBytes n = ((r.readNBytes n).1, (r.readNBytes n).2.1, s') ∧
      Refines s' (r.readNBytes n).2.2 := by
  have hbounds := h.bounds
  rw [BufferedInputStream.readNBytes, if_neg (by omega), Reader.readNBytes]
  split
  next hend =>
    obtain ⟨hout, hat⟩ := h.eof hend.2.1
    have hrest : r.rest = [] := eq_nil_of_length_eq_zero (by omega)
    rw [hrest, take_nil, length_nil, if_neg (by omega), hout, Nat.min_zero]
    exact ⟨s, rfl, h⟩
  next hmore =>
    obtain ⟨status, s', heq, href, hstatus⟩ := h.readLoop [] (.inl rfl) h.lt_turns
    rw [length_nil, Nat.sub_zero] at heq href hstatus
    rw [Int.toNat_natCast, heq]
    refine ⟨s', Prod.ext ?_ rfl, href⟩
    dsimp only
    rw [nil_append, length_take]
    obtain ⟨hok, hle⟩ | hout := hstatus
    · rw [hok, if_neg nofun, if_pos hle]
    · rw [hout]
      congr 1
      simp only [true_and, eq_iff_iff]
      omega

theorem Refines.checked (h : Refines s r) {message : String} {n : Int}
    {f : Output × BufferedInputStream} {g : Nat → Output × Reader}
    (hneg : n < 0 → f = ((.invalidArgument (message ++ toString n), []), s))
    (hcall : ∀ k : Nat, n = k → f.1 = (g k).1 ∧ Refines f.2 (g k).2) :
    f.1 = (checked message n r g).1 ∧ Refines f.2 (checked message n r g).2 := by
  rw [Streams.checked]
  split
  next hn =>
    rw [hneg hn]
    exact ⟨rfl, h⟩
  next hn => exact hcall n.toNat (by omega)

theorem Refines.call (h : Refines s r) (c : Call) :
    (s.call c).1 = (r.call c).1 ∧ Refines (s.call c).2 (r.call c).2 := by
  cases c with
  | readNBytes n =>
    refine h.checked (fun hn => ?_) fun k hk => ?_
    · rw [BufferedInputStream.call, BufferedInputStream.readNBytes, if_pos hn]
    · obtain ⟨s', heq, href⟩ := h.readNBytes k
      rw [BufferedInputStream.call, hk, heq]
      exact ⟨rfl, href⟩
  | skipNBytes n =>
    refine h.checked (fun hn => ?_) fun k hk => ?_
    · rw [BufferedInputStream.call, BufferedInputStream.skipNBytes, if_pos hn]
    · have hskip := h.skipNBytes k
      rw [hk]
      exact ⟨Prod.ext hskip.1 rfl, hskip.2⟩
  | seek position =>
    refine h.checked (fun hn => ?_) fun k hk => ?_
    · rw [BufferedInputStream.call, BufferedInputStream.seek, if_pos hn]
    · have hseek := h.seek k
      rw [hk]
      exact ⟨Prod.ext hseek.1 rfl, hseek.2⟩
  | tell => exact ⟨rfl, h⟩
  | readLine =>
    obtain ⟨s', heq, href⟩ := h.readLineLoop [] le_rfl h.lt_turns
    rw [slice_zero le_rfl] at heq
    rw [BufferedInputStream.call, readLine, heq]
    exact ⟨rfl, href⟩
  | skipLine =>
    obtain ⟨s', heq, href⟩ := h.skipLineLoop false h.lt_turns
    rw [BufferedInputStream.call, skipLine, heq]
    simp only [and_true]
    exact ⟨rfl, href⟩

theorem Refines.initial (contents : List UInt8) {size : Nat} (hsize : 1 ≤ size) :
    Refines { inputStream := { contents }, size } { contents } :=
  ⟨rfl, hsize, le_rfl, le_rfl, rfl, Nat.zero_le _, rfl, nofun⟩

/-- Whatever the size of the buffer, every sequence of calls is answered as without a buffer. -/
theorem outputs_buffered (contents : List UInt8) {size : Nat} (hsize : 1 ≤ size)
    (calls : List Call) :
    outputs call tell { inputStream := { contents }, size } calls =
      outputs Reader.call (fun r => r.pos) { contents } calls :=
  outputs_eq (R := Refines) (fun _ _ c h => h.call c) (fun _ _ h => h.tell)
    (.initial contents hsize) calls

theorem outputs_buffered_lines :
    outputs call tell { inputStream := { contents := [97, 13, 10, 98] }, size := 1 }
        [.readLine, .seek 1, .readNBytes 9] =
      outputs Reader.call (fun r => r.pos) { contents := [97, 13, 10, 98] }
        [.readLine, .seek 1, .readNBytes 9] :=
  outputs_buffered _ (by decide) _

/-! ## Reading all -/

theorem fillBuffer_held : s.fillBuffer.2.pos = 0 ∧ s.fillBuffer.1 = s.fillBuffer.2.fileStatus ∧
    (s.fillBuffer.2.limit ≠ 0 → s.fillBuffer.2.buf.length = s.fillBuffer.2.limit) := by
  rw [fillBuffer]
  split
  · exact ⟨rfl, rfl, nofun⟩
  · exact ⟨rfl, rfl, fun _ => rfl⟩

theorem Refines.readAllLoop (h : Refines s r) (hpos : s.pos = s.limit) (result : List UInt8)
    (hturns : r.rest.length < turns) :
    ∃ s', readAllLoop turns result s = (.outOfRange, result ++ r.rest, s') := by
  induction turns generalizing s r result with
  | zero => cases hturns
  | succ turns ih =>
    rw [BufferedInputStream.readAllLoop]
    have hfilled := h.fillBuffer hpos
    have hheld := fillBuffer_held (s := s)
    generalize s.fillBuffer = filled at hfilled hheld
    obtain ⟨status, s⟩ := filled
    obtain ⟨hzero, hfile, hlength⟩ := hheld
    have hbounds := hfilled.refines.bounds
    dsimp only at *
    split
    next hlimit =>
      obtain ⟨hrest, hout⟩ := hfilled.ended hlimit
      rw [hrest, append_nil, hout]
      exact ⟨s, rfl⟩
    next hlimit =>
      have hbuf : s.buf = r.rest.take s.limit := by
        have htake := hfilled.refines.take_eq (k := s.limit) (by omega)
        rw [hzero, drop_zero, take_of_length_le (hlength hlimit).le] at htake
        exact htake
      split
      next hok =>
        obtain ⟨s', heq⟩ := ih (hfilled.refines.advance (by omega))
          (show s.pos + s.limit = s.limit by omega) (result ++ s.buf)
          (by rw [rest_advance, length_drop]; omega)
        have hdrop : s.buf ++ r.rest.drop s.limit = r.rest := by rw [hbuf, take_append_drop]
        rw [rest_advance, append_assoc, hdrop, hzero, Nat.zero_add] at heq
        exact ⟨s', heq⟩
      next hne =>
        have hend := hfilled.refines.eof (hfile ▸ hne)
        rw [hbuf, take_of_length_le (by omega), hfile, hend.1]
        exact ⟨_, rfl⟩

theorem Refines.readAll (h : Refines s r) :
    ∃ s', s.readAll = (.ok, s.inputStream.rest, s') := by
  have hcursor := h.advance le_rfl
  have hrest : (r.advance (s.limit - s.pos)).rest = s.inputStream.rest := by
    rw [rest, rest, h.contents, h.tell_eq]
    rfl
  obtain ⟨s', heq⟩ := hcursor.readAllLoop (Nat.add_sub_cancel' h.pos_le) [] hcursor.lt_turns
  rw [hrest] at heq
  -- the loop starts with a refill, which does not look at the cursor
  have hloop : BufferedInputStream.readAllLoop s.turns [] s =
      (.outOfRange, s.inputStream.rest, s') := heq
  rw [BufferedInputStream.readAll, hloop]
  exact ⟨_, rfl⟩

/-- What is held and not read yet is dropped, so that nothing may be held. -/
theorem readAll_eq_rest_iff (contents : List UInt8) {size : Nat} (hsize : 1 ≤ size)
    (calls : List Call) :
    let s := calls.foldl after { inputStream := { contents }, size }
    (∃ s', s.readAll = (.ok, contents.drop s.tell.toNat, s')) ↔ s.pos = s.limit := by
  intro s
  obtain ⟨r, h, hcontents⟩ : ∃ r, Refines s r ∧ r.contents = contents := foldlRecOn calls
    after (motive := fun s => ∃ r, Refines s r ∧ r.contents = contents)
    ⟨_, .initial contents hsize, rfl⟩ fun _ ⟨_, h, hcontents⟩ c _ =>
      ⟨_, (h.call c).2, (Reader.call_contents c).trans hcontents⟩
  obtain ⟨s', heq⟩ := h.readAll
  have hbounds := h.bounds
  rw [heq, h.tell, Int.toNat_natCast]
  constructor
  · intro ⟨_, hall⟩
    have hlength := congrArg (fun output => output.2.1.length) hall
    simp only [Reader.rest, length_drop, h.contents, hcontents] at hlength hbounds
    omega
  · intro hpos
    refine ⟨s', ?_⟩
    rw [Reader.rest, h.contents, hcontents, hbounds.2.2.1, hpos, Nat.sub_self, Nat.add_zero]

theorem readAll_eq_rest_iff_two :
    let s := [Call.readNBytes 2].foldl after { inputStream := { contents := [1, 2] }, size := 4 }
    ∃ s', s.readAll = (.ok, drop s.tell.toNat [1, 2], s') :=
  (readAll_eq_rest_iff [1, 2] (by decide) [.readNBytes 2]).2 (by decide)

theorem readAll_drops_held :
    let s := [Call.readNBytes 1].foldl after { inputStream := { contents := [1, 2] }, size := 4 }
    s.tell = 1 ∧ s.readAll.1 = .ok ∧ s.readAll.2.1 = [] := by
  decide

end BufferedInputStream
end TfReading.Streams
