import TfReading.Table.Block
import TfReading.Library.Outcome

/-!
# Decoding arbitrary blocks

`DecodeEntry` compares the room that is left with the sum of two lengths, and the sum
is taken in 32 bits.  `Overflows` says that the lengths at a position do not fit although
their wrapped sum does.  A block none of whose entries overflows is read inside its bounds
by every sequence of calls.
-/

namespace TfReading.Table

open Outcome

/-- The lengths at `p` reach past `limit`, and their sum wraps to one that does not. -/
def Overflows (data : List UInt8) (p limit : Nat) : Prop :=
  p + 3 ≤ limit ∧ ∃ e, decodeLengths data p limit = .ok (some e) ∧
    2 ^ 32 ≤ e.nonShared + e.valueLength ∧ limit < e.stop ∧
    (e.nonShared + e.valueLength) % 2 ^ 32 ≤ (limit - e.delta) % 2 ^ 32

section Reads

variable {data : List UInt8} {p limit : Nat} {allowed : Fault → Prop}

theorem byteAt_sat (h : p < data.length) : Sat allowed (fun b => b < 2 ^ 8) (byteAt data p) := by
  unfold byteAt
  rw [List.getElem?_eq_getElem h]
  exact UInt8.toNat_lt _

variable {n : Nat}

theorem slice_eq (h : p + n ≤ data.length) :
    slice data p n = .ok ((data.drop p).take n) := if_pos h

theorem decodeFixed32_sat (h : p + 4 ≤ data.length) :
    Sat (fun _ => False) (fun v => v < 2 ^ 32) (decodeFixed32 data p) := by
  apply (byteAt_sat (by omega)).bind
  intro b0 h0
  apply (byteAt_sat (by omega)).bind
  intro b1 h1
  apply (byteAt_sat (by omega)).bind
  intro b2 h2
  apply (byteAt_sat (by omega)).bind
  intro b3 h3
  show b0 + b1 * 2 ^ 8 + b2 * 2 ^ 16 + b3 * 2 ^ 24 < 2 ^ 32
  omega

theorem getVarintLoop_sat (h : limit ≤ data.length) (width rounds shift result : Nat) :
    Sat allowed (fun r => ∀ x ∈ r, p < x.1 ∧ x.1 ≤ limit)
      (getVarintLoop width data limit rounds shift p result) := by
  induction rounds generalizing shift p result with
  | zero => exact nofun
  | succ rounds ih =>
    unfold getVarintLoop
    split
    next hp =>
      apply (byteAt_sat (by omega)).bind
      intro byte _
      split
      · refine (ih (shift + 7) _).imp (fun _ he => he) fun r hr x hx => ?_
        have := hr x hx
        omega
      · intro x hx
        cases hx
        exact ⟨Nat.lt_succ_self p, hp⟩
    · exact nofun

theorem getVarint32Ptr_sat (h : limit ≤ data.length) :
    Sat allowed (fun r => ∀ x ∈ r, p < x.1 ∧ x.1 ≤ limit) (getVarint32Ptr data p limit) := by
  unfold getVarint32Ptr
  split
  next hp =>
    apply (byteAt_sat (by omega)).bind
    intro byte _
    split
    · intro x hx
      cases hx
      exact ⟨Nat.lt_succ_self p, hp⟩
    · exact getVarintLoop_sat h 32 5 0 0
  · exact getVarintLoop_sat h 32 5 0 0

theorem decodeLengths_sat (h : limit ≤ data.length) (hroom : p + 3 ≤ limit) :
    Sat allowed (fun r => ∀ e ∈ r, p + 3 ≤ e.delta ∧ e.delta ≤ limit)
      (decodeLengths data p limit) := by
  apply (byteAt_sat (by omega)).bind
  intro shared _
  apply (byteAt_sat (by omega)).bind
  intro nonShared _
  apply (byteAt_sat (by omega)).bind
  intro valueLength _
  split
  · intro e he
    cases he
    exact ⟨Nat.le_refl _, hroom⟩
  · apply (getVarint32Ptr_sat h).bind
    intro r1 h1
    cases r1 with
    | none => exact nofun
    | some x1 =>
      have h1 := h1 x1 rfl
      apply (getVarint32Ptr_sat h).bind
      intro r2 h2
      cases r2 with
      | none => exact nofun
      | some x2 =>
        have h2 := h2 x2 rfl
        apply (getVarint32Ptr_sat h).bind
        intro r3 h3
        cases r3 with
        | none => exact nofun
        | some x3 =>
          have h3 := h3 x3 rfl
          intro e he
          cases he
          show p + 3 ≤ x3.1 ∧ x3.1 ≤ limit
          omega

/-- What a returned pointer says about the entry behind it. -/
structure Decoded (data : List UInt8) (p limit : Nat) (e : Entry) : Prop where
  room : p + 3 ≤ limit
  lengths : decodeLengths data p limit = .ok (some e)
  delta : p + 3 ≤ e.delta ∧ e.delta ≤ limit
  sum : (e.nonShared + e.valueLength) % 2 ^ 32 ≤ (limit - e.delta) % 2 ^ 32

theorem decodeEntry_sat (h : limit ≤ data.length) :
    Sat allowed (fun r => ∀ e ∈ r, Decoded data p limit e) (decodeEntry data p limit) := by
  unfold decodeEntry
  split
  · exact nofun
  next hroom =>
    have hroom : p + 3 ≤ limit := Nat.le_of_not_lt hroom
    apply (decodeLengths_sat h hroom).eq_ok.bind
    intro r hr
    cases r with
    | none => exact nofun
    | some e =>
      show Sat allowed _ (if _ then _ else _)
      split
      · exact nofun
      next hsum =>
        intro e' he'
        cases he'
        exact ⟨hroom, hr.1, hr.2 e rfl, Nat.le_of_not_lt hsum⟩

variable {e : Entry}

theorem Decoded.stop_le (h : Decoded data p limit e) (hover : ¬Overflows data p limit) :
    e.stop ≤ limit := by
  apply Nat.le_of_not_lt
  intro hlt
  apply hover
  refine ⟨h.room, e, h.lengths, Nat.le_of_not_lt fun hsmall => ?_, hlt, h.sum⟩
  -- A sum below `2 ^ 32` is not changed, and the room is not below its own residue.
  have hsum := h.sum
  have hdelta := h.delta.2
  simp only [Entry.stop] at hlt
  omega

/-- A returned pointer is followed by its key delta and value inside the limit exactly if the
lengths do not overflow. -/
theorem decodeEntry_inside_iff (h : limit ≤ data.length) :
    (∀ e, decodeEntry data p limit = .ok (some e) → e.stop ≤ limit) ↔ ¬Overflows data p limit := by
  constructor
  · intro hinside hover
    obtain ⟨hroom, e, hl, -, hstop, hsum⟩ := hover
    have hdecode : decodeEntry data p limit = .ok (some e) := by
      unfold decodeEntry
      rw [if_neg (Nat.not_lt_of_le hroom), hl]
      exact if_neg (Nat.not_lt_of_le hsum)
    have := hinside e hdecode
    omega
  · intro hover e hdecode
    have hsat : Sat (fun _ => False) _ (decodeEntry data p limit) := decodeEntry_sat h
    exact (hsat.of_ok hdecode e rfl).stop_le hover

end Reads

/-- The positions that restart points and the ends of entries lead to. -/
inductive EntryAt (data : List UInt8) (restarts numRestarts : Nat) : Nat → Prop
  | restart {i p : Nat} (hi : i < numRestarts) (hp : decodeFixed32 data (restarts + i * 4) = .ok p) :
      EntryAt data restarts numRestarts p
  | next {p : Nat} {e : Entry} (h : EntryAt data restarts numRestarts p) (hroom : p + 3 ≤ restarts)
      (he : decodeLengths data p restarts = .ok (some e)) (hstop : e.stop ≤ restarts) :
      EntryAt data restarts numRestarts e.stop

/-- A block with its restart array, as the constructor accepts it. -/
structure Layout where
  data : List UInt8
  restarts : Nat
  numRestarts : Nat
  restarts_lt : restarts < 2 ^ 32
  numRestarts_pos : 0 < numRestarts
  numRestarts_lt : numRestarts < 2 ^ 32
  room : restarts + numRestarts * 4 ≤ data.length

namespace Layout

variable (L : Layout)

abbrev EntryAt : Nat → Prop := Table.EntryAt L.data L.restarts L.numRestarts

/-- No entry of the block overflows. -/
def Unwrapped : Prop := ∀ p, L.EntryAt p → ¬Overflows L.data p L.restarts

/-- The iterator is one over this block, and all it has decoded lies before the restart array. -/
structure On (it : Iter) : Prop where
  data : it.data = L.data
  restarts : it.restarts = L.restarts
  numRestarts : it.numRestarts = L.numRestarts
  ends : ∀ stop ∈ it.ends, stop ≤ L.restarts

/-- The value ends where the next entry is to be decoded. -/
structure Placed (it : Iter) : Prop extends L.On it where
  entryAt : L.EntryAt (it.value.start + it.value.size)

/-- What holds between calls. -/
structure Inside (it : Iter) : Prop extends L.On it where
  placed : it.valid = true → L.EntryAt (it.value.start + it.value.size)
  value : it.valid = true → it.value.start + it.value.size ≤ L.restarts

variable {L} {it : Iter}

theorem restarts_le : L.restarts ≤ L.data.length := Nat.le_trans (Nat.le_add_right _ _) L.room

variable {p : Nat}

theorem lt_of_entryAt (h : L.EntryAt p) : p < 2 ^ 32 := by
  cases h with
  | @restart i _ hi hp =>
    have hroom := L.room
    exact (decodeFixed32_sat (by omega)).of_ok hp
  | next _ _ _ hstop => exact Nat.lt_of_le_of_lt hstop L.restarts_lt

theorem On.inside_of_invalid (h : L.On it) (hv : it.valid = false) : L.Inside it :=
  { h with
    placed := fun hv' => absurd (hv.symm.trans hv') Bool.false_ne_true
    value := fun hv' => absurd (hv.symm.trans hv') Bool.false_ne_true }

theorem On.corruptionError (h : L.On it) : L.Inside it.corruptionError :=
  On.inside_of_invalid { h with } (by simp [Iter.valid, Iter.corruptionError])

variable {allowed : Fault → Prop} {i : Nat}

theorem On.getRestartPoint (h : L.On it) (hi : i < L.numRestarts) :
    Sat allowed (fun p => L.EntryAt p) (it.getRestartPoint i) := by
  unfold Iter.getRestartPoint
  rw [h.numRestarts, if_pos hi, h.data, h.restarts]
  have hroom := L.room
  have hread : L.restarts + i * 4 + 4 ≤ L.data.length := by omega
  obtain ⟨p, hp, -⟩ := (decodeFixed32_sat hread).exists_ok
  rw [hp]
  exact .restart hi hp

theorem On.seekToRestartPoint (h : L.On it) (hi : i < L.numRestarts) :
    Sat allowed L.Placed (it.seekToRestartPoint i) := by
  apply (h.getRestartPoint hi).bind
  intro p hp
  exact ⟨{ h with }, hp⟩

theorem On.decode (hL : L.Unwrapped) (h : L.On it) (hp : L.EntryAt p) :
    Sat allowed (fun r => L.On r.1 ∧ (∃ stops, r.1 = { it with ends := stops }) ∧
      ∀ e ∈ r.2, Decoded L.data p L.restarts e ∧ e.stop ≤ L.restarts) (it.decode p) := by
  have hentry : Sat allowed (fun r => ∀ e ∈ r, Decoded L.data p L.restarts e)
      (decodeEntry it.data p it.restarts) := by
    rw [h.data, h.restarts]
    exact decodeEntry_sat restarts_le
  apply hentry.bind
  intro r hr
  cases r with
  | none =>
    refine ⟨h, ⟨it.ends, rfl⟩, fun e he => ?_⟩
    cases he
  | some e =>
    have hdecoded := hr e rfl
    have hstop := hdecoded.stop_le (hL p hp)
    refine ⟨{ h with ends := ?_ }, ⟨_, rfl⟩, ?_⟩
    · intro stop hmem
      cases hmem with
      | head => exact hstop
      | tail _ hmem => exact h.ends stop hmem
    · intro e' he'
      cases he'
      exact ⟨hdecoded, hstop⟩

theorem On.skipRestarts (h : L.On it) (turns : Nat) :
    Sat allowed (fun it' => ∃ index, it' = { it with restartIndex := index })
      (it.skipRestarts turns) := by
  induction turns generalizing it with
  | zero => exact ⟨it.restartIndex, rfl⟩
  | succ turns ih =>
    unfold Iter.skipRestarts
    split
    next hlt =>
      apply (h.getRestartPoint (h.numRestarts ▸ hlt)).bind
      intro point _
      split
      · exact ih { h with }
      · exact ⟨it.restartIndex, rfl⟩
    · exact ⟨it.restartIndex, rfl⟩

theorem On.takeEntry (h : L.On it) (hp : L.EntryAt p)
    (he : Decoded L.data p L.restarts e) (hstop : e.stop ≤ L.restarts) :
    Sat allowed (fun it' => L.Placed it' ∧ it'.value.start + it'.value.size ≤ L.restarts)
      (it.takeEntry e) := by
  have hle : L.restarts ≤ L.data.length := restarts_le
  have hslice : e.delta + e.nonShared ≤ it.data.length := by
    rw [h.data]
    simp only [Entry.stop] at hstop
    omega
  unfold Iter.takeEntry
  rw [slice_eq hslice]
  have hon : L.On { it with
      key := it.key.take e.shared ++ (it.data.drop e.delta).take e.nonShared
      value := ⟨e.delta + e.nonShared, e.valueLength⟩ } :=
    { h with }
  refine (hon.skipRestarts it.numRestarts).imp (fun _ hf => hf) fun it' hex => ?_
  obtain ⟨index, hindex⟩ := hex
  subst hindex
  exact ⟨⟨{ h with }, .next hp he.room he.lengths hstop⟩, hstop⟩

theorem Placed.nextEntryOffset (h : L.Placed it) :
    it.nextEntryOffset = it.value.start + it.value.size := Nat.mod_eq_of_lt (lt_of_entryAt h.entryAt)

theorem Placed.parseNextKey (hL : L.Unwrapped) (h : L.Placed it) :
    Sat allowed (fun r => L.Inside r.1 ∧ (r.2 = true → L.Placed r.1)) it.parseNextKey := by
  unfold Iter.parseNextKey
  by_cases hend : it.restarts ≤ it.nextEntryOffset
  · simp only [if_pos hend]
    have hon : L.On { it with current := it.restarts, restartIndex := it.numRestarts } :=
      { h with }
    exact ⟨hon.inside_of_invalid (by simp [Iter.valid]), nofun⟩
  · simp only [if_neg hend]
    have hon : L.On { it with current := it.nextEntryOffset } :=
      { h with }
    have hat : L.EntryAt it.nextEntryOffset := h.nextEntryOffset ▸ h.entryAt
    apply (hon.decode hL hat).bind
    intro r hr
    obtain ⟨hon1, hstops, hdecoded⟩ := hr
    cases r with
    | mk it1 r =>
      cases r with
      | none => exact ⟨hon1.corruptionError, nofun⟩
      | some e =>
        obtain ⟨hentry, hstop⟩ := hdecoded e rfl
        by_cases hshared : it1.key.length < e.shared
        · simp only [if_pos hshared]
          exact ⟨hon1.corruptionError, nofun⟩
        · simp only [if_neg hshared]
          apply (hon1.takeEntry hat hentry hstop).bind
          intro it2 h2
          exact ⟨{ h2.1 with placed := fun _ => h2.1.entryAt, value := fun _ => h2.2 },
            fun _ => h2.1⟩

/-- The faults of a call: a loop that is not over, after decoding only inside the block. -/
def Loops (L : Layout) (f : Fault) : Prop :=
  ∃ ends, f = .looping ends ∧ ∀ stop ∈ ends, stop ≤ L.restarts

/-- The bounds of the binary search.  `right` may have wrapped below zero. -/
theorem On.searchRestarts (hL : L.Unwrapped) (h : L.On it) (target : List UInt8) (turns : Nat)
    {left right : Nat} (hleft : left < L.numRestarts)
    (hright : right < L.numRestarts ∨ right = 2 ^ 32 - 1) :
    Sat (Loops L) (fun r => L.On r.1 ∧ (r.2 = none → L.Inside r.1) ∧ ∀ i ∈ r.2, i < L.numRestarts)
      (it.searchRestarts target turns left right) := by
  induction turns generalizing it left right with
  | zero => exact ⟨it.ends, rfl, h.ends⟩
  | succ turns ih =>
    unfold Iter.searchRestarts
    split
    · have hmid : (left + right + 1) % 2 ^ 32 / 2 < L.numRestarts := by omega
      apply (h.getRestartPoint hmid).bind
      intro p hp
      apply (h.decode hL hp).bind
      intro r hr
      obtain ⟨hon1, -, hdecoded⟩ := hr
      cases r with
      | mk it1 r =>
        cases r with
        | none =>
          exact ⟨hon1.corruptionError.toOn, fun _ => hon1.corruptionError, nofun⟩
        | some e =>
          by_cases hshared : e.shared ≠ 0
          · simp only [if_pos hshared]
            exact ⟨hon1.corruptionError.toOn, fun _ => hon1.corruptionError,
              nofun⟩
          · simp only [if_neg hshared]
            have hslice : e.delta + e.nonShared ≤ it1.data.length := by
              have hle : L.restarts ≤ L.data.length := restarts_le
              have hstop := (hdecoded e rfl).2
              rw [hon1.data]
              simp only [Entry.stop] at hstop
              omega
            rw [slice_eq hslice]
            show Sat _ _ (if _ then _ else _)
            split
            · exact ih hon1 hmid hright
            · exact ih hon1 hleft (by omega)
    · refine ⟨h, fun hf => ?_, fun i hi => ?_⟩
      · cases hf
      · cases hi
        exact hleft

theorem Placed.scan (hL : L.Unwrapped) (h : L.Placed it) (target : List UInt8) (turns : Nat) :
    Sat (Loops L) L.Inside (it.scan target turns) := by
  induction turns generalizing it with
  | zero => exact ⟨it.ends, rfl, h.ends⟩
  | succ turns ih =>
    apply (h.parseNextKey hL).bind
    intro r hr
    cases r with
    | mk it1 more =>
      cases more with
      | false => exact hr.1
      | true =>
        show Sat _ _ (if _ then _ else _)
        split
        · exact ih (hr.2 rfl)
        · exact hr.1

theorem On.seek (hL : L.Unwrapped) (h : L.On it) (turns : Nat) (target : List UInt8) :
    Sat (Loops L) L.Inside (it.seek turns target) := by
  have hpos := L.numRestarts_pos
  apply (h.searchRestarts hL target turns hpos (.inl (by rw [h.numRestarts]; omega))).bind
  intro r hr
  cases r with
  | mk it1 left =>
    cases left with
    | none => exact hr.2.1 rfl
    | some left =>
      apply (hr.1.seekToRestartPoint (hr.2.2 left rfl)).bind
      intro it2 h2
      exact h2.scan hL target turns

theorem On.seekToFirst (hL : L.Unwrapped) (h : L.On it) :
    Sat allowed L.Inside it.seekToFirst := by
  apply (h.seekToRestartPoint L.numRestarts_pos).bind
  intro it1 h1
  apply (h1.parseNextKey hL).bind
  intro r hr
  exact hr.1

theorem Inside.next (hL : L.Unwrapped) (h : L.Inside it) (hv : it.valid = true) :
    Sat allowed L.Inside it.next := by
  unfold Iter.next
  rw [if_pos hv]
  apply ((Placed.mk h.toOn (h.placed hv)).parseNextKey hL).bind
  intro r hr
  exact hr.1

end Layout

namespace Iterator

/-- No entry of the block overflows. -/
def Unwrapped : Iterator → Prop
  | empty _ => True
  | block it => ∀ p, EntryAt it.data it.restarts it.numRestarts p →
      ¬Overflows it.data p it.restarts

/-- The slices that the iterator shows and the entries that it has decoded lie inside the block,
before its restart array. -/
def Inside : Iterator → Prop
  | empty _ => True
  | block it => it.restarts ≤ it.data.length ∧ (∀ stop ∈ it.ends, stop ≤ it.restarts) ∧
      (it.valid = true → it.value.start + it.value.size ≤ it.restarts)

/-- A call reads only inside the block.  Other than by returning it may end in an assertion, for
`Next` on an invalid iterator, or not end, after decoding inside the block. -/
def Harmless (i : Iterator) (c : Call) : Prop :=
  match i.call c with
  | .ok i' => i'.Inside
  | .error .outOfBounds => False
  | .error .assertion => c = .next ∧ i.valid = false
  | .error (.looping ends) => ∃ it, i = .block it ∧ ∀ stop ∈ ends, stop ≤ it.restarts

def calls (start : Iterator) : System Iterator Call where
  init i := i = start
  step i c i' := i.call c = .ok i'

end Iterator

def openBlock (contents : List UInt8) : Except Fault Iterator := do
  (← Block.new contents).newIterator

/-- The restart array that the constructor computes lies inside the contents, also where the
number of its elements or its offset wraps. -/
theorem restartOffset_room {size : Nat} (hn : n < 2 ^ 32) (hsize : n ≤ (size - 4) / 4)
    (hfour : 4 ≤ size) : (size - (1 + n) % 2 ^ 32 * 4) % 2 ^ 32 + n * 4 ≤ size := by
  by_cases hwrap : 1 + n < 2 ^ 32
  · rw [Nat.mod_eq_of_lt hwrap]
    omega
  · omega

variable {contents : List UInt8} {i : Iterator}

theorem numRestarts_eq (hfour : 4 ≤ contents.length) (offset : Nat) :
    (⟨contents, contents.length, offset⟩ : Block).numRestarts =
      decodeFixed32 contents (contents.length - 4) := if_pos hfour

theorem newIterator_eq (hfour : 4 ≤ contents.length)
    (hn : decodeFixed32 contents (contents.length - 4) = .ok n) (hpos : 0 < n) (offset : Nat) :
    (⟨contents, contents.length, offset⟩ : Block).newIterator =
      .ok (.block { data := contents, restarts := offset, numRestarts := n,
                    current := offset, restartIndex := n }) := by
  unfold Block.newIterator
  rw [if_neg (Nat.not_lt_of_le hfour), numRestarts_eq hfour, hn]
  simp only [bind, Except.bind, Iter.new, if_neg (Nat.ne_of_gt hpos), if_pos hpos]
  rfl

theorem openBlock_sat (contents : List UInt8) :
    Sat (fun _ => False) (fun i => ∀ it, i = .block it → ∃ L : Layout, L.Inside it)
      (openBlock contents) := by
  unfold openBlock Block.new
  by_cases hfour : contents.length < 4
  · simp only [if_pos hfour]
    exact nofun
  · have hfour : 4 ≤ contents.length := Nat.le_of_not_lt hfour
    obtain ⟨n, hn, hlt⟩ := (decodeFixed32_sat (Nat.le_of_eq (Nat.sub_add_cancel hfour))).exists_ok
    simp only [if_neg (Nat.not_lt_of_le hfour), numRestarts_eq hfour, hn]
    by_cases hmax : (contents.length - 4) / 4 < n
    · simp only [bind, Except.bind, if_pos hmax]
      exact nofun
    · simp only [bind, Except.bind, if_neg hmax]
      show Sat _ _ (Block.newIterator ⟨contents, contents.length, _⟩)
      by_cases hzero : n = 0
      · unfold Block.newIterator
        rw [if_neg (Nat.not_lt_of_le hfour), numRestarts_eq hfour, hn]
        simp only [bind, Except.bind, if_pos hzero]
        exact nofun
      · have hpos : 0 < n := Nat.pos_of_ne_zero hzero
        rw [newIterator_eq hfour hn hpos]
        intro it hit
        cases hit
        have hroom := restartOffset_room hlt (Nat.le_of_not_lt hmax) hfour
        let L : Layout := ⟨contents, _, n, Nat.mod_lt _ (by decide), hpos, hlt, hroom⟩
        have hon : L.On
            { data := contents, restarts := L.restarts, numRestarts := n,
              current := L.restarts, restartIndex := n } :=
          ⟨rfl, rfl, rfl, nofun⟩
        exact ⟨L, hon.inside_of_invalid (by simp [Iter.valid])⟩

namespace Layout

variable {L : Layout} {it : Iter}

theorem Inside.iterator (h : L.Inside it) : (Iterator.block it).Inside := by
  refine ⟨?_, ?_, fun hv => ?_⟩
  · rw [h.data, h.restarts]
    exact restarts_le
  · rw [h.restarts]
    exact h.ends
  · rw [h.restarts]
    exact h.value hv

theorem Inside.call (hL : L.Unwrapped) (h : L.Inside it) (c : Call) :
    Sat (fun f => L.Loops f ∨ f = .assertion ∧ c = .next ∧ it.valid = false)
      (fun i => ∃ it', i = .block it' ∧ L.Inside it') ((Iterator.block it).call c) := by
  cases c with
  | seekToFirst =>
    apply (h.toOn.seekToFirst hL).bind
    intro it' h'
    exact ⟨it', rfl, h'⟩
  | seek turns target =>
    apply ((h.toOn.seek hL turns target).imp (fun f hf => .inl hf) fun it' h' => h').bind
    intro it' h'
    exact ⟨it', rfl, h'⟩
  | next =>
    cases hv : it.valid with
    | false =>
      show Sat _ _ ((if it.valid then _ else _) >>= _)
      rw [hv]
      exact .inr ⟨rfl, rfl, rfl⟩
    | true =>
      apply (h.next hL hv).bind
      intro it' h'
      exact ⟨it', rfl, h'⟩

end Layout

namespace Iterator

def Good (i : Iterator) : Prop :=
  ∀ it, i = .block it → ∃ L : Layout, L.Unwrapped ∧ L.Inside it

theorem Good.inside (h : i.Good) : i.Inside := by
  cases i with
  | empty => trivial
  | block it =>
    obtain ⟨L, -, hinside⟩ := h it rfl
    exact hinside.iterator

theorem Good.call (h : i.Good) (c : Call) :
    i.Harmless c ∧ ∀ i', i.call c = .ok i' → i'.Good := by
  cases i with
  | empty =>
    cases c with
    | seekToFirst | seek turns target => exact ⟨trivial, fun i' hi' => by cases hi'; exact h⟩
    | next => exact ⟨⟨rfl, rfl⟩, nofun⟩
  | block it =>
    obtain ⟨L, hL, hinside⟩ := h it rfl
    have hcall := hinside.call hL c
    unfold Harmless
    cases hr : (block it).call c with
    | ok =>
      rw [hr] at hcall
      obtain ⟨it1, hi1, h1⟩ := hcall
      subst hi1
      refine ⟨h1.iterator, fun i' hi' it' hit' => ?_⟩
      cases hi'
      cases hit'
      exact ⟨L, hL, h1⟩
    | error =>
      rw [hr] at hcall
      refine ⟨?_, nofun⟩
      rcases hcall with ⟨ends, hf, hends⟩ | ⟨hf, hc⟩
      · subst hf
        exact ⟨it, rfl, hinside.restarts ▸ hends⟩
      · subst hf
        exact hc

end Iterator

/-- A pointer that `DecodeEntry` returns is followed by its lengths inside the limit exactly if they
do not overflow.  Every sequence of calls on a block without such an entry decodes and shows only
what lies inside the block. -/
theorem block_decoding_safe (contents : List UInt8) :
    (∀ p limit, limit ≤ contents.length →
      ((∀ e, decodeEntry contents p limit = .ok (some e) → e.stop ≤ limit) ↔
        ¬Overflows contents p limit)) ∧
    ∃ start, openBlock contents = .ok start ∧
      (start.Unwrapped → ∀ i, start.calls.Reachable i → i.Inside ∧ ∀ c, i.Harmless c) := by
  obtain ⟨start, hstart, hlayout⟩ := (openBlock_sat contents).exists_ok
  refine ⟨fun p limit h => decodeEntry_inside_iff h, start, hstart, fun hunwrapped i hi => ?_⟩
  have hgood : i.Good := by
    refine hi.invariant (fun i hi it hit => ?_) fun i c i' ih hs => ?_
    · subst hi
      obtain ⟨L, hinside⟩ := hlayout it hit
      subst hit
      refine ⟨L, fun p hp => ?_, hinside⟩
      have hp' := hunwrapped p
      rw [hinside.data, hinside.restarts, hinside.numRestarts] at hp'
      exact hp' hp
    · exact (ih.call c).2 i' hs
  exact ⟨hgood.inside, fun c => (hgood.call c).1⟩

/-- An entry with a key of one byte and a value of `2 ^ 32 - 1` bytes, in a block of 16 bytes. -/
def wrappingBlock : List UInt8 :=
  [0, 1, 0xff, 0xff, 0xff, 0xff, 0x0f, 107, 0, 0, 0, 0, 1, 0, 0, 0]

/-- The first entry of `wrappingBlock` is accepted, and the value that is shown ends far behind the
block. -/
theorem wrappingBlock_outside : ∃ start i, openBlock wrappingBlock = .ok start ∧
    start.calls.Reachable i ∧ ¬i.Inside ∧
    ∃ e, decodeEntry wrappingBlock 0 8 = .ok (some e) ∧ 8 < e.stop := by
  let start : Iterator := .block ⟨wrappingBlock, 8, 1, 8, 1, [], .null, .ok, []⟩
  let first : Iterator :=
    .block ⟨wrappingBlock, 8, 1, 0, 0, [107], ⟨8, 2 ^ 32 - 1⟩, .ok, [2 ^ 32 + 7]⟩
  have hstart : openBlock wrappingBlock = .ok start := eq_ok_of_toOption (by decide +kernel)
  have hfirst : start.call .seekToFirst = .ok first := eq_ok_of_toOption (by decide +kernel)
  have hentry : decodeEntry wrappingBlock 0 8 = .ok (some ⟨7, 0, 1, 2 ^ 32 - 1⟩) :=
    eq_ok_of_toOption (by decide +kernel)
  refine ⟨start, first, hstart, .step (.init rfl) hfirst, fun hinside => ?_, _, hentry, by decide⟩
  have hvalue := hinside.2.2 rfl
  simp at hvalue

def smallBlock : List UInt8 := [0, 1, 1, 107, 118, 0, 0, 0, 0, 1, 0, 0, 0]

theorem smallBlock_entryAt (h : EntryAt smallBlock 5 1 p) : p = 0 ∨ p = 5 := by
  have hlengths : decodeLengths smallBlock 0 5 = .ok (some ⟨3, 0, 1, 1⟩) :=
    eq_ok_of_toOption (by decide +kernel)
  induction h with
  | restart hi hp =>
    have hpoint : decodeFixed32 smallBlock (5 + 0 * 4) = .ok 0 := eq_ok_of_toOption (by decide +kernel)
    cases Nat.lt_one_iff.1 hi
    exact .inl (Except.ok.inj (hp.symm.trans hpoint))
  | next _ hroom he _ ih =>
    rcases ih with hzero | hfive
    · subst hzero
      cases Except.ok.inj (he.symm.trans hlengths)
      exact .inr rfl
    · subst hfive
      simp at hroom

/-- Every sequence of calls on `smallBlock` stays inside it. -/
theorem smallBlock_safe : ∃ start, openBlock smallBlock = .ok start ∧ start.Unwrapped ∧
    ∀ i, start.calls.Reachable i → i.Inside ∧ ∀ c, i.Harmless c := by
  have hopen : openBlock smallBlock =
      .ok (.block ⟨smallBlock, 5, 1, 5, 1, [], .null, .ok, []⟩) := eq_ok_of_toOption (by decide +kernel)
  obtain ⟨-, start, hstart, hsafe⟩ := block_decoding_safe smallBlock
  cases hopen.symm.trans hstart
  have hunwrapped : (Iterator.block ⟨smallBlock, 5, 1, 5, 1, [], .null, .ok, []⟩).Unwrapped := by
    intro p hp hover
    obtain ⟨hroom, e, he, hwide, -⟩ := hover
    rcases smallBlock_entryAt hp with hzero | hfive
    · subst hzero
      have hlengths : decodeLengths smallBlock 0 5 = .ok (some ⟨3, 0, 1, 1⟩) :=
        eq_ok_of_toOption (by decide +kernel)
      cases Except.ok.inj (he.symm.trans hlengths)
      simp at hwide
    · subst hfive
      simp at hroom
  exact ⟨_, hopen, hunwrapped, hsafe hunwrapped⟩

end TfReading.Table
