import TfReading.HeapSimulator.Candidate

/-!
# Sequences of calls

Calls come in the order of an instruction sequence: a buffer is introduced by `Alloc` or
`ShareWith` and given up by `Free`.
-/

namespace TfReading.HeapSimulator

open List

variable {β : Type}

def Introduced (calls : List (Call β)) (b : β) (size : Nat) : Prop :=
  .alloc b size ∈ calls ∨ ∃ shared, .shareWith b shared size ∈ calls

def Freed (calls : List (Call β)) (b : β) : Prop := ∃ size, .free b size ∈ calls

/-- Every buffer is introduced once, shares with a buffer of its size, and is freed at most once,
after it was introduced and with its size. -/
inductive Legal : List (Call β) → Prop
  | nil : Legal []
  | alloc {calls : List (Call β)} {b : β} {size : Nat} (h : Legal calls)
      (hnew : ∀ n, ¬Introduced calls b n) : Legal (calls ++ [.alloc b size])
  | shareWith {calls : List (Call β)} {b shared : β} {size : Nat} (h : Legal calls)
      (hnew : ∀ n, ¬Introduced calls b n) (hshared : Introduced calls shared size) :
      Legal (calls ++ [.shareWith b shared size])
  | free {calls : List (Call β)} {b : β} {size : Nat} (h : Legal calls)
      (hintro : Introduced calls b size) (hfreed : ¬Freed calls b) :
      Legal (calls ++ [.free b size])

def Live (calls : List (Call β)) (b : β) : Prop := (∃ n, Introduced calls b n) ∧ ¬Freed calls b

def LiveTogether (calls : List (Call β)) (b b' : β) : Prop :=
  ∃ p, p <+: calls ∧ Live p b ∧ Live p b'

def Shares (calls : List (Call β)) (shared b : β) : Prop :=
  ∃ n, n ≠ 0 ∧ .shareWith b shared n ∈ calls

def allocTotal (a : Int) : List (Call β) → Int
  | [] => 0
  | .alloc _ size :: calls => alignUp size a + allocTotal a calls
  | .shareWith _ _ _ :: calls => allocTotal a calls
  | .free _ _ :: calls => allocTotal a calls

section Calls

variable {calls : List (Call β)} {c : Call β} {b b' shared : β} {n m : Nat}

def Call.introduced : Call β → Option (β × Nat)
  | .alloc b size => some (b, size)
  | .shareWith b _ size => some (b, size)
  | .free _ _ => none

theorem introduced_concat :
    Introduced (calls ++ [c]) b n ↔ Introduced calls b n ∨ c.introduced = some (b, n) := by
  have hc : c.introduced = some (b, n) ↔ .alloc b n = c ∨ ∃ shared, .shareWith b shared n = c := by
    cases c <;> simp [Call.introduced, eq_comm]
  simp only [Introduced, mem_append, mem_singleton, exists_or, hc]
  exact or_or_or_comm

theorem freed_concat : Freed (calls ++ [c]) b ↔ Freed calls b ∨ ∃ n, c = .free b n := by
  simp only [Freed, mem_append, mem_singleton, exists_or, eq_comm]

theorem freed_concat_of_introduced {x : β × Nat} (hc : c.introduced = some x) :
    Freed (calls ++ [c]) b ↔ Freed calls b := by
  rw [freed_concat, or_iff_left]
  rintro ⟨n, rfl⟩
  cases hc

theorem shares_concat : Shares (calls ++ [c]) shared b ↔
    Shares calls shared b ∨ ∃ n, n ≠ 0 ∧ c = .shareWith b shared n := by
  simp only [Shares, mem_append, mem_singleton, and_or_left, exists_or, eq_comm]

theorem introduced_free : Introduced (calls ++ [.free b' m]) b n ↔ Introduced calls b n := by
  rw [introduced_concat]
  exact or_iff_left nofun

theorem shares_free : Shares (calls ++ [.free b' m]) shared b ↔ Shares calls shared b := by
  rw [shares_concat]
  simp

theorem freed_free : Freed (calls ++ [.free b' m]) b ↔ Freed calls b ∨ b = b' := by
  rw [freed_concat]
  simp [eq_comm]

theorem LiveTogether.of_concat (h : LiveTogether (calls ++ [c]) b b') :
    LiveTogether calls b b' ∨ ¬Freed (calls ++ [c]) b' := by
  obtain ⟨p, hp, hb, hb'⟩ := h
  rcases prefix_concat_iff.mp hp with heq | hp
  · rw [heq] at hb'
    exact .inr hb'.2
  · exact .inl ⟨p, hp, hb, hb'⟩

theorem Introduced.of_le {p : List (Call β)} (hp : p <+: calls) (h : Introduced p b n) :
    Introduced calls b n := by
  rcases h with h | ⟨s, h⟩
  · exact .inl (hp.subset h)
  · exact .inr ⟨s, hp.subset h⟩

theorem Legal.introduced_unique (h : Legal calls) (hn : Introduced calls b n)
    (hm : Introduced calls b m) : n = m := by
  induction h generalizing n m with
  | nil =>
    rcases hn with hn | ⟨_, hn⟩
    · cases hn
    · cases hn
  | alloc h hnew ih | shareWith h hnew hshared ih =>
    rw [introduced_concat] at hn hm
    rcases hn with hn | hn <;> rcases hm with hm | hm
    · exact ih hn hm
    · cases hm
      exact absurd hn (hnew n)
    · cases hn
      exact absurd hm (hnew m)
    · cases hn
      cases hm
      rfl
  | free h hintro hfreed ih =>
    rw [introduced_free] at hn hm
    exact ih hn hm

theorem Legal.introduced_of_freed (hl : Legal calls) (hf : Freed calls b) :
    ∃ n, Introduced calls b n := by
  induction hl with
  | nil =>
    obtain ⟨n, hn⟩ := hf
    cases hn
  | alloc hl hnew ih | shareWith hl hnew hshared ih =>
    rcases freed_concat.mp hf with hf | ⟨_, hc⟩
    · obtain ⟨n, hn⟩ := ih hf
      exact ⟨n, introduced_concat.mpr (.inl hn)⟩
    · cases hc
  | free hl hintro hfreed ih =>
    rcases freed_concat.mp hf with hf | ⟨_, hc⟩
    · obtain ⟨n, hn⟩ := ih hf
      exact ⟨n, introduced_concat.mpr (.inl hn)⟩
    · cases hc
      exact ⟨_, introduced_concat.mpr (.inl hintro)⟩

theorem Legal.introduced_shared (hl : Legal calls) (hs : .shareWith b shared n ∈ calls) :
    Introduced calls shared n := by
  induction hl with
  | nil => cases hs
  | alloc hl hnew ih | free hl hintro hfreed ih =>
    rcases mem_append.mp hs with hs | hs
    · exact introduced_concat.mpr (.inl (ih hs))
    · cases mem_singleton.mp hs
  | shareWith hl hnew hshared ih =>
    rcases mem_append.mp hs with hs | hs
    · exact introduced_concat.mpr (.inl (ih hs))
    · cases mem_singleton.mp hs
      exact introduced_concat.mpr (.inl hshared)

theorem allocTotal_concat {a : Int} : allocTotal a (calls ++ [c]) =
    allocTotal a calls + allocTotal a [c] := by
  induction calls with
  | nil => exact (Int.zero_add _).symm
  | cons d calls ih =>
    rw [cons_append]
    cases d with
    | alloc =>
      rw [allocTotal, allocTotal, ih]
      omega
    | shareWith => exact ih
    | free => exact ih

end Calls

end TfReading.HeapSimulator
