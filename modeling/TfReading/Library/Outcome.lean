import Mathlib.Init

/-!
# Postconditions of computations that may fault

`Sat allowed post x` says that `x` ends in a value with `post`, or in a fault that
`allowed` permits.  With `allowed` empty the computation does not fault at all.
-/

namespace TfReading.Outcome

variable {ε α β : Type}

def Sat (allowed : ε → Prop) (post : α → Prop) : Except ε α → Prop
  | .ok a => post a
  | .error e => allowed e

variable {allowed : ε → Prop} {post : α → Prop}

variable {x : Except ε α} {f : α → Except ε β} {a : α} {b : β}

theorem Sat.bind {post' : β → Prop}
    (hx : Sat allowed post x) (hf : ∀ a, post a → Sat allowed post' (f a)) :
    Sat allowed post' (x >>= f) := by
  cases x with
  | ok a => exact hf a hx
  | error => exact hx

theorem Sat.imp {allowed' : ε → Prop} {post' : α → Prop}
    (hx : Sat allowed post x) (he : ∀ e, allowed e → allowed' e) (hp : ∀ a, post a → post' a) :
    Sat allowed' post' x := by
  cases x with
  | ok a => exact hp a hx
  | error e => exact he e hx

theorem Sat.eq_ok (hx : Sat allowed post x) : Sat allowed (fun a => x = .ok a ∧ post a) x := by
  cases x with
  | ok => exact ⟨rfl, hx⟩
  | error => exact hx

theorem Sat.any (x : Except ε α) : Sat (fun _ => True) (fun _ => True) x := by
  cases x <;> trivial

theorem Sat.of_ok (hx : Sat allowed post x) (h : x = .ok a) : post a := by
  rw [h] at hx
  exact hx

theorem exists_of_bind_eq_ok (h : x >>= f = .ok b) :
    ∃ a, x = .ok a ∧ f a = .ok b := by
  cases x with
  | ok a => exact ⟨a, rfl, h⟩
  | error => cases h

theorem Sat.foldlM {f : β → α → Except ε β} {I : β → Prop} {l : List α} (hb : I b)
    (hstep : ∀ b x, x ∈ l → I b → Sat allowed I (f b x)) : Sat allowed I (l.foldlM f b) := by
  induction l generalizing b with
  | nil => exact hb
  | cons x l ih =>
    apply Sat.bind (hstep b x List.mem_cons_self hb)
    intro b' hb'
    exact ih hb' fun b y hy => hstep b y (List.mem_cons_of_mem x hy)

theorem Sat.exists_ok (hx : Sat (fun _ => False) post x) :
    ∃ a, x = .ok a ∧ post a := by
  cases x with
  | ok a => exact ⟨a, rfl, hx⟩
  | error => exact absurd hx id

theorem eq_ok_of_toOption (h : x.toOption = some a) : x = .ok a := by
  cases x with
  | ok => exact congrArg Except.ok (Option.some.inj h)
  | error => cases h

end TfReading.Outcome
