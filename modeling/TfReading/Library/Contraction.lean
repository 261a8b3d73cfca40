import Mathlib.Logic.Relation

/-!
# Contracting a set of nodes

The image of an acyclic relation under a map that identifies only the nodes of
one set is acyclic, provided that no path joins two nodes of that set.
-/

namespace TfReading.Contraction

open Relation

variable {ν μ : Type*} {E : ν → ν → Prop} {π : ν → μ} {K : ν → Prop} {x : μ}

/-- A path of the image lifts to a path, or to two paths that break in `K`. -/
theorem lift_path (hπ : ∀ u v, π u = π v → u = v ∨ (K u ∧ K v)) {v : ν}
    (h : ReflTransGen (Relation.Map E π π) (π v) x) :
    (∃ u, π u = x ∧ ReflTransGen E v u) ∨
      ∃ s t u, K s ∧ K t ∧ π u = x ∧ ReflTransGen E v s ∧ ReflTransGen E t u := by
  induction h with
  | refl => exact .inl ⟨v, rfl, .refl⟩
  | tail _ hstep ih =>
    obtain ⟨v', w, hvw, hv', hw⟩ := hstep
    rcases ih with ⟨u, hu, hpath⟩ | ⟨s, t, u, hs, ht, hu, hfirst, hlast⟩
    · rcases hπ u v' (hu.trans hv'.symm) with rfl | ⟨hKu, hKv⟩
      · exact .inl ⟨w, hw, hpath.tail hvw⟩
      · exact .inr ⟨u, v', w, hKu, hKv, hw, hpath, .single hvw⟩
    · rcases hπ u v' (hu.trans hv'.symm) with rfl | ⟨_, hKv⟩
      · exact .inr ⟨s, t, w, hs, ht, hw, hfirst, hlast.tail hvw⟩
      · exact .inr ⟨s, v', w, hs, hKv, hw, hfirst, .single hvw⟩

theorem acyclic_map (hπ : ∀ u v, π u = π v → u = v ∨ (K u ∧ K v))
    (hK : ∀ s t, K s → K t → ¬TransGen E s t) (hE : ∀ u, ¬TransGen E u u) {y : μ}
    (hxy : Relation.Map E π π x y) : ¬ReflTransGen (Relation.Map E π π) y x := by
  intro hback
  obtain ⟨u0, v0, hedge, rfl, rfl⟩ := hxy
  rcases lift_path hπ hback with ⟨u, hu, hpath⟩ | ⟨s, t, u, hs, ht, hu, hfirst, hlast⟩
  · have hcycle : TransGen E u0 u := .head' hedge hpath
    rcases hπ u u0 hu with rfl | ⟨hKu, hKu0⟩
    · exact hE u hcycle
    · exact hK u0 u hKu0 hKu hcycle
  · have hpath : TransGen E u0 s := .head' hedge hfirst
    rcases hπ u u0 hu with rfl | ⟨_, hKu0⟩
    · exact hK t s ht hs (.trans_right hlast hpath)
    · exact hK u0 s hKu0 hs hpath

end TfReading.Contraction
