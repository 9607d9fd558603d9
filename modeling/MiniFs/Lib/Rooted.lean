import Mathlib.Logic.Relation

/-! # References from a root

Places that refer to each other through numbered slots. What the root leads to is a tree when nothing refers to the
root and no place is referred to twice; then there is no cycle. -/

namespace Interact
open Relation

section
variable {α : Type} {R : α → Nat → α → Prop} {r x y : α} {i : Nat}

/-- `y` is in a slot of `x`. -/
def Refers (R : α → Nat → α → Prop) (x y : α) : Prop := ∃ i, R x i y

/-- What is found from the root on. -/
def Found (R : α → Nat → α → Prop) (r : α) : α → Prop := ReflTransGen (Refers R) r

theorem Found.step (h : Found R r x) (hr : R x i y) : Found R r y := ReflTransGen.tail h ⟨i, hr⟩

/-- Nothing that is found refers to the root, and no two slots refer to the same place. -/
structure Rooted (R : α → Nat → α → Prop) (r : α) : Prop where
  root : ∀ x i, Found R r x → ¬R x i r
  unique : ∀ x y z i j, Found R r x → Found R r y → R x i z → R y j z → x = y ∧ i = j

/-- There is no cycle among the places that are found: the first one on it would be referred to twice. -/
theorem Rooted.acyclic (h : Rooted R r) (hx : Found R r x) : ¬TransGen (Refers R) x x := by
  induction hx with
  | refl =>
    intro hc
    obtain ⟨y, hy, i, hr⟩ := TransGen.tail'_iff.mp hc
    exact h.root y i hy hr
  | @tail x y hx hxy ih =>
    intro hc
    obtain ⟨z, hz, j, hr⟩ := TransGen.tail'_iff.mp hc
    obtain ⟨i, hr'⟩ := hxy
    have hfound : Found R r z := ReflTransGen.trans (ReflTransGen.tail hx ⟨i, hr'⟩) hz
    obtain ⟨rfl, -⟩ := h.unique z x y j i hfound hx hr hr'
    exact ih (TransGen.head' ⟨i, hr'⟩ hz)

/-- What holds of the root and of all that a place of the kind refers to holds of all that is found. -/
theorem Found.induct {I : α → Prop} (h : Found R r x) (hroot : I r) (hstep : ∀ x i y, I x → R x i y → I y) : I x := by
  induction h with
  | refl => exact hroot
  | tail _ hxy ih =>
    obtain ⟨i, hr⟩ := hxy
    exact hstep _ i _ ih hr

end

end Interact
