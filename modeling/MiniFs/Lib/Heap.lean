import Mathlib.Data.List.Perm.Subperm

/-! # A heap of objects

Objects are allocated at addresses that nothing lives at, and freed. Which address an allocation takes is up to a wish, so
that all wishes together are all allocators. What a program does to the heap is said as an exchange (`Heap.Swap`): the
objects at some addresses go, others come, and the rest of the heap stays as it is. -/

namespace Memory

/-- The objects that are alive; there are none from `limit` on. -/
structure Heap (ν : Type) where
  cell : Nat → Option ν
  limit : Nat
  above : ∀ a, limit ≤ a → cell a = none

namespace Heap
variable {ν : Type} {h h' h'' : Heap ν} {a b : Nat} {v : ν} {l l' l'' : List Nat}

def empty : Heap ν := ⟨fun _ => none, 0, fun _ _ => rfl⟩

/-- A free address: the wish, if it is one. -/
def pick (h : Heap ν) (wish : Nat) : Nat := if (h.cell wish).isNone then wish else h.limit

def put (h : Heap ν) (a : Nat) (v : ν) : Heap ν where
  cell b := if b = a then some v else h.cell b
  limit := max h.limit (a + 1)
  above b hb := by
    rw [if_neg (by omega)]
    exact h.above b (by omega)

def free (h : Heap ν) (a : Nat) : Heap ν where
  cell b := if b = a then none else h.cell b
  limit := h.limit
  above b hb := by
    split
    · rfl
    · exact h.above b hb

@[simp] theorem cell_pick (h : Heap ν) (wish : Nat) : h.cell (h.pick wish) = none := by
  unfold pick
  split
  · rename_i hw
    exact Option.isNone_iff_eq_none.mp hw
  · exact h.above _ (Nat.le_refl _)

@[simp] theorem cell_put_self (h : Heap ν) (a : Nat) (v : ν) : (h.put a v).cell a = some v := if_pos rfl

theorem cell_put_of_ne (hb : b ≠ a) : (h.put a v).cell b = h.cell b := if_neg hb

@[simp] theorem cell_free_self (h : Heap ν) (a : Nat) : (h.free a).cell a = none := if_pos rfl

theorem cell_free_of_ne (hb : b ≠ a) : (h.free a).cell b = h.cell b := if_neg hb

/-- There are at most `limit` objects. -/
theorem length_le_limit (hl : l.Nodup) (hlive : ∀ a ∈ l, h.cell a ≠ none) : l.length ≤ h.limit := by
  have hsub : l ⊆ List.range h.limit := fun a ha => List.mem_range.mpr (by
    by_contra hlt
    exact hlive a ha (h.above a (by omega)))
  have := (hl.subperm hsub).length_le
  rwa [List.length_range] at this

/-! ## Exchanges -/

/-- From `h` to `h'` the objects at `l` have gone, others have come at `l'`, and the rest is as it was. -/
structure Swap (h : Heap ν) (l : List Nat) (h' : Heap ν) (l' : List Nat) : Prop where
  kept : ∀ a, a ∉ l → a ∉ l' → h'.cell a = h.cell a
  gone : ∀ a ∈ l, a ∉ l' → h'.cell a = none
  came : ∀ a ∈ l', a ∉ l → h.cell a = none

namespace Swap

theorem refl (h : Heap ν) (l : List Nat) : h.Swap l h l where
  kept := fun _ _ _ => rfl
  gone := fun _ h h' => absurd h h'
  came := fun _ h h' => absurd h h'

theorem trans (h₁ : h.Swap l h' l') (h₂ : h'.Swap l' h'' l'') : h.Swap l h'' l'' where
  kept a ha ha'' := by
    by_cases ha' : a ∈ l'
    · rw [h₂.gone a ha' ha'', h₁.came a ha' ha]
    · rw [h₂.kept a ha' ha'', h₁.kept a ha ha']
  gone a ha ha'' := by
    by_cases ha' : a ∈ l'
    · exact h₂.gone a ha' ha''
    · rw [h₂.kept a ha' ha'', h₁.gone a ha ha']
  came a ha'' ha := by
    by_cases ha' : a ∈ l'
    · exact h₁.came a ha' ha
    · rw [← h₁.kept a ha ha', h₂.came a ha'' ha']

/-- The same exchange beside objects that stay. -/
theorem frame (h₁ : h.Swap l h' l') (k : List Nat) : h.Swap (k ++ l) h' (k ++ l') where
  kept a ha ha' := h₁.kept a (fun hm => ha (List.mem_append_right _ hm)) fun hm => ha' (List.mem_append_right _ hm)
  gone a ha ha' := by
    rcases List.mem_append.mp ha with hk | hl
    · exact absurd (List.mem_append_left _ hk) ha'
    · exact h₁.gone a hl fun hm => ha' (List.mem_append_right _ hm)
  came a ha' ha := by
    rcases List.mem_append.mp ha' with hk | hl
    · exact absurd (List.mem_append_left _ hk) ha
    · exact h₁.came a hl fun hm => ha (List.mem_append_right _ hm)

theorem frameRight (h₁ : h.Swap l h' l') (k : List Nat) : h.Swap (l ++ k) h' (l' ++ k) := by
  have hcomm : ∀ {l k : List Nat} {a : Nat}, a ∈ l ++ k → a ∈ k ++ l := fun hm =>
    List.mem_append.mpr (List.mem_append.mp hm).symm
  obtain ⟨hkept, hgone, hcame⟩ := h₁.frame k
  exact ⟨fun a ha ha' => hkept a (fun hm => ha (hcomm hm)) fun hm => ha' (hcomm hm),
    fun a ha ha' => hgone a (hcomm ha) fun hm => ha' (hcomm hm),
    fun a ha' ha => hcame a (hcomm ha') fun hm => ha (hcomm hm)⟩

/-- An object that is not exchanged stays what it is. -/
theorem cell (h₁ : h.Swap l h' l') (ha : h.cell a = some v) (hl : a ∉ l) : a ∉ l' ∧ h'.cell a = some v := by
  have hl' : a ∉ l' := fun hm => by
    rw [h₁.came a hm hl] at ha
    cases ha
  exact ⟨hl', (h₁.kept a hl hl').trans ha⟩

end Swap

theorem swap_come (ha : h.cell a = none) (v : ν) : h.Swap [] (h.put a v) [a] where
  kept _ _ hb := cell_put_of_ne fun hab => hb (List.mem_singleton.mpr hab)
  gone _ hb := nomatch hb
  came _ hb _ := List.mem_singleton.mp hb ▸ ha

theorem swap_put (h : Heap ν) (v : ν) (ha : a ∈ l) : h.Swap l (h.put a v) l where
  kept _ hb _ := cell_put_of_ne fun hab => hb (hab ▸ ha)
  gone _ hb hb' := absurd hb hb'
  came _ hb hb' := absurd hb hb'

theorem swap_free (h : Heap ν) (a : Nat) : h.Swap [a] (h.free a) [] where
  kept _ hb _ := cell_free_of_ne fun hab => hb (List.mem_singleton.mpr hab)
  gone b hb _ := List.mem_singleton.mp hb ▸ cell_free_self h b
  came _ hb := nomatch hb

end Heap

end Memory
