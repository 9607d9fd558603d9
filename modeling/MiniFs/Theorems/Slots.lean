import MiniFs.Theorems.Bitmap

/-! # Arrays of ids

The slots of a directory, the pointers of an inode and the entries of an index zone are arrays in which the
used ids come first and zeros follow. The loops of fs_lib.c over such an array are loops over a list. -/

namespace MiniFs
open Interact Memory

/-- The first entries of the array are the ids of the list, and the rest up to `cap` are 0. -/
structure Holds (get : Nat → Int) (cap : Nat) (ids : List Int) : Prop where
  le : ids.length ≤ cap
  used : ∀ i (h : i < ids.length), get i = ids[i]
  free : ∀ i, ids.length ≤ i → i < cap → get i = 0
  ne : ∀ z ∈ ids, z ≠ 0

instance (get : Nat → Int) (cap : Nat) (ids : List Int) : Decidable (Holds get cap ids) :=
  decidable_of_iff (ids.length ≤ cap ∧ (∀ (i : Nat) (h : i < ids.length), get i = ids[i]) ∧
      (∀ i < cap, ids.length ≤ i → get i = 0) ∧ ∀ z ∈ ids, z ≠ 0)
    ⟨fun h => ⟨h.1, h.2.1, fun i hi hc => h.2.2.1 i hc hi, h.2.2.2⟩,
      fun h => ⟨h.le, h.used, fun i hc hi => h.free i hi hc, h.ne⟩⟩

namespace Holds
variable {get get' : Nat → Int} {cap : Nat} {ids : List Int}

theorem nil (h : ∀ i < cap, get i = 0) : Holds get cap [] where
  le := Nat.zero_le _
  used := fun i hi => by simp at hi
  free := fun i _ hi => h i hi
  ne := fun z hz => by simp at hz

theorem congr (h : Holds get cap ids) (heq : ∀ i < cap, get' i = get i) : Holds get' cap ids where
  le := h.le
  used := fun i hi => (heq i (hi.trans_le h.le)).trans (h.used i hi)
  free := fun i hi hc => (heq i hc).trans (h.free i hi hc)
  ne := h.ne

theorem eq_zero_iff (h : Holds get cap ids) {i : Nat} (hi : i < cap) : get i = 0 ↔ ids.length ≤ i := by
  constructor
  · intro h0
    by_contra hlt
    rw [h.used i (by omega)] at h0
    exact h.ne _ (List.getElem_mem _) h0
  · exact fun hle => h.free i hle hi

/-- One more id in the first free entry. -/
theorem concat (h : Holds get cap ids) {z : Int} (hlt : ids.length < cap) (hz : z ≠ 0) (hnew : get' ids.length = z)
    (heq : ∀ i < cap, i ≠ ids.length → get' i = get i) : Holds get' cap (ids ++ [z]) where
  le := by rw [List.length_append, List.length_singleton]; exact hlt
  used := by
    intro i hi
    rw [List.length_append, List.length_singleton] at hi
    by_cases hlast : i = ids.length
    · subst hlast
      simpa using hnew
    · rw [heq i (by omega) hlast, h.used i (by omega), List.getElem_append_left]
  free := by
    intro i hi hc
    rw [List.length_append, List.length_singleton] at hi
    rw [heq i hc (by omega)]
    exact h.free i (by omega) hc
  ne := by
    intro y hy
    rcases List.mem_append.mp hy with hy | hy
    · exact h.ne y hy
    · rw [List.mem_singleton.mp hy]
      exact hz

end Holds

/-! ## Loops -/

/-- Do `f` on each of the ids. -/
def each (f : Int → FsM Unit) : List Int → FsM Unit
  | [] => .ret ()
  | z :: zs => do
    f z
    each f zs

/-- The loop over `n` entries from `i` on is a loop over the ids there. -/
theorem whileUsed_eq {get : Nat → Int} {cap : Nat} {ids : List Int} (h : Holds get cap ids) (f : Int → FsM Unit)
    {n i : Nat} (hi : i + n ≤ cap) :
    whileUsed get f n i =
      each f ((ids.drop i).take n) >>= fun _ => Prog.ret (decide (i + n ≤ ids.length ∨ n = 0)) := by
  induction n generalizing i with
  | zero => simp [whileUsed, each]
  | succ n ih =>
    unfold whileUsed
    by_cases hlt : i < ids.length
    · have hne : ¬get i = 0 := by rw [h.eq_zero_iff (by omega)]; omega
      have hdec : decide (i + 1 + n ≤ ids.length ∨ n = 0) = decide (i + (n + 1) ≤ ids.length ∨ n + 1 = 0) := by
        rw [decide_eq_decide]
        omega
      rw [if_neg hne, ih (by omega), hdec, List.drop_eq_getElem_cons hlt, List.take_succ_cons, each, h.used i hlt]
      exact (Prog.bind_assoc _ _ _).symm
    · have hdec : decide (i + (n + 1) ≤ ids.length ∨ n + 1 = 0) = false := by
        rw [decide_eq_false_iff_not]
        omega
      rw [if_pos (h.free i (by omega) (by omega)), List.drop_eq_nil_of_le (by omega), hdec]
      rfl

theorem lastNonzero_eq {get : Nat → Int} {cap : Nat} {ids : List Int} (h : Holds get cap ids) {idx : Nat}
    (hidx : idx < cap) (hle : ids.length ≤ idx + 1) : lastNonzero get idx = ids.length - 1 := by
  induction idx with
  | zero =>
    unfold lastNonzero
    omega
  | succ idx ih =>
    unfold lastNonzero
    by_cases hlt : idx + 1 < ids.length
    · have hne : get (idx + 1) ≠ 0 := by rw [ne_eq, h.eq_zero_iff hidx]; omega
      rw [if_pos hne]
      omega
    · have hz : ¬get (idx + 1) ≠ 0 := by rw [ne_eq, h.eq_zero_iff hidx]; omega
      rw [if_neg hz]
      exact ih (by omega) (by omega)

/-! ## The arrays of the zones -/

theorem Bytes.HasStr.length_lt {z : Zone} {text : Str} (h : z.HasStr 0 text) : text.length < 64 := by
  have := h.fits
  omega

theorem cstr?_eq {z : Zone} {off : Nat} {text : Str} (h : z.HasStr off text) : z.cstr? off = some text := by
  have := h.fits
  unfold Zone.cstr?
  rw [h.cstr_eq, if_pos (by omega)]

namespace Zone

/-- A 16-bit id. -/
abbrev Fits (v : Int) : Prop := -32768 ≤ v ∧ v < 32768

variable {z : Zone} {i j : Nat} {v : Int}

theorem idx_setIdx_self (hi : i < 32) (hv : Fits v) : (z.setIdx i v).idx i = v :=
  Bytes.int16_blit_bytes16 (by omega) hv.1 hv.2

theorem idx_setIdx_of_ne (h : j ≠ i) : (z.setIdx i v).idx j = z.idx j :=
  Bytes.int16_blit_of_disjoint (by rw [length_bytes16]; omega)

theorem ptr_setPtr_self (hi : i < 24) (hv : Fits v) : (z.setPtr i v).ptr i = v :=
  Bytes.int16_blit_bytes16 (by omega) hv.1 hv.2

theorem ptr_setPtr_of_ne (h : j ≠ i) : (z.setPtr i v).ptr j = z.ptr j :=
  Bytes.int16_blit_of_disjoint (by rw [length_bytes16]; omega)

theorem ptr_setSize : (z.setSize v).ptr j = z.ptr j := Bytes.int16_blit_of_disjoint (by rw [length_bytes16]; omega)

theorem ptr_setTime {t : UInt64} (hj : j < 24) : (z.setTime t).ptr j = z.ptr j :=
  Bytes.int16_blit_of_disjoint (by omega)

theorem size_setSize (hv : Fits v) : (z.setSize v).size = v := Bytes.int16_blit_bytes16 (by omega) hv.1 hv.2

theorem size_setTime {t : UInt64} : (z.setTime t).size = z.size := Bytes.int16_blit_of_disjoint (by omega)

theorem time_setTime {t : UInt64} : (z.setTime t).time = t.toNat := Bytes.nat64_blit_bytes64 (by omega)

theorem parent_setPtr : (z.setPtr i v).parent = z.parent := Bytes.int16_blit_of_disjoint (by omega)

theorem parent_setSize : (z.setSize v).parent = z.parent := Bytes.int16_blit_of_disjoint (by omega)

theorem parent_setTime {t : UInt64} : (z.setTime t).parent = z.parent := Bytes.int16_blit_of_disjoint (by omega)

end Zone

end MiniFs
