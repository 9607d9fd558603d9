import Mathlib.Data.List.TakeWhile
import Mathlib.Algebra.Order.Ring.Int

/-! # Records of bytes

A C object of `n` bytes, read and written at byte offsets: single bytes, signed 16-bit and unsigned
64-bit little-endian fields, and NUL-terminated strings. Every update is a `blit`, so one family of
read-over-write lemmas serves all fields. -/

namespace Memory

abbrev Byte := UInt8

/-- A C string without its terminator. -/
abbrev Str := List Byte

/-- The bytes of a string literal. -/
def lit (s : String) : Str := s.toList.map fun c => UInt8.ofNat c.toNat

/-- An object of `n` bytes. -/
abbrev Bytes (n : Nat) := Fin n → Byte

/-- The signed 16-bit integer with the given low and high byte. -/
def int16Of (lo hi : Byte) : Int :=
  if lo.toNat + 256 * hi.toNat < 32768 then lo.toNat + 256 * hi.toNat
  else (lo.toNat + 256 * hi.toNat : Int) - 65536

/-- The two bytes that store the low 16 bits of `v`. -/
def bytes16 (v : Int) : List Byte :=
  [UInt8.ofNat (v % 256).toNat, UInt8.ofNat (v / 256 % 256).toNat]

/-- The eight bytes that store `v`. -/
def bytes64 (v : UInt64) : List Byte :=
  (List.range 8).map fun i => UInt8.ofNat (v.toNat / 256 ^ i % 256)

/-- A string that C can hold: no byte of it is the terminator. -/
def NulFree (s : Str) : Prop := ∀ c ∈ s, c ≠ 0

instance (s : Str) : Decidable (NulFree s) := List.decidableBAll (fun c => c ≠ 0) s

theorem int16Of_range (lo hi : Byte) : -32768 ≤ int16Of lo hi ∧ int16Of lo hi < 32768 := by
  have h1 := lo.toNat_lt
  have h2 := hi.toNat_lt
  unfold int16Of
  split <;> omega

@[simp] theorem length_bytes16 (v : Int) : (bytes16 v).length = 2 := rfl
@[simp] theorem length_bytes64 (v : UInt64) : (bytes64 v).length = 8 := by simp [bytes64]

theorem int16Of_bytes16 {v : Int} (h : -32768 ≤ v) (h' : v < 32768) :
    int16Of (UInt8.ofNat (v % 256).toNat) (UInt8.ofNat (v / 256 % 256).toNat) = v := by
  have h1 : (UInt8.ofNat (v % 256).toNat).toNat = (v % 256).toNat := by
    rw [UInt8.toNat_ofNat']
    omega
  have h2 : (UInt8.ofNat (v / 256 % 256).toNat).toNat = (v / 256 % 256).toNat := by
    rw [UInt8.toNat_ofNat']
    omega
  unfold int16Of
  rw [h1, h2]
  split <;> omega

theorem NulFree.nil : NulFree [] := by simp [NulFree]

theorem NulFree.append {s t : Str} (hs : NulFree s) (ht : NulFree t) : NulFree (s ++ t) := by
  intro c hc
  rcases List.mem_append.mp hc with hc | hc
  · exact hs c hc
  · exact ht c hc

theorem NulFree.take {s : Str} (hs : NulFree s) (n : Nat) : NulFree (s.take n) :=
  fun c hc => hs c (List.mem_of_mem_take hc)

theorem NulFree.drop {s : Str} (hs : NulFree s) (n : Nat) : NulFree (s.drop n) :=
  fun c hc => hs c (List.mem_of_mem_drop hc)

theorem NulFree.takeWhile {s : Str} (hs : NulFree s) (f : Byte → Bool) : NulFree (s.takeWhile f) :=
  fun c hc => hs c (List.takeWhile_subset f hc)

/-- The string at the front of `s ++ 0 :: r` is `s`. -/
theorem takeWhile_nul {s : Str} (hs : NulFree s) (r : List Byte) : (s ++ 0 :: r).takeWhile (· != 0) = s := by
  induction s with
  | nil => rfl
  | cons c s ih =>
    have hc : c ≠ 0 := hs c List.mem_cons_self
    have hs' : NulFree s := fun d hd => hs d (List.mem_cons_of_mem _ hd)
    simp [hc, ih hs']

namespace Bytes
variable {n m : Nat}

/-- The byte at offset `i`; the offsets in use are all inside the object. -/
def get (b : Bytes n) (i : Nat) : Byte := if h : i < n then b ⟨i, h⟩ else 0

/-- Copy the bytes `l` to offset `off`. -/
def blit (b : Bytes n) (off : Nat) (l : List Byte) : Bytes n :=
  fun j => if off ≤ j.val ∧ j.val < off + l.length then l.getD (j.val - off) 0 else b j

/-- All bytes zero. -/
def zero : Bytes n := fun _ => 0

/-- The `len` bytes from offset `off` as an object of their own. -/
def sub (b : Bytes n) (off : Nat) (len : Nat) : Bytes len := fun j => b.get (off + j.val)

/-- The `len` bytes from offset `off`. -/
def slice (b : Bytes n) (off len : Nat) : List Byte := (List.range len).map fun i => b.get (off + i)

/-- The signed 16-bit field at offset `off`. -/
def int16 (b : Bytes n) (off : Nat) : Int := int16Of (b.get off) (b.get (off + 1))

/-- The unsigned 64-bit field at offset `off`. -/
def nat64 (b : Bytes n) (off : Nat) : Nat :=
  (List.range 8).foldr (fun i acc => (b.get (off + i)).toNat * 256 ^ i + acc) 0

/-- The C string that starts at offset `off`, cut at the end of the object. -/
def cstr (b : Bytes n) (off : Nat) : Str := (b.slice off (n - off)).takeWhile (· != 0)

/-- The C string `s` starts at offset `off` and ends inside the object. -/
structure HasStr (b : Bytes n) (off : Nat) (s : Str) : Prop where
  nulFree : NulFree s
  bytes : ∀ i < s.length, b.get (off + i) = s.getD i 0
  nul : b.get (off + s.length) = 0
  fits : off + s.length < n

instance (b : Bytes n) (off : Nat) (s : Str) : Decidable (b.HasStr off s) :=
  decidable_of_iff (NulFree s ∧ (∀ i < s.length, b.get (off + i) = s.getD i 0) ∧ b.get (off + s.length) = 0 ∧
      off + s.length < n)
    ⟨fun h => ⟨h.1, h.2.1, h.2.2.1, h.2.2.2⟩, fun h => ⟨h.nulFree, h.bytes, h.nul, h.fits⟩⟩

/-- `strcpy` of `s` to offset `off`; a copy past the end of the object is undefined. -/
def strcpy (b : Bytes n) (off : Nat) (s : Str) : Option (Bytes n) :=
  if off + s.length + 1 ≤ n then some (b.blit off (s ++ [0])) else none

theorem get_blit (b : Bytes n) (off : Nat) (l : List Byte) (i : Nat) :
    (b.blit off l).get i = if off ≤ i ∧ i < off + l.length ∧ i < n then l.getD (i - off) 0 else b.get i := by
  unfold get blit
  by_cases hn : i < n
  · simp only [hn, ↓reduceDIte, and_true]
  · simp [hn]

theorem get_blit_of_disjoint {b : Bytes n} {off : Nat} {l : List Byte} {i : Nat} (h : i < off ∨ off + l.length ≤ i) :
    (b.blit off l).get i = b.get i := by
  rw [get_blit, if_neg (by omega)]

theorem get_blit_of_mem {b : Bytes n} {off : Nat} {l : List Byte} {i : Nat} (h : off ≤ i) (h' : i < off + l.length)
    (hn : i < n) : (b.blit off l).get i = l.getD (i - off) 0 := by
  rw [get_blit, if_pos ⟨h, h', hn⟩]

theorem get_val (b : Bytes n) (i : Fin n) : b.get i = b i := dif_pos i.isLt

@[simp] theorem get_zero (i : Nat) : (zero : Bytes n).get i = 0 := by
  unfold get zero
  split <;> rfl

@[simp] theorem int16_zero (off : Nat) : (zero : Bytes n).int16 off = 0 := by
  unfold int16
  rw [get_zero, get_zero]
  rfl

theorem int16_range (b : Bytes n) (off : Nat) : -32768 ≤ b.int16 off ∧ b.int16 off < 32768 :=
  int16Of_range _ _

theorem int16_blit_of_disjoint {b : Bytes n} {off : Nat} {l : List Byte} {o : Nat}
    (h : o + 2 ≤ off ∨ off + l.length ≤ o) : (b.blit off l).int16 o = b.int16 o := by
  unfold int16
  rw [get_blit_of_disjoint (by omega), get_blit_of_disjoint (by omega)]

theorem int16_blit_bytes16 {b : Bytes n} {off : Nat} {v : Int} (hn : off + 2 ≤ n) (h : -32768 ≤ v) (h' : v < 32768) :
    (b.blit off (bytes16 v)).int16 off = v := by
  unfold int16
  rw [get_blit_of_mem (by omega) (by simp) (by omega), get_blit_of_mem (by omega) (by simp) (by omega)]
  simpa [bytes16] using int16Of_bytes16 h h'

theorem nat64_blit_bytes64 {b : Bytes n} {off : Nat} {t : UInt64} (hn : off + 8 ≤ n) :
    (b.blit off (bytes64 t)).nat64 off = t.toNat := by
  have hget : ∀ i < 8, ((b.blit off (bytes64 t)).get (off + i)).toNat = t.toNat / 256 ^ i % 256 := by
    intro i hi
    rw [get_blit_of_mem (by omega) (by simpa using hi) (by omega), Nat.add_sub_cancel_left]
    have hbyte : (bytes64 t).getD i 0 = UInt8.ofNat (t.toNat / 256 ^ i % 256) := by
      simp [bytes64, List.getD_eq_getElem?_getD, hi]
    rw [hbyte, UInt8.toNat_ofNat']
    omega
  have hsum : ∀ k ≤ 8, ∀ acc, (List.range k).foldr
      (fun i acc => ((b.blit off (bytes64 t)).get (off + i)).toNat * 256 ^ i + acc) acc = t.toNat % 256 ^ k + acc := by
    intro k
    induction k with
    | zero => intro _ acc; simp [Nat.mod_one]
    | succ k ih =>
      intro hk acc
      rw [List.range_succ, List.foldr_append, List.foldr_cons, List.foldr_nil, ih (by omega), hget k (by omega),
        Nat.mod_pow_succ, Nat.mul_comm (256 ^ k), Nat.add_assoc]
  exact (hsum 8 (Nat.le_refl 8) 0).trans (Nat.mod_eq_of_lt t.toNat_lt)

theorem length_slice (b : Bytes n) (off len : Nat) : (b.slice off len).length = len := by simp [slice]

theorem getD_slice {b : Bytes n} {off len i : Nat} (h : i < len) : (b.slice off len).getD i 0 = b.get (off + i) := by
  simp [slice, List.getD_eq_getElem?_getD, h]

theorem slice_add (b : Bytes n) (off len len' : Nat) :
    b.slice off (len + len') = b.slice off len ++ b.slice (off + len) len' := by
  simp only [slice, List.range_add, List.map_append, List.map_map, Function.comp_def, Nat.add_assoc]

theorem HasStr.slice_eq {b : Bytes n} {off : Nat} {s : Str} (h : b.HasStr off s) : b.slice off s.length = s := by
  apply List.ext_getElem
  · simp [length_slice]
  · intro i h1 h2
    have := h.bytes i h2
    simpa [slice, List.getD_eq_getElem?_getD, h2] using this

theorem HasStr.cstr_eq {b : Bytes n} {off : Nat} {s : Str} (h : b.HasStr off s) : b.cstr off = s := by
  have hsplit : n - off = s.length + (1 + (n - off - s.length - 1)) := by
    have := h.fits
    omega
  unfold cstr
  rw [hsplit, slice_add, slice_add, h.slice_eq]
  have hnul : b.slice (off + s.length) 1 = [0] := by
    simp [slice, h.nul]
  rw [hnul]
  exact takeWhile_nul h.nulFree _

theorem HasStr.unique {b : Bytes n} {off : Nat} {s t : Str} (h : b.HasStr off s) (h' : b.HasStr off t) : s = t :=
  h.cstr_eq.symm.trans h'.cstr_eq

/-- A C string depends only on its bytes and the terminator. -/
theorem HasStr.congr {b c : Bytes n} {off : Nat} {s : Str} (h : b.HasStr off s)
    (heq : ∀ i, off ≤ i → i ≤ off + s.length → c.get i = b.get i) : c.HasStr off s where
  nulFree := h.nulFree
  bytes := fun i hi => (heq _ (by omega) (by omega)).trans (h.bytes i hi)
  nul := (heq _ (by omega) (by omega)).trans h.nul
  fits := h.fits

/-- What `strcpy` leaves behind. -/
theorem hasStr_blit {b : Bytes n} {off : Nat} {s : Str} (hs : NulFree s) (hn : off + s.length + 1 ≤ n) :
    (b.blit off (s ++ [0])).HasStr off s where
  nulFree := hs
  bytes := fun i hi => by
    rw [get_blit_of_mem (by omega) (by simp; omega) (by omega)]
    simp [List.getD_eq_getElem?_getD, List.getElem?_append_left hi]
  nul := by
    rw [get_blit_of_mem (by omega) (by simp) (by omega)]
    simp
  fits := by omega

/-- What `strcat` leaves behind. -/
theorem HasStr.strcat {b : Bytes n} {off : Nat} {s t : Str} (h : b.HasStr off s) (ht : NulFree t)
    (hn : off + s.length + t.length + 1 ≤ n) : (b.blit (off + s.length) (t ++ [0])).HasStr off (s ++ t) := by
  have htail := hasStr_blit (b := b) ht hn
  refine ⟨h.nulFree.append ht, fun i hi => ?_, ?_, by rw [List.length_append]; omega⟩
  · by_cases hs : i < s.length
    · rw [get_blit_of_disjoint (by omega), h.bytes i hs]
      simp [List.getD_eq_getElem?_getD, List.getElem?_append_left hs]
    · rw [List.length_append] at hi
      have hget := htail.bytes (i - s.length) (by omega)
      rw [show off + s.length + (i - s.length) = off + i by omega] at hget
      rw [hget]
      simp [List.getD_eq_getElem?_getD, List.getElem?_append_right (Nat.not_lt.mp hs)]
  · rw [List.length_append, ← Nat.add_assoc]
    exact htail.nul

theorem hasStr_zero {off : Nat} (h : off < n) : (zero : Bytes n).HasStr off [] where
  nulFree := .nil
  bytes := fun i hi => by cases hi
  nul := get_zero _
  fits := h

end Bytes

/-! ## Comparing with memory -/

/-- `!strcmp(m + off, s)`: the C string in memory `m` at `off` is `s`. -/
def eqStr (m : Nat → Byte) (off : Nat) : Str → Bool
  | [] => m off == 0
  | c :: s => m off == c && eqStr m (off + 1) s

theorem eqStr_iff {m : Nat → Byte} {off : Nat} {s : Str} :
    eqStr m off s = true ↔ (∀ i < s.length, m (off + i) = s.getD i 0) ∧ m (off + s.length) = 0 := by
  induction s generalizing off with
  | nil => simp [eqStr]
  | cons c s ih =>
    simp only [eqStr, Bool.and_eq_true, beq_iff_eq, ih, List.length_cons]
    constructor
    · rintro ⟨h0, h1, h2⟩
      refine ⟨fun i hi => ?_, by rw [← h2]; congr 1; omega⟩
      cases i with
      | zero => simpa using h0
      | succ i =>
        have := h1 i (by omega)
        rw [show off + 1 + i = off + (i + 1) by omega] at this
        simpa using this
    · rintro ⟨h0, h1⟩
      refine ⟨by simpa using h0 0 (by omega), fun i hi => ?_, by rw [← h1]; congr 1; omega⟩
      have := h0 (i + 1) (by omega)
      rw [show off + (i + 1) = off + 1 + i by omega] at this
      simpa using this

end Memory
