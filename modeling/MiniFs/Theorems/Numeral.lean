import MiniFs.Utils

/-! # Numerals and tokens

`strtol` and `atoi` read back what `itoa` writes, and `get_toks` finds the words of a line in which single spaces
separate them. -/

namespace MiniFs
open Memory

/-! ## Numerals -/

/-- A string of decimal digits. -/
def Digits (s : Str) : Prop := ∀ c ∈ s, isdigit c = true

instance (s : Str) : Decidable (Digits s) := List.decidableBAll (fun c => isdigit c = true) s

/-- What `itoa` appends for a number. -/
def numeral (n : Nat) : Str := if n = 0 then lit "0" else (digs 20 n).reverse

theorem toNat_digit (n : Nat) : (UInt8.ofNat (48 + n % 10)).toNat = 48 + n % 10 := by
  rw [UInt8.toNat_ofNat']
  omega

theorem isdigit_digit (n : Nat) : isdigit (UInt8.ofNat (48 + n % 10)) = true := by
  simp only [isdigit, Bool.and_eq_true, decide_eq_true_eq, UInt8.le_iff_toNat_le, toNat_digit]
  constructor
  · exact Nat.le_add_right _ _
  · show 48 + n % 10 ≤ 57
    omega

theorem digits_digs (room n : Nat) : Digits (digs room n) := by
  induction room generalizing n with
  | zero => simp [digs, Digits]
  | succ room ih =>
    unfold digs
    split
    · simp [Digits]
    · intro c hc
      rcases List.mem_cons.mp hc with rfl | hc
      · exact isdigit_digit n
      · exact ih _ c hc

theorem length_digs_le (room n : Nat) : (digs room n).length ≤ room := by
  induction room generalizing n with
  | zero => simp [digs]
  | succ room ih =>
    unfold digs
    split
    · simp
    · have := ih (n / 10)
      simp only [List.length_cons]
      omega

/-- A number below `10 ^ k` has at most `k` digits. -/
theorem length_digs_le_of_lt {room n k : Nat} (h : n < 10 ^ k) : (digs room n).length ≤ k := by
  induction room generalizing n k with
  | zero => simp [digs]
  | succ room ih =>
    unfold digs
    split
    · simp
    · rename_i hn
      cases k with
      | zero => simp at h; omega
      | succ k =>
        have := ih (n := n / 10) (k := k) (by rw [Nat.pow_succ] at h; omega)
        simp only [List.length_cons]
        omega

theorem digitsVal_concat {s : Str} (hs : Digits s) (acc : Nat) {c : Byte} (hc : isdigit c = true) :
    digitsVal acc (s ++ [c]) = 10 * digitsVal acc s + (c.toNat - 48) := by
  induction s generalizing acc with
  | nil => simp [digitsVal, hc]
  | cons d s ih =>
    have hd : isdigit d = true := hs d List.mem_cons_self
    simp only [List.cons_append, digitsVal, hd, if_true]
    exact ih (fun c hc => hs c (List.mem_cons_of_mem _ hc)) _

theorem digitsVal_digs {room n : Nat} (h : n < 10 ^ room) : digitsVal 0 (digs room n).reverse = n := by
  induction room generalizing n with
  | zero =>
    have : n = 0 := by simpa using h
    simp [digs, digitsVal, this]
  | succ room ih =>
    unfold digs
    split
    · rename_i hn
      simp [digitsVal, hn]
    · have hdig : Digits (digs room (n / 10)).reverse := fun c hc => digits_digs room _ c (List.mem_reverse.mp hc)
      rw [List.reverse_cons, digitsVal_concat hdig 0 (isdigit_digit n), ih (by rw [Nat.pow_succ] at h; omega),
        toNat_digit]
      omega

theorem digits_numeral (n : Nat) : Digits (numeral n) := by
  unfold numeral
  split
  · decide
  · exact fun c hc => digits_digs 20 n c (List.mem_reverse.mp hc)

theorem numeral_ne_nil (n : Nat) : numeral n ≠ [] := by
  unfold numeral
  split
  · decide
  · rename_i hn
    simp [digs, hn]

theorem length_numeral_le {n k : Nat} (h : n < 10 ^ k) (hk : 0 < k) : (numeral n).length ≤ k := by
  unfold numeral
  split
  · exact hk
  · rw [List.length_reverse]
    exact length_digs_le_of_lt h

theorem itoa_ofNat (str : Str) (n : Nat) : itoa str n = some (str ++ numeral n) := by
  unfold itoa numeral
  by_cases hn : n = 0
  · simp [hn]
  · simp [hn]

theorem isspace_of_isdigit {c : Byte} (h : isdigit c = true) : isspace c = false := by
  simp only [isdigit, Bool.and_eq_true, decide_eq_true_eq, UInt8.le_iff_toNat_le] at h
  have h48 : 48 ≤ c.toNat := h.1
  have hne : c ≠ 32 := by
    rintro rfl
    exact absurd h48 (by decide)
  have hle : ¬c ≤ 13 := by
    rw [UInt8.le_iff_toNat_le]
    show ¬c.toNat ≤ 13
    omega
  simp [isspace, hne, hle]

theorem ne_zero_of_isdigit {c : Byte} (h : isdigit c = true) : c ≠ 0 := by
  rintro rfl
  exact absurd h (by decide)

theorem Digits.nulFree {s : Str} (h : Digits s) : NulFree s := fun c hc => ne_zero_of_isdigit (h c hc)

theorem digitsVal_numeral {n : Nat} (h : n < 10 ^ 20) : digitsVal 0 (numeral n) = n := by
  unfold numeral
  split
  · rename_i hn
    rw [hn]
    decide
  · exact digitsVal_digs h

theorem numeralVal_numeral {n : Nat} (h : n < 10 ^ 20) : numeralVal (numeral n) = n := by
  have hval := digitsVal_numeral h
  cases hs : numeral n with
  | nil => exact absurd hs (numeral_ne_nil n)
  | cons c s =>
    have hc : isdigit c = true := digits_numeral n c (by rw [hs]; exact List.mem_cons_self)
    have h45 : c ≠ 45 := by
      rintro rfl
      exact absurd hc (by decide)
    have h43 : c ≠ 43 := by
      rintro rfl
      exact absurd hc (by decide)
    rw [hs] at hval
    simp [numeralVal, isspace_of_isdigit hc, h45, h43, hval]

theorem strtol_of_long {s : Str} (h : -2 ^ 63 ≤ numeralVal s) (h' : numeralVal s < 2 ^ 63) : strtol s = numeralVal s := by
  unfold strtol
  omega

/-- `atoi` after `itoa` is the identity on the numbers that are an `int`. -/
theorem atoi_numeral {n : Nat} (h : n < 2 ^ 31) : atoi (numeral n) = n := by
  have hval : numeralVal (numeral n) = n := numeralVal_numeral (by omega)
  unfold atoi
  rw [strtol_of_long (by omega) (by omega), hval]
  exact Int.bmod_eq_of_le (by omega) (by omega)

theorem catInt_ofNat {b : Str} {n : Nat} (h : b.length + (numeral n).length < bufferSize) :
    catInt b n = some (b ++ numeral n) := by
  unfold catInt
  rw [itoa_ofNat]
  simp [h]

/-! ## Rendering -/

/-- The last digit that the loop of `itoa` finds is not zero. -/
theorem getLast?_digs {room n : Nat} (h : n < 10 ^ room) : (digs room n).getLast? ≠ some 48 := by
  induction room generalizing n with
  | zero => simp [digs]
  | succ room ih =>
    have hlt : n / 10 < 10 ^ room := by
      rw [Nat.pow_succ] at h
      omega
    unfold digs
    split
    · simp
    · rename_i hn
      rw [List.getLast?_cons]
      cases hrest : (digs room (n / 10)).getLast? with
      | some c =>
        have hc := ih hlt
        rwa [hrest] at hc
      | none =>
        have hnil : digs room (n / 10) = [] := List.getLast?_eq_none_iff.mp hrest
        have hzero : n / 10 = 0 := by
          rw [← digitsVal_digs hlt, hnil]
          rfl
        intro heq
        have hval := congrArg UInt8.toNat (Option.some.inj heq)
        rw [Option.getD_none, toNat_digit] at hval
        have h48 : (48 : Byte).toNat = 48 := rfl
        omega

/-- With more room the loop of `itoa` would find the same digits. -/
theorem digs_of_lt {k room n : Nat} (h : n < 10 ^ k) (hk : k ≤ room) : digs room n = digs k n := by
  induction k generalizing room n with
  | zero =>
    have hn : n = 0 := by simpa using h
    cases room <;> simp [digs, hn]
  | succ k ih =>
    obtain ⟨room, rfl⟩ := Nat.exists_eq_add_of_le' (Nat.one_le_of_lt hk)
    have hrest := @ih room (n / 10) (by rw [Nat.pow_succ] at h; omega) (by omega)
    simp only [digs, hrest]

theorem head?_numeral {n : Nat} (h : n < 10 ^ 20) (h48 : (numeral n).head? = some 48) : numeral n = lit "0" := by
  unfold numeral at h48 ⊢
  split
  · rfl
  · rename_i hn
    rw [if_neg hn, List.head?_reverse] at h48
    exact absurd h48 (getLast?_digs h)

/-- The sign and the digits that `itoa` appends. -/
theorem itoa_eq (str : Str) {val : Int} (h : val ≠ -2 ^ 63) :
    itoa str val = some (str ++ ((if val < 0 then lit "-" else []) ++ numeral val.natAbs)) := by
  unfold itoa numeral
  by_cases h0 : val = 0
  · simp [h0]
  · have h0' : val.natAbs ≠ 0 := by omega
    rw [if_neg h0, if_neg h, if_neg h0', List.append_assoc]

/-- `w` is the decimal numeral of `val`: a sign only if it is negative, its digits, no leading zero. -/
def Canonical (val : Int) (w : Str) : Prop :=
  ∃ ds, w = (if val < 0 then lit "-" else []) ++ ds ∧ Digits ds ∧ ds ≠ [] ∧ (ds.head? = some 48 → ds = lit "0") ∧
    digitsVal 0 ds = val.natAbs

theorem canonical_numeral {val : Int} (h : val.natAbs < 10 ^ 20) :
    Canonical val ((if val < 0 then lit "-" else []) ++ numeral val.natAbs) :=
  ⟨numeral val.natAbs, rfl, digits_numeral _, numeral_ne_nil _, head?_numeral h, digitsVal_numeral h⟩

theorem numeralVal_signed {val : Int} (h : val.natAbs < 10 ^ 20) :
    numeralVal ((if val < 0 then lit "-" else []) ++ numeral val.natAbs) = val := by
  split
  · have h45 : isspace 45 = false := by decide
    show numeralVal (45 :: numeral val.natAbs) = val
    simp only [numeralVal, List.dropWhile_cons, h45, Bool.false_eq_true, if_false, if_true, digitsVal_numeral h]
    omega
  · rw [List.nil_append, numeralVal_numeral h]
    omega

/-- `strtol` after `itoa` is the identity. -/
theorem strtol_signed {val : Int} (h : -2 ^ 63 ≤ val) (h' : val < 2 ^ 63) :
    strtol ((if val < 0 then lit "-" else []) ++ numeral val.natAbs) = val := by
  have hval := @numeralVal_signed val (by omega)
  rw [strtol_of_long (by omega) (by omega), hval]

/-- `itoa` appends the numeral of `val`, and 20 digits are room enough. -/
def ItoaRight (str : Str) (val : Int64) : Prop :=
  ∃ w, itoa str val.toInt = some (str ++ w) ∧ Canonical val.toInt w ∧ strtol w = val.toInt ∧
    ∀ room, 20 ≤ room → digs room val.toInt.natAbs = digs 20 val.toInt.natAbs

/-- `itoa` is right for every `long` but the smallest, which it cannot negate. -/
theorem itoaRight_iff (str : Str) (val : Int64) : ItoaRight str val ↔ val ≠ Int64.minValue := by
  constructor
  · rintro ⟨w, hw, -⟩ rfl
    cases hw
  · intro hne
    have hmin : val.toInt ≠ -2 ^ 63 := fun h => hne (Int64.toInt_inj.mp h)
    have hle := val.le_toInt
    have hlt := val.toInt_lt
    have habs : val.toInt.natAbs < 10 ^ 20 := by omega
    exact ⟨_, itoa_eq str hmin, canonical_numeral habs, strtol_signed hle hlt,
      fun room hroom => digs_of_lt habs hroom⟩

theorem itoa_minValue : ¬∀ (str : Str) (val : Int64), ItoaRight str val := fun h => by
  obtain ⟨w, hw, -⟩ := h [] Int64.minValue
  cases hw

/-! ## Tokens -/

/-- A word that `get_toks` keeps as it is. -/
structure Word (w : Str) : Prop where
  ne : w ≠ []
  nospace : ∀ c ∈ w, isspace c = false
  nulFree : NulFree w

theorem Word.of_digits {w : Str} (h : Digits w) (hne : w ≠ []) : Word w :=
  ⟨hne, fun c hc => isspace_of_isdigit (h c hc), h.nulFree⟩

theorem word_numeral (n : Nat) : Word (numeral n) := .of_digits (digits_numeral n) (numeral_ne_nil n)

/-- The rest of a word. -/
theorem getToksFrom_word {w : Str} (hw : ∀ c ∈ w, isspace c = false) (size : Nat) (rest : Str) (pos len : Nat) :
    getToksFrom size (w ++ rest) pos true len =
      (w ++ (getToksFrom size rest (pos + w.length) true len).1, (getToksFrom size rest (pos + w.length) true len).2) := by
  induction w generalizing pos with
  | nil => simp
  | cons c w ih =>
    have hc : isspace c = false := hw c List.mem_cons_self
    simp only [List.cons_append, getToksFrom, hc, Bool.false_eq_true, if_false, List.length_cons]
    rw [ih (fun d hd => hw d (List.mem_cons_of_mem _ hd)), show pos + 1 + w.length = pos + (w.length + 1) by omega]

/-- No position that `get_toks` finds lies before where it started. -/
theorem le_of_mem_getToksFrom {size : Nat} {str : Str} {pos : Nat} {st : Bool} {len p : Nat}
    (h : p ∈ (getToksFrom size str pos st len).2) : pos ≤ p := by
  fun_induction getToksFrom size str pos st len with
  | case1 => simp at h
  | case2 ch str pos len hs r ih => exact (Nat.le_succ pos).trans (ih h)
  | case3 ch str pos len hs hl => rw [List.mem_singleton.mp h]
  | case4 ch str pos len hs hl r ih =>
    rcases List.mem_cons.mp h with rfl | h
    · exact Nat.le_refl _
    · exact (Nat.le_succ _).trans (ih h)
  | case5 ch str pos len hs r ih => exact (Nat.le_succ pos).trans (ih h)
  | case6 ch str pos len hs r ih => exact (Nat.le_succ pos).trans (ih h)

/-- The tokens of a part of the string that starts at position `pos`. -/
def tokensAt (pos : Nat) (r : Str × List Nat) : List Str :=
  r.2.map fun p => (r.1.drop (p - pos)).takeWhile (· != 0)

theorem tokensAt_append {pos : Nat} {u : Str} {r : Str × List Nat} (h : ∀ p ∈ r.2, pos + u.length ≤ p) :
    tokensAt pos (u ++ r.1, r.2) = tokensAt (pos + u.length) r := by
  refine List.map_congr_left fun p hp => ?_
  have := h p hp
  rw [List.drop_append, List.drop_eq_nil_of_le (by omega), List.nil_append, Nat.sub_sub]

/-- The words of a line, with single spaces between them. -/
def line (ws : List Str) : Str := (ws.intersperse [32]).flatten

theorem tokensAt_line {size : Nat} {ws : List Str} (hw : ∀ w ∈ ws, Word w) (pos len : Nat)
    (hlen : len + ws.length < size - 1) : tokensAt pos (getToksFrom size (line ws) pos false len) = ws := by
  induction ws generalizing pos len with
  | nil => rfl
  | cons w ws ih =>
    have hword := hw w List.mem_cons_self
    obtain ⟨c, w, rfl⟩ := List.exists_cons_of_ne_nil hword.ne
    have hc : isspace c = false := hword.nospace c List.mem_cons_self
    have hw' : ∀ d ∈ w, isspace d = false := fun d hd => hword.nospace d (List.mem_cons_of_mem _ hd)
    simp only [List.length_cons] at hlen
    have hl : ¬len + 1 = size - 1 := by omega
    cases ws with
    | nil =>
      have hline : line [c :: w] = c :: (w ++ []) := by simp [line]
      have hget : getToksFrom size (line [c :: w]) pos false len = (c :: w, [pos]) := by
        rw [hline, getToksFrom]
        simp [hc, hl, getToksFrom_word hw' size [], getToksFrom, -List.append_nil]
      rw [hget, tokensAt, List.map_singleton, Nat.sub_self, List.drop_zero, List.singleton_inj]
      exact List.takeWhile_eq_self_iff.mpr fun d hd => bne_iff_ne.mpr (hword.nulFree d hd)
    | cons v vs =>
      have hline : line ((c :: w) :: v :: vs) = c :: (w ++ 32 :: line (v :: vs)) := by simp [line]
      have h32 : isspace 32 = true := by decide
      have hrest := ih (fun u hu => hw u (List.mem_cons_of_mem _ hu)) (pos + 1 + w.length + 1) (len + 1)
        (by simp only [List.length_cons] at hlen ⊢; omega)
      have hpos := fun p => @le_of_mem_getToksFrom size (line (v :: vs)) (pos + 1 + w.length + 1) false (len + 1) p
      generalize hr : getToksFrom size (line (v :: vs)) (pos + 1 + w.length + 1) false (len + 1) = r at hrest hpos
      have hget : getToksFrom size (line ((c :: w) :: v :: vs)) pos false len =
          (c :: (w ++ 0 :: r.1), pos :: r.2) := by
        rw [hline, getToksFrom]
        simp [hc, hl, getToksFrom_word hw', getToksFrom, h32, hr]
      rw [hget]
      show ((c :: (w ++ 0 :: r.1)).drop (pos - pos)).takeWhile (· != 0) :: tokensAt pos (c :: (w ++ 0 :: r.1), r.2) = _
      have hshape : c :: (w ++ 0 :: r.1) = (c :: w ++ [0]) ++ r.1 := by simp
      have hlen' : pos + (c :: w ++ [0]).length = pos + 1 + w.length + 1 := by simp; omega
      rw [Nat.sub_self, List.drop_zero, ← List.cons_append, takeWhile_nul hword.nulFree, List.cons_append, hshape,
        tokensAt_append (by rw [hlen']; exact hpos), hlen', hrest]

theorem toks_line {ws : List Str} (hw : ∀ w ∈ ws, Word w) {size : Nat} (h : ws.length < size - 1) :
    toks (line ws) size = ws := by
  have := @tokensAt_line size ws hw 0 0 (by omega)
  simpa [toks, getToks, tokensAt] using this

end MiniFs
