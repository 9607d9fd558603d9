import MiniFs.Theorems.Numeral

/-! # The tokenizer

`get_toks` finds the words of a line, whatever white space stands around them, up to the number of slots that it has. The
last slot gets the rest of the line. -/

namespace MiniFs
open Memory

/-! ## Words -/

/-- The words of a string. -/
def words (str : Str) : List Str := (str.splitOnP isspace).filter (· ≠ [])

/-- The word at position `pos`. -/
def wordAt (str : Str) (pos : Nat) : Str := (str.drop pos).takeWhile fun c => !isspace c

/-- Where words start in a string that continues a word, or does not: at a character that is not white space and follows
    none in its word. -/
def startsFrom (inside : Bool) (str : Str) : List Nat :=
  (List.range str.length).filter fun i =>
    !isspace (str.getD i 0) && (if i = 0 then !inside else isspace (str.getD (i - 1) 0))

/-- Where the words of a string start. -/
def starts (str : Str) : List Nat := startsFrom false str

theorem startsFrom_cons (inside : Bool) (c : Byte) (str : Str) :
    startsFrom inside (c :: str) =
      (if !isspace c && !inside then [0] else []) ++ (startsFrom (!isspace c) str).map (· + 1) := by
  unfold startsFrom
  rw [List.length_cons, List.range_succ_eq_map, List.filter_cons, List.filter_map]
  have hrest : (List.range str.length).filter ((fun i => !isspace ((c :: str).getD i 0) &&
        (if i = 0 then !inside else isspace ((c :: str).getD (i - 1) 0))) ∘ Nat.succ) =
      (List.range str.length).filter fun i =>
        !isspace (str.getD i 0) && (if i = 0 then !!isspace c else isspace (str.getD (i - 1) 0)) := by
    refine List.filter_congr fun i _ => ?_
    cases i with
    | zero => simp
    | succ i => simp
  rw [hrest]
  simp only [List.getD_cons_zero, if_true]
  split <;> rfl

theorem startsFrom_space {inside : Bool} {c : Byte} {str : Str} (hc : isspace c = true) :
    startsFrom inside (c :: str) = (startsFrom false str).map (· + 1) := by
  rw [startsFrom_cons, hc]
  rfl

theorem startsFrom_inside {c : Byte} {str : Str} (hc : isspace c = false) :
    startsFrom true (c :: str) = (startsFrom true str).map (· + 1) := by
  rw [startsFrom_cons, hc]
  rfl

theorem startsFrom_start {c : Byte} {str : Str} (hc : isspace c = false) :
    startsFrom false (c :: str) = 0 :: (startsFrom true str).map (· + 1) := by
  rw [startsFrom_cons, hc]
  rfl

theorem map_wordAt_succ (c : Byte) (str : Str) (ps : List Nat) :
    (ps.map (· + 1)).map (wordAt (c :: str)) = ps.map (wordAt str) := by
  rw [List.map_map]
  rfl

/-- The words of a string and those after the word that it continues. -/
theorem splitOnP_words (str : Str) :
    ∃ tail, str.splitOnP isspace = wordAt str 0 :: tail ∧
      tail.filter (· ≠ []) = (startsFrom true str).map (wordAt str) ∧
      (wordAt str 0 :: tail).filter (· ≠ []) = (startsFrom false str).map (wordAt str) := by
  induction str with
  | nil => exact ⟨[], List.splitOnP_nil, rfl, rfl⟩
  | cons c str ih =>
    obtain ⟨tail, hsplit, hinside, hall⟩ := ih
    rw [List.splitOnP_cons_eq_if_modifyHead, hsplit]
    cases hc : isspace c with
    | true =>
      have hword : wordAt (c :: str) 0 = [] := by simp [wordAt, hc]
      refine ⟨wordAt str 0 :: tail, by rw [hword]; rfl, ?_, ?_⟩
      · rw [startsFrom_space hc, map_wordAt_succ, hall]
      · rw [startsFrom_space hc, map_wordAt_succ, ← hall, hword]
        rfl
    | false =>
      have hword : wordAt (c :: str) 0 = c :: wordAt str 0 := by simp [wordAt, hc]
      refine ⟨tail, by rw [hword]; rfl, ?_, ?_⟩
      · rw [startsFrom_inside hc, map_wordAt_succ, hinside]
      · rw [startsFrom_start hc, List.map_cons, map_wordAt_succ, ← hinside, hword]
        rfl

/-- The words of a string are what stands where words start. -/
theorem words_eq (str : Str) : words str = (starts str).map (wordAt str) := by
  obtain ⟨tail, hsplit, -, hall⟩ := splitOnP_words str
  rw [words, hsplit, hall, starts]

theorem length_words (str : Str) : (words str).length = (starts str).length := by rw [words_eq, List.length_map]

/-! ## The scan -/

/-- The tokens are at the first of the positions where words start. -/
theorem getToksFrom_starts {size : Nat} {str : Str} {pos len : Nat} {inside : Bool} (hlen : len < size - 1) :
    (getToksFrom size str pos inside len).2 = ((startsFrom inside str).map (pos + ·)).take (size - 1 - len) := by
  have hshift : ∀ (ps : List Nat) (pos : Nat), (ps.map (· + 1)).map (pos + ·) = ps.map (pos + 1 + ·) := fun ps pos => by
    rw [List.map_map]
    exact List.map_congr_left fun p _ => (Nat.succ_add pos p).symm
  fun_induction getToksFrom size str pos inside len with
  | case1 => simp [startsFrom]
  | case2 ch str pos len hs r ih => rw [startsFrom_space hs, hshift, ih hlen]
  | case3 ch str pos len hs hl =>
    have hone : size - 1 - len = 1 := by omega
    rw [startsFrom_start (by simpa using hs), hone]
    rfl
  | case4 ch str pos len hs hl r ih =>
    obtain ⟨m, hm⟩ : ∃ m, size - 1 - len = m + 1 := ⟨size - 2 - len, by omega⟩
    have hm' : size - 1 - (len + 1) = m := by omega
    rw [startsFrom_start (by simpa using hs), List.map_cons, hshift, hm, List.take_succ_cons, ih (by omega), hm']
    rfl
  | case5 ch str pos len hs r ih => rw [startsFrom_space hs, hshift, ih hlen]
  | case6 ch str pos len hs r ih => rw [startsFrom_inside (by simpa using hs), hshift, ih hlen]

/-- The word that the scan is in ends at the NUL that the scan writes after it, or at the end of the string. -/
theorem takeWhile_getToksFrom {size : Nat} {str : Str} {pos len : Nat} (hstr : NulFree str) :
    ((getToksFrom size str pos true len).1).takeWhile (· != 0) = wordAt str 0 := by
  induction str generalizing pos len with
  | nil => rfl
  | cons c str ih =>
    have hc0 : c ≠ 0 := hstr c List.mem_cons_self
    have hrest := @ih (pos + 1) len fun d hd => hstr d (List.mem_cons_of_mem _ hd)
    cases hc : isspace c with
    | true => simp [getToksFrom, hc, wordAt]
    | false => simpa [getToksFrom, hc, wordAt, hc0] using hrest

/-- What a token reads back as: its word, or the rest of the string if it is in the last slot. -/
theorem token_getToksFrom {size : Nat} {str : Str} {pos len : Nat} {inside : Bool} (hstr : NulFree str) {i p : Nat}
    (hp : (getToksFrom size str pos inside len).2[i]? = some p) :
    ((getToksFrom size str pos inside len).1.drop (p - pos)).takeWhile (· != 0) =
      if len + i + 1 = size - 1 then str.drop (p - pos) else wordAt str (p - pos) := by
  -- A token further on lies behind the character that the scan looks at.
  have hstep : ∀ {c c' : Byte} {str : Str} {pos len i p : Nat} {inside : Bool},
      (getToksFrom size str (pos + 1) inside len).2[i]? = some p →
      ((getToksFrom size str (pos + 1) inside len).1.drop (p - (pos + 1))).takeWhile (· != 0) =
        (if len + i + 1 = size - 1 then str.drop (p - (pos + 1)) else wordAt str (p - (pos + 1))) →
      ((c' :: (getToksFrom size str (pos + 1) inside len).1).drop (p - pos)).takeWhile (· != 0) =
        if len + i + 1 = size - 1 then (c :: str).drop (p - pos) else wordAt (c :: str) (p - pos) := by
    intro c c' str pos len i p inside hp heq
    have hle : pos + 1 ≤ p := le_of_mem_getToksFrom (List.mem_of_getElem? hp)
    obtain ⟨k, hk⟩ : ∃ k, p - pos = k + 1 := ⟨p - (pos + 1), by omega⟩
    have hk' : p - (pos + 1) = k := by omega
    rw [hk'] at heq
    rw [hk]
    exact heq
  fun_induction getToksFrom size str pos inside len generalizing i with
  | case1 => simp at hp
  | case2 ch str pos len hs r ih => exact hstep hp (ih (fun d hd => hstr d (List.mem_cons_of_mem _ hd)) hp)
  | case3 ch str pos len hs hl =>
    obtain ⟨rfl, rfl⟩ : i = 0 ∧ pos = p := by
      cases i with
      | zero => exact ⟨rfl, by simpa using hp⟩
      | succ i => simp at hp
    rw [if_pos (by omega), Nat.sub_self, List.drop_zero]
    exact List.takeWhile_eq_self_iff.mpr fun d hd => bne_iff_ne.mpr (hstr d hd)
  | case4 ch str pos len hs hl r ih =>
    have hrest : NulFree str := fun d hd => hstr d (List.mem_cons_of_mem _ hd)
    cases i with
    | zero =>
      obtain rfl : pos = p := by simpa using hp
      have hc0 : ch ≠ 0 := hstr ch List.mem_cons_self
      have hword := @takeWhile_getToksFrom size str (pos + 1) (len + 1) hrest
      rw [if_neg (by omega), Nat.sub_self]
      simpa [wordAt, hc0, hs] using hword
    | succ i =>
      have hrec := @hstep ch ch str pos (len + 1) i p true hp (ih hrest hp)
      rwa [show len + 1 + i + 1 = len + (i + 1) + 1 by omega] at hrec
  | case5 ch str pos len hs r ih => exact hstep hp (ih (fun d hd => hstr d (List.mem_cons_of_mem _ hd)) hp)
  | case6 ch str pos len hs r ih => exact hstep hp (ih (fun d hd => hstr d (List.mem_cons_of_mem _ hd)) hp)

/-! ## The array of tokens -/

/-- `get_toks` writes the first slots of its array, a null pointer after the last token, and tokens that read back as the
    words in them; the last slot but one reads back as the rest of the string. -/
structure Tokenized (str : Str) (size : Nat) : Prop where
  inside : ∀ i, tokSlot (getToks str size).2 i ≠ none → i < size
  stop : tokSlot (getToks str size).2 (min (words str).length (size - 1)) = some none
  word : ∀ i < min (words str).length (size - 1), ∃ p w, (starts str)[i]? = some p ∧ (words str)[i]? = some w ∧
    wordAt str p = w ∧ tokSlot (getToks str size).2 i = some (some p) ∧
    tokSlot (toks str size) i = some (some (if i < size - 2 then w else str.drop p))

theorem getToks_starts {str : Str} {size : Nat} (hsize : 2 ≤ size) : (getToks str size).2 = (starts str).take (size - 1) := by
  have h := @getToksFrom_starts size str 0 0 false (by omega)
  simpa [getToks, starts] using h

theorem length_getToks {str : Str} {size : Nat} (hsize : 2 ≤ size) :
    (getToks str size).2.length = min (words str).length (size - 1) := by
  rw [getToks_starts hsize, List.length_take, length_words, Nat.min_comm]

theorem tokenized (str : Str) (size : Nat) (hstr : NulFree str) (hsize : 2 ≤ size) : Tokenized str size where
  inside := fun i hi => by
    have hlen := @length_getToks str size hsize
    unfold tokSlot at hi
    split at hi
    · omega
    · exact absurd rfl hi
  stop := by
    have hlen := @length_getToks str size hsize
    unfold tokSlot
    rw [if_pos (by omega), List.getElem?_eq_none (by omega)]
  word := fun i hi => by
    have hlen := @length_getToks str size hsize
    have hlt : i < (starts str).length := by
      rw [← length_words]
      omega
    have hstart : (starts str)[i]? = some (starts str)[i] := List.getElem?_eq_getElem hlt
    have hget : (getToks str size).2[i]? = some (starts str)[i] := by
      rw [getToks_starts hsize, List.getElem?_take_of_lt (by omega), hstart]
    have htoken := @token_getToksFrom size str 0 0 false hstr i _ hget
    refine ⟨_, _, hstart, ?_, rfl, ?_, ?_⟩
    · rw [words_eq, List.getElem?_map, hstart]
      rfl
    · rw [tokSlot, if_pos (by omega), hget]
    · rw [tokSlot, toks, if_pos (by rw [List.length_map]; omega), List.getElem?_map, hget]
      refine congrArg (fun t => some (some t)) (htoken.trans ?_)
      by_cases hlast : 0 + i + 1 = size - 1
      · rw [if_pos hlast, if_neg (by omega)]
        rfl
      · rw [if_neg hlast, if_pos (by omega)]
        rfl

theorem tokenized_request : Tokenized (lit " W 0\t31  4 ") 6 := tokenized _ 6 (by decide) (by decide)

theorem length_toks {str : Str} {size : Nat} (hsize : 2 ≤ size) :
    (toks str size).length = min (words str).length (size - 1) := by
  rw [toks, List.length_map, length_getToks hsize]

/-- With room for one token more, the tokens are the words. -/
theorem toks_words {str : Str} {size : Nat} (hstr : NulFree str) (hsize : 2 ≤ size) (h : (words str).length ≤ size - 2) :
    toks str size = words str := by
  have hlen := @length_toks str size hsize
  refine List.ext_getElem? fun i => ?_
  by_cases hi : i < (words str).length
  · have hget : (getToks str size).2[i]? = (starts str)[i]? := by
      rw [getToks_starts hsize, List.getElem?_take_of_lt (by omega)]
    have hlt : i < (starts str).length := by rwa [← length_words]
    rw [List.getElem?_eq_getElem hlt] at hget
    have htoken := @token_getToksFrom size str 0 0 false hstr i _ hget
    rw [if_neg (by omega)] at htoken
    rw [toks, words_eq, List.getElem?_map, List.getElem?_map, hget, List.getElem?_eq_getElem hlt]
    exact congrArg some htoken
  · rw [List.getElem?_eq_none (by omega), List.getElem?_eq_none (by omega)]

end MiniFs
