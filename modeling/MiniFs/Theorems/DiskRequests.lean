import MiniFs.Theorems.BlockStore
import MiniFs.Theorems.Tokens

/-! # The requests of the disk server

The tests of `serv_loop` look at the tokens of a request from the first one on and stop before they reach one that is not
there, as long as there is a first one. -/

namespace MiniFs
open Interact Memory

/-! ## The tests -/

theorem both_some (a : Bool) (b : Option Bool) : both (some a) b = if a = true then b else some false := by
  cases a <;> rfl

theorem isTok_cons (t : Str) (ts : List Str) (s : Str) : isTok (t :: ts) 0 s = some (decide (t = s)) := by
  simp [isTok, tokSlot]

theorem isEnd_eq {ts : List Str} {i : Nat} (h : i ≤ ts.length) : isEnd ts i = some (decide (ts.length = i)) := by
  rw [isEnd, tokSlot, if_pos h, Option.map_some]
  by_cases hi : ts.length = i
  · simp [hi]
  · have hlt : i < ts.length := by omega
    simp [hi, hlt]

theorem isSet_eq {ts : List Str} {i : Nat} (h : i ≤ ts.length) : isSet ts i = some (decide (i < ts.length)) := by
  rw [isSet, tokSlot, if_pos h, Option.map_some]
  by_cases hi : i < ts.length
  · simp [hi]
  · simp [hi]

/-- The first token and the number of tokens decide between the branches, and only without a first token is there a test
    of a token that is not there. -/
theorem command_eq (ts : List Str) :
    command ts = match ts with
      | [] => none
      | [t] => some (if t = lit "E" then .exit else if t = lit "I" then .info else .invalid)
      | [t, a, b] => some (if t = lit "R" then .read a b else .invalid)
      | [t, a, b, n] => some (if t = lit "W" then .write a b n else .invalid)
      | _ => some .invalid := by
  unfold command
  match ts with
  | [] => rfl
  | [t] =>
    simp only [isTok_cons, both_some, decide_eq_true_eq]
    by_cases hE : t = lit "E"
    · subst hE
      rfl
    · by_cases hI : t = lit "I"
      · subst hI
        rfl
      · simp [isSet_eq, both_some, hE, hI]
  | [t, a] => simp [isTok_cons, isEnd_eq, isSet_eq, both_some]
  | [t, a, b] =>
    simp only [isTok_cons, both_some, decide_eq_true_eq]
    by_cases hR : t = lit "R"
    · subst hR
      rfl
    · simp [isEnd_eq, isSet_eq, both_some, hR]
  | [t, a, b, n] =>
    simp only [isTok_cons, both_some, decide_eq_true_eq]
    by_cases hW : t = lit "W"
    · subst hW
      rfl
    · simp [isEnd_eq, isSet_eq, both_some, hW]
  | t :: a :: b :: n :: e :: ts => simp [isTok_cons, isEnd_eq, isSet_eq, both_some]

/-- `dispatch` takes the branch that the tests lead to. -/
theorem dispatch_eq (d : Disk) (ts : List Str) : dispatch d ts = (do answer d (← orFault (command ts))) := by
  rw [command_eq]
  match ts with
  | [] => rfl
  | [t] =>
    simp only [dispatch, orFault, Prog.ret_bind]
    split
    · rfl
    · split <;> rfl
  | [t, a] => rfl
  | [t, a, b] =>
    simp only [dispatch, orFault, Prog.ret_bind]
    split <;> rfl
  | [t, a, b, n] =>
    simp only [dispatch, orFault, Prog.ret_bind]
    split <;> rfl
  | t :: a :: b :: n :: e :: ts => rfl

/-! ## Requests -/

/-- The words of the requests that the disk server knows. -/
inductive Known : List Str → Prop
  | exit : Known [lit "E"]
  | info : Known [lit "I"]
  | read (x y : Str) : Known [lit "R", x, y]
  | write (x y z : Str) : Known [lit "W", x, y, z]

theorem Known.length_le {ts : List Str} (h : Known ts) : ts.length ≤ 4 := by
  cases h with
  | exit => exact Nat.le_add_left 1 3
  | info => exact Nat.le_add_left 1 3
  | read x y => exact Nat.le_add_left 3 1
  | write x y z => exact Nat.le_refl 4

/-- With a first token the tests have an outcome. -/
theorem command_of_ne_nil {ts : List Str} (h : ts ≠ []) : ∃ cmd, command ts = some cmd ∧ (cmd = .invalid ∨ Known ts) := by
  rw [command_eq]
  match ts with
  | [] => exact absurd rfl h
  | [t] =>
    refine ⟨_, rfl, ?_⟩
    by_cases hE : t = lit "E"
    · exact Or.inr (hE ▸ .exit)
    · by_cases hI : t = lit "I"
      · exact Or.inr (hI ▸ .info)
      · rw [if_neg hE, if_neg hI]
        exact Or.inl rfl
  | [t, a] => exact ⟨_, rfl, Or.inl rfl⟩
  | [t, a, b] =>
    refine ⟨_, rfl, ?_⟩
    by_cases hR : t = lit "R"
    · exact Or.inr (hR ▸ .read a b)
    · exact Or.inl (if_neg hR)
  | [t, a, b, n] =>
    refine ⟨_, rfl, ?_⟩
    by_cases hW : t = lit "W"
    · exact Or.inr (hW ▸ .write a b n)
    · exact Or.inl (if_neg hW)
  | t :: a :: b :: n :: e :: ts => exact ⟨_, rfl, Or.inl rfl⟩

/-- No test of `serv_loop` uses a token that is not there, and a request that the disk server does not know is refused and
    leaves the disk as it is. -/
def Handled (request : Str) : Prop :=
  (command (toks request 6)).isSome ∧ (¬Known (words request) → ∀ d, wp noSem.talk (servLoop d)
    (fun d' u => d' = some d ∧ u.2 = .done) ((), .hear (packet request) (.say (packet (lit "INVALID COMMAND")) .done)))

/-- The tokens of a request that the disk server does not know are not those of one that it knows. -/
theorem words_of_known {request : Str} (h : NulFree request) (hk : Known (toks request 6)) : Known (words request) := by
  have hlen := @length_toks request 6 (by decide)
  have hle := hk.length_le
  rwa [← toks_words h (by decide : 2 ≤ 6) (by omega)]

/-- The disk server handles exactly the requests that have a word. -/
theorem handled_iff (request : Str) (h : NulFree request) (hlen : request.length < 127) :
    Handled request ↔ words request ≠ [] := by
  have htoks : toks request 6 = [] ↔ words request = [] := by
    rw [← List.length_eq_zero_iff, ← List.length_eq_zero_iff, length_toks (by decide)]
    omega
  constructor
  · rintro ⟨hsome, -⟩ hnil
    rw [htoks.mpr hnil, command_eq] at hsome
    cases hsome
  · intro hne
    obtain ⟨cmd, hcmd, hkind⟩ := command_of_ne_nil fun hnil => hne (htoks.mp hnil)
    refine ⟨by rw [hcmd]; rfl, fun hunknown d => ?_⟩
    obtain rfl : cmd = .invalid := hkind.resolve_right fun hk => hunknown (words_of_known h hk)
    refine wp_bind.mpr (getMsg_talk h hlen ?_)
    show wp noSem.talk (dispatch d (toks request 6)) _ _
    rw [dispatch_eq, hcmd]
    show wp noSem.talk (sendMsg (lit "INVALID COMMAND") >>= fun _ => .ret (some d)) _ _
    exact wp_bind.mpr (sendMsg_talk (by decide) (wp_ret.mpr ⟨rfl, rfl⟩))

theorem handled_iff_read : Handled (lit "R 0") ↔ words (lit "R 0") ≠ [] := handled_iff _ (by decide) (by decide)

/-- In an empty request there is no first token to compare. -/
theorem handled_empty : ¬∀ request : Str, NulFree request → request.length < 127 → Handled request := by
  intro hall
  obtain ⟨hsome, -⟩ := hall [] NulFree.nil (by decide)
  cases hsome

end MiniFs
